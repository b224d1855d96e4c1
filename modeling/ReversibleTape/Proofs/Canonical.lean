import ReversibleTape.Proofs.Passes
import ReversibleTape.Proofs.Rendering

/-!
# Canonical sources

The canonical source of a program holds no comments. Read again, it gives a program of its own, and
the question is how far the two are the same.

**Without folding they are** (`Program.ofSource_render_unfolded`): the canonical source of a source
is its significant characters, and reading it again changes nothing but places.

**With folding they need not be.** A cancelled run leaves nothing in the canonical source, but it
kept the runs on its two sides apart, and now they meet: `>+-<` is read as two moves, whose
canonical source `><` is read as nothing. This is the only way in which the two can differ. They are
the same exactly if no two neighbours are both additions or both moves
(`Program.ofSource_render_folded`).

One half is that the groups of the text are then the runs of the program
(`Mark.joinRuns_ofText_text`), and that clearing finds the loops as which a `zero` is written
(`Mark.clear_flatMap_opened`). For the other half, characters are counted. Clearing keeps the length
of the text, and joining runs makes it no longer (`Mark.length_text_filterMap_le`), but shorter if a
group is dropped. If the text comes back, nothing was dropped, and then groups that are next to each
other do not belong to one run (`Mark.parted_joinRuns`).
-/

namespace ReversibleTape

namespace Mark

variable {m : Mark} {ch : Char}

/-! ### Texts of marks -/

/-- The source text of a mark. -/
def glyphs (m : Mark) : List Char := Token.glyphs { kind := m.kind, delta := m.amount }

/-- The source text of marks. -/
def text (ms : List Mark) : List Char := ms.flatMap glyphs

theorem text_cons (m : Mark) (ms : List Mark) : text (m :: ms) = m.glyphs ++ text ms := rfl

theorem text_append (us vs : List Mark) : text (us ++ vs) = text us ++ text vs :=
  List.flatMap_append

theorem framed_inj {ms ms' : List Mark} : framed ms = framed ms' ↔ ms = ms' := by
  simp [framed]

theorem text_framed (ms : List Mark) : text (framed ms) = text ms := by
  simp [text, framed, glyphs, Token.glyphs]

theorem ofText_append (u v : List Char) : ofText (u ++ v) = ofText u ++ ofText v :=
  List.filterMap_append

theorem glyphs_of_ofChar? (h : ofChar? ch = some m) : m.glyphs = [ch] := by
  unfold ofChar? at h
  split at h <;> cases h <;> rfl

/-- The significant characters of a text; all else is comment. -/
def significant (cs : List Char) : List Char := cs.filter fun ch => ch ∈ "+-<>[].,".toList

/-- They are the characters that have a mark. -/
theorem significant_eq_filter_isSome (cs : List Char) :
    significant cs = cs.filter fun ch => (ofChar? ch).isSome := by
  refine List.filter_congr fun ch _ => ?_
  rw [Bool.eq_iff_iff, decide_eq_true_iff]
  constructor
  · have hall : ("+-<>[].,".toList.all fun ch => (ofChar? ch).isSome) = true := by decide
    exact List.all_eq_true.mp hall ch
  · intro h
    unfold ofChar? at h
    split at h <;> first | decide | cases h

/-- Comments have no mark. -/
theorem ofText_significant (cs : List Char) : ofText (significant cs) = ofText cs := by
  rw [significant_eq_filter_isSome, ofText, List.filterMap_filter]
  refine List.filterMap_congr fun ch _ => ?_
  cases ofChar? ch <;> rfl

/-- The text of the marks of a text is its significant part. -/
theorem text_ofText (cs : List Char) : text (ofText cs) = significant cs := by
  rw [significant_eq_filter_isSome]
  induction cs with
  | nil => rfl
  | cons ch cs ih =>
    rw [ofText, List.filterMap_cons, List.filter_cons]
    cases hmark : ofChar? ch with
    | none => exact ih
    | some m =>
      rw [text_cons, glyphs_of_ofChar? hmark]
      exact congrArg (ch :: ·) ih

end Mark

theorem Program.glyphs_eq_text (p : Program) : p.glyphs = Mark.text p.marks := by
  rw [glyphs, Mark.text, marks, List.flatMap_map]
  rfl

namespace Program

variable {p : Program} {source : String}

/-- A canonical source is accepted, with and without folding. -/
theorem WellFormed.exists_ofSource (hp : p.WellFormed) (optimize : Bool) :
    ∃ q, ofSource p.render optimize = .ok q := by
  have hw : (0 : UInt32) < 1 := by decide
  refine exists_ofSource_of_balanced ?_ optimize
  rw [toList_render]
  exact (hp.renders hw).balanced

/-! ### Without folding -/

theorem marks_of_ofSource_false (h : ofSource source false = .ok p) :
    p.marks = Mark.framed (Mark.ofText source.toList) := by
  have hempty : Folder.absorbing {} = false := rfl
  have hmarks : ((Lexeme.scan source).foldl (Folder.read false) {}).marks =
      ((Lexeme.scan source).filterMap Lexeme.mark?).reverse ++ [] :=
    Folder.marks_foldl_read_false hempty
  rw [marks_of_ofSource h, Token.ofLexemes, List.map_reverse, ← Lexeme.filterMap_mark?_scan]
  refine congrArg Mark.framed ?_
  rw [← List.reverse_inj, List.reverse_reverse]
  exact hmarks.trans (List.append_nil _)

/-- **The canonical source of an unfolded program** is the source without its comments, and reading
it again gives a program of the same shape, with the same canonical source. -/
theorem ofSource_render_unfolded (h : ofSource source false = .ok p) :
    p.render = String.ofList (Mark.significant source.toList) ∧
      ∃ q, ofSource p.render false = .ok q ∧ q.shape = p.shape ∧ q.render = p.render := by
  have hmarks := marks_of_ofSource_false h
  have hrender : p.glyphs = Mark.significant source.toList := by
    rw [glyphs_eq_text, hmarks, Mark.text_framed, Mark.text_ofText]
  obtain ⟨q, hq⟩ := (wellFormed_of_ofSource h).exists_ofSource false
  have hmarks' : q.marks = p.marks := by
    rw [marks_of_ofSource_false hq, hmarks, toList_render, hrender, Mark.ofText_significant]
  refine ⟨congrArg String.ofList hrender, q, hq, shape_eq_of_marks_eq h hq hmarks', ?_⟩
  rw [render, render, glyphs_eq_text, glyphs_eq_text, hmarks']

/-- A loop in a loop, with comments between the characters, and nothing to fold. -/
def annotated : String := "+ one [>, é\n [- -] +-. λ] <"

theorem ofSource_render_unfolded_annotated :
    ∃ p, ofSource annotated false = .ok p ∧ p.render = "+[>,[--]+-.]<" ∧
      ∃ q, ofSource "+[>,[--]+-.]<" false = .ok q ∧ q.shape = p.shape ∧ q.render = p.render := by
  have hload : ∃ p, ofSource annotated false = .ok p := ⟨_, rfl⟩
  have htext : String.ofList (Mark.significant annotated.toList) = "+[>,[--]+-.]<" := by
    decide +kernel
  obtain ⟨p, hp⟩ := hload
  obtain ⟨hrender, q, hq, hshape, hrender'⟩ := ofSource_render_unfolded hp
  rw [hrender, htext] at hq
  exact ⟨p, hp, hrender.trans htext, q, hq, hshape, hrender'⟩

end Program

/-! ### Reading the text of marks with folding -/

namespace Mark

variable {m k : Mark} {ms us vs : List Mark} {ch : Char} {g : List Mark} {gs : List (List Mark)}

/-- A mark that can be read: it is not of the frame, and has an amount exactly if its kind has
one. -/
structure Legible (m : Mark) : Prop where
  isSentinel_eq : m.kind.isSentinel = false
  isFoldable_iff : m.kind.isFoldable = true ↔ m.amount ≠ 0

theorem legible_of_ofChar? (h : ofChar? ch = some m) : m.Legible := by
  unfold ofChar? at h
  split at h <;> cases h <;> exact ⟨rfl, by decide⟩

theorem legible_of_mem_ofText {cs : List Char} (h : m ∈ ofText cs) : m.Legible := by
  obtain ⟨ch, -, hch⟩ := List.mem_filterMap.mp h
  exact legible_of_ofChar? hch

/-- A group that is not dropped is a run with an amount, or begins with what does not run. -/
theorem ofGroup?_cases (h : ofGroup? g = some m) :
    ∃ k rest, g = k :: rest ∧
      (k.kind.isFoldable = true ∧ total g ≠ 0 ∧ m = { kind := k.kind, amount := total g } ∨
        m = k) := by
  cases g with
  | nil => cases h
  | cons k rest =>
    refine ⟨k, rest, rfl, ?_⟩
    rw [ofGroup?] at h
    split at h
    · rename_i hkind
      split at h
      · cases h
      · rename_i htotal
        exact .inl ⟨hkind, htotal, (Option.some.inj h).symm⟩
    · exact .inr (Option.some.inj h).symm

theorem kind_of_ofGroup? (h : ofGroup? (k :: g) = some m) : m.kind = k.kind := by
  obtain ⟨_, _, ⟨⟩, ⟨-, -, rfl⟩ | rfl⟩ := ofGroup?_cases h <;> rfl

theorem legible_of_ofGroup? (hg : ∀ k ∈ g, k.Legible) (h : ofGroup? g = some m) : m.Legible := by
  obtain ⟨k, rest, rfl, ⟨hkind, htotal, rfl⟩ | rfl⟩ := ofGroup?_cases h
  · exact ⟨(hg k List.mem_cons_self).isSentinel_eq, iff_of_true hkind htotal⟩
  · exact hg m List.mem_cons_self

theorem legible_of_mem_joinRuns (h : ∀ k ∈ ms, k.Legible) (hm : m ∈ joinRuns ms) : m.Legible := by
  obtain ⟨g, hg, hgroup⟩ := List.mem_filterMap.mp hm
  refine legible_of_ofGroup? (fun k hk => h k ?_) hgroup
  rw [← List.flatten_splitBy joins ms]
  exact List.mem_flatten_of_mem hg hk

theorem legible_of_mem_clear (h : ∀ k ∈ ms, k.Legible) (hm : m ∈ clear ms) : m.Legible := by
  induction ms using clear.induct with
  | case1 a b c ms hclears ih =>
    rw [clear, if_pos hclears] at hm
    rcases List.mem_cons.mp hm with rfl | hm
    · exact ⟨rfl, by decide⟩
    · exact ih (fun k hk => h k (by simp [hk])) hm
  | case2 a b c ms hclears ih =>
    rw [clear, if_neg hclears] at hm
    rcases List.mem_cons.mp hm with rfl | hm
    · exact h m List.mem_cons_self
    · exact ih (fun k hk => h k (List.mem_cons_of_mem a hk)) hm
  | case3 ms hshort =>
    rw [clear.eq_2 ms hshort] at hm
    exact h m hm

/-! ### One mark -/

/-- A `zero` is written as a loop. -/
def opened (m : Mark) : List Mark :=
  if m.kind = .zero then
    [{ kind := .loopOpen }, { kind := .add, amount := -1 }, { kind := .loopClose }]
  else [m]

theorem joinRuns_append (h : ∀ x ∈ us.getLast?, ∀ y ∈ vs.head?, joins x y = false) :
    joinRuns (us ++ vs) = joinRuns us ++ joinRuns vs := by
  rw [joinRuns, List.splitBy_append h, List.filterMap_append]
  rfl

theorem total_replicate (n : Nat) (m : Mark) : total (List.replicate n m) = n * m.amount := by
  induction n with
  | zero => simp
  | succ n ih => rw [List.replicate_succ, total_cons, ih, Int.natCast_add_one, Int.add_mul]; omega

/-- A run of equal marks is joined. -/
theorem joinRuns_replicate (hkind : m.kind.isFoldable = true) (hamount : m.amount ≠ 0) {n : Nat}
    (hn : n ≠ 0) :
    joinRuns (List.replicate n m) = [{ kind := m.kind, amount := n * m.amount }] := by
  have hjoins : joins m m = true := by simp [joins, hkind]
  have htotal := total_replicate n m
  have hgroup :
      ofGroup? (List.replicate n m) = some { kind := m.kind, amount := n * m.amount } := by
    obtain ⟨n, rfl⟩ := Nat.exists_eq_succ_of_ne_zero hn
    rw [← htotal, List.replicate_succ, ofGroup?, if_pos hkind, if_neg]
    rw [← List.replicate_succ, htotal]
    exact Int.mul_ne_zero (by omega) hamount
  rw [joinRuns, List.splitBy_of_isChain (by simpa using hn)
    (List.isChain_replicate_of_rel n hjoins), List.filterMap_cons, hgroup, List.filterMap_nil]

section Runs

variable {kind : Kind} {up down : Char} {n : Int}

theorem ofText_run (hup : ofChar? up = some { kind, amount := 1 })
    (hdown : ofChar? down = some { kind, amount := -1 }) (n : Int) :
    ofText (Token.run up down n) = List.replicate n.natAbs { kind, amount := n.sign } := by
  rw [Token.run, ofText, List.filterMap_replicate]
  rcases Int.lt_trichotomy n 0 with hneg | rfl | hpos
  · simp [Int.not_lt.mpr (Int.le_of_lt hneg), hdown, Int.sign_eq_neg_one_of_neg hneg]
  · simp [hdown]
  · simp [hpos, hup, Int.sign_eq_one_of_pos hpos]

theorem joinRuns_ofText_run (hkind : kind.isFoldable = true)
    (hup : ofChar? up = some { kind, amount := 1 })
    (hdown : ofChar? down = some { kind, amount := -1 }) (hn : n ≠ 0) :
    joinRuns (ofText (Token.run up down n)) = [{ kind, amount := n }] := by
  have hsign : n.sign ≠ 0 := fun h => hn (Int.sign_eq_zero_iff_zero.mp h)
  rw [ofText_run hup hdown, joinRuns_replicate hkind hsign (by omega), Int.mul_comm,
    Int.sign_mul_natAbs]

end Runs

/-- Reading the text of a mark gives the mark back, up to a `zero`, which is not cleared yet. -/
theorem joinRuns_ofText_glyphs (hm : m.Legible) : joinRuns (ofText m.glyphs) = opened m := by
  obtain ⟨kind, amount⟩ := m
  obtain ⟨hsentinel, hamount⟩ := hm
  have hplain : kind.isFoldable = false → amount = 0 := by
    intro hkind
    by_contra hne
    exact absurd (hkind.symm.trans (hamount.mpr hne)) (by decide)
  cases kind with
  | start | finish => cases hsentinel
  | add | shift => exact joinRuns_ofText_run rfl rfl rfl (hamount.mp rfl)
  | loopOpen | loopClose | output | input | zero =>
    obtain rfl := hplain rfl
    rfl

theorem ofText_glyphs_ne_nil (hm : m.Legible) : ofText m.glyphs ≠ [] := by
  intro hnil
  have hopened := joinRuns_ofText_glyphs hm
  rw [hnil, opened] at hopened
  split at hopened <;> cases hopened

/-! ### Neighbours -/

theorem joins_of_isFoldable_left (hm : m.kind.isFoldable = false) (k : Mark) :
    joins m k = false := by
  rw [joins, hm, Bool.false_and]

theorem joins_of_isFoldable_right (hk : k.kind.isFoldable = false) (m : Mark) :
    joins m k = false := by
  by_cases hkind : m.kind = k.kind
  · exact joins_of_isFoldable_left (hkind ▸ hk) k
  · rw [joins, beq_false_of_ne hkind, Bool.and_false]

theorem joins_congr {a b : Mark} (ha : a.kind = m.kind) (hb : b.kind = k.kind) :
    joins a b = joins m k := by
  rw [joins, joins, ha, hb]

theorem kind_of_mem_ofText_glyphs (hm : m.kind ≠ .zero) :
    ∀ x ∈ ofText m.glyphs, x.kind = m.kind := by
  obtain ⟨kind, amount⟩ := m
  intro x hx
  cases kind with
  | start | finish => cases hx
  | add | shift =>
    change x ∈ ofText (Token.run _ _ amount) at hx
    rw [ofText_run rfl rfl] at hx
    rw [List.eq_of_mem_replicate hx]
  | loopOpen | loopClose | output | input =>
    rw [List.mem_singleton.mp hx]
  | zero => exact absurd rfl hm

/-- Neighbours that are not of one run stay so when they are read from their texts. -/
theorem joins_ends_eq_false (h : joins m k = false) :
    ∀ x ∈ (ofText m.glyphs).getLast?, ∀ y ∈ (ofText k.glyphs).head?, joins x y = false := by
  intro x hx y hy
  by_cases hm : m.kind = .zero
  · -- the text ends with the tail of a loop
    rw [glyphs, Token.glyphs, hm] at hx
    obtain rfl := Option.some.inj hx
    exact joins_of_isFoldable_left rfl y
  by_cases hk : k.kind = .zero
  · -- the text begins with the head of a loop
    rw [glyphs, Token.glyphs, hk] at hy
    obtain rfl := Option.some.inj hy
    exact joins_of_isFoldable_right rfl x
  · rw [← h]
    exact joins_congr (kind_of_mem_ofText_glyphs hm x (List.mem_of_getLast? hx))
      (kind_of_mem_ofText_glyphs hk y (List.mem_of_head? hy))

/-- No two neighbours belong to one run. -/
def Parted (ms : List Mark) : Prop := ms.IsChain fun a b => joins a b = false

instance : Decidable (Parted ms) := inferInstanceAs (Decidable (List.IsChain _ _))

/-- **Parted marks** are read from their text as they are, up to a `zero`. -/
theorem joinRuns_ofText_text (hms : ∀ m ∈ ms, m.Legible) (hparted : Parted ms) :
    joinRuns (ofText (text ms)) = ms.flatMap opened := by
  induction ms with
  | nil => rfl
  | cons m ms ih =>
    obtain ⟨hnext, hrest⟩ := List.isChain_cons.mp hparted
    have hends : ∀ x ∈ (ofText m.glyphs).getLast?, ∀ y ∈ (ofText (text ms)).head?,
        joins x y = false := by
      intro x hx y hy
      cases ms with
      | nil => cases hy
      | cons k ms =>
        have hk := ofText_glyphs_ne_nil (hms k (by simp))
        rw [text_cons, ofText_append, List.head?_append_of_ne_nil _ hk] at hy
        exact joins_ends_eq_false (hnext k rfl) x hx y hy
    rw [text_cons, ofText_append, joinRuns_append hends, List.flatMap_cons,
      joinRuns_ofText_glyphs (hms m List.mem_cons_self),
      ih (fun k hk => hms k (List.mem_cons_of_mem m hk)) hrest]

/-- Clearing finds the loops as which a `zero` is written. -/
theorem clear_flatMap_opened (hms : ∀ m ∈ ms, m.Legible) (us : List Mark) :
    clear (us ++ ms.flatMap opened) = clear (us ++ ms) := by
  induction ms generalizing us with
  | nil => rfl
  | cons m ms ih =>
    have hms' : ∀ k ∈ ms, k.Legible := fun k hk => hms k (List.mem_cons_of_mem m hk)
    rw [List.flatMap_cons, opened]
    split
    · rename_i hkind
      have hclears : Clears { kind := .loopOpen } { kind := .add, amount := -1 }
          { kind := .loopClose } := by decide
      have hm : m = { kind := .zero } := by
        have hfoldable := (hms m List.mem_cons_self).isFoldable_iff
        obtain ⟨kind, amount⟩ := m
        obtain rfl := hkind
        simpa [Kind.isFoldable] using hfoldable
      calc clear (us ++ ([_, _, _] ++ ms.flatMap opened))
          = clear (us ++ { kind := .zero } :: ms.flatMap opened) := clear_of_clears hclears us _
        _ = clear (us ++ m :: ms) := by rw [List.append_cons, ih hms', hm, ← List.append_cons]
    · rw [List.append_cons us m ms, ← ih hms', List.append_assoc]

theorem clear_clear (ms : List Mark) : clear (clear ms) = clear ms := by
  rw [clear_eq_foldl ms, clear_of_settled (settled_nil.foldl_put ms)]

/-! ### Lengths of texts -/

theorem length_glyphs_of_isFoldable (h : m.kind.isFoldable = true) :
    m.glyphs.length = m.amount.natAbs := by
  obtain ⟨kind, amount⟩ := m
  cases kind with
  | add | shift => exact List.length_replicate
  | start | finish | loopOpen | loopClose | output | input | zero => cases h

/-- A clearing loop is as long as the text of a `zero`. -/
theorem length_text_clear (ms : List Mark) : (text (clear ms)).length = (text ms).length := by
  induction ms using clear.induct with
  | case1 a b c ms hclears ih =>
    obtain ⟨ha, hb, hamount, hc⟩ := id hclears
    have hbody : b.glyphs.length = 1 := by
      rw [length_glyphs_of_isFoldable (by rw [hb]; rfl), hamount]
    have hhead : a.glyphs = ['['] := by rw [glyphs, Token.glyphs, ha]
    have htail : c.glyphs = [']'] := by rw [glyphs, Token.glyphs, hc]
    have hzero : glyphs { kind := .zero } = ['[', '-', ']'] := rfl
    rw [clear, if_pos hclears]
    simp only [text_cons, List.length_append, ih, hbody, hhead, htail, hzero, List.length_cons,
      List.length_nil]
    omega
  | case2 a b c ms hclears ih =>
    rw [clear, if_neg hclears, text_cons, text_cons, List.length_append, ih, List.length_append]
  | case3 ms hshort => rw [clear.eq_2 ms hshort]

theorem natAbs_total_le (h : ∀ m ∈ ms, m.kind.isFoldable = true) :
    (total ms).natAbs ≤ (text ms).length := by
  induction ms with
  | nil => exact Nat.le_refl 0
  | cons m ms ih =>
    have hrest := ih fun k hk => h k (List.mem_cons_of_mem m hk)
    calc (total (m :: ms)).natAbs ≤ m.amount.natAbs + (total ms).natAbs := Int.natAbs_add_le _ _
      _ ≤ (text (m :: ms)).length := by
        rw [text_cons, List.length_append, length_glyphs_of_isFoldable (h m List.mem_cons_self)]
        omega

/-- The mark of a group is not longer than the group. -/
theorem length_glyphs_le_of_ofGroup? (hg : g.IsChain (joins · ·)) (h : ofGroup? g = some m) :
    m.glyphs.length ≤ (text g).length := by
  obtain ⟨k, rest, rfl, ⟨hkind, -, rfl⟩ | rfl⟩ := ofGroup?_cases h
  · have hkinds : ∀ x ∈ k :: rest, x.kind.isFoldable = true := by
      intro x hx
      rw [kind_eq_of_isChain hg x hx, hkind]
    rw [length_glyphs_of_isFoldable (by exact hkind)]
    exact natAbs_total_le hkinds
  · rw [text_cons, List.length_append]
    exact Nat.le_add_right _ _

/-- **Joining runs does not make the text longer.** -/
theorem length_text_filterMap_le (hgs : ∀ g ∈ gs, g.IsChain (joins · ·)) :
    (text (gs.filterMap ofGroup?)).length ≤ (text gs.flatten).length := by
  induction gs with
  | nil => exact Nat.le_refl 0
  | cons g gs ih =>
    have hrest := ih fun g' hg' => hgs g' (List.mem_cons_of_mem g hg')
    rw [List.filterMap_cons, List.flatten_cons, text_append, List.length_append]
    split
    · omega
    · rename_i m hgroup
      have hglyphs := length_glyphs_le_of_ofGroup? (hgs g List.mem_cons_self) hgroup
      rw [text_cons, List.length_append]
      omega

/-- If it makes the text no shorter, no group is dropped. -/
theorem ofGroup?_ne_none (hgs : ∀ g ∈ gs, g.IsChain (joins · ·))
    (htexts : ∀ g ∈ gs, text g ≠ [])
    (h : (text gs.flatten).length ≤ (text (gs.filterMap ofGroup?)).length) :
    ∀ g ∈ gs, ofGroup? g ≠ none := by
  induction gs with
  | nil => simp
  | cons g gs ih =>
    obtain ⟨hg, hgs'⟩ := List.forall_mem_cons.mp hgs
    obtain ⟨htext, htexts'⟩ := List.forall_mem_cons.mp htexts
    have hpos := List.length_pos_of_ne_nil htext
    have hrest := length_text_filterMap_le hgs'
    rw [List.flatten_cons, text_append, List.length_append] at h
    cases hgroup : ofGroup? g with
    | none =>
      -- the text of a dropped group is missing, and no other group makes up for it
      rw [List.filterMap_cons_none hgroup] at h
      omega
    | some m =>
      have hglyphs := length_glyphs_le_of_ofGroup? hg hgroup
      rw [List.filterMap_cons_some hgroup, text_cons, List.length_append] at h
      exact List.forall_mem_cons.mpr ⟨by simp [hgroup], ih hgs' htexts' (by omega)⟩

/-- Groups of which none is dropped are parted. -/
theorem parted_filterMap (hgs : ∀ g ∈ gs, g.IsChain (joins · ·))
    (hparts : gs.IsChain fun g h => ∃ hg hh, joins (g.getLast hg) (h.head hh) = false)
    (hsome : ∀ g ∈ gs, ofGroup? g ≠ none) : Parted (gs.filterMap ofGroup?) := by
  induction gs with
  | nil => exact .nil
  | cons g gs ih =>
    obtain ⟨hg, hgs'⟩ := List.forall_mem_cons.mp hgs
    obtain ⟨hgroup, hsome'⟩ := List.forall_mem_cons.mp hsome
    obtain ⟨m, hm⟩ := Option.ne_none_iff_exists'.mp hgroup
    rw [List.filterMap_cons, hm]
    refine List.isChain_cons.mpr ⟨?_, ih hgs' hparts.tail hsome'⟩
    intro y hy
    cases gs with
    | nil => cases hy
    | cons g' gs =>
      obtain ⟨hne, hne', hjoins⟩ := (List.isChain_cons_cons.mp hparts).1
      obtain ⟨k, hk⟩ := Option.ne_none_iff_exists'.mp (hsome' g' List.mem_cons_self)
      obtain rfl : k = y := by simpa [hk] using hy
      obtain ⟨x, g, rfl⟩ := List.exists_cons_of_ne_nil hne
      obtain ⟨z, g', rfl⟩ := List.exists_cons_of_ne_nil hne'
      rw [← hjoins]
      refine joins_congr ?_ (kind_of_ofGroup? hk)
      rw [kind_of_ofGroup? hm, kind_eq_of_isChain hg _ (List.getLast_mem hne)]

/-- **If the text becomes no shorter**, joining runs leaves nothing to join. -/
theorem parted_joinRuns (hms : ∀ m ∈ ms, m.Legible)
    (h : (text ms).length ≤ (text (joinRuns ms)).length) : Parted (joinRuns ms) := by
  have hgroups : ∀ g ∈ ms.splitBy joins, g.IsChain (joins · ·) :=
    fun g hg => List.isChain_of_mem_splitBy hg
  have htexts : ∀ g ∈ ms.splitBy joins, text g ≠ [] := by
    intro g hg hnil
    obtain ⟨k, g, rfl⟩ := List.exists_cons_of_ne_nil (List.ne_nil_of_mem_splitBy hg)
    have hk : k ∈ ms := by
      rw [← List.flatten_splitBy joins ms]
      exact List.mem_flatten_of_mem hg List.mem_cons_self
    refine ofText_glyphs_ne_nil (hms k hk) ?_
    rw [(List.append_eq_nil_iff.mp hnil).1]
    rfl
  refine parted_filterMap hgroups (List.isChain_getLast_head_splitBy joins ms)
    (ofGroup?_ne_none hgroups htexts ?_)
  rwa [List.flatten_splitBy]

theorem eq_or_kind_eq_of_head?_clear (h : k ∈ (clear (m :: ms)).head?) :
    k = m ∨ k.kind = .zero := by
  match ms with
  | [] | [_] => exact .inl (Option.some.inj h).symm
  | b :: c :: ms =>
    rw [clear] at h
    split at h
    · obtain rfl := Option.some.inj h
      exact .inr rfl
    · exact .inl (Option.some.inj h).symm

/-- Clearing keeps parted what is parted. -/
theorem Parted.clear (h : Parted ms) : Parted (clear ms) := by
  induction ms using clear.induct with
  | case1 a b c ms hclears ih =>
    have hms : Parted ms := h.tail.tail.tail
    rw [Mark.clear, if_pos hclears]
    exact List.isChain_cons.mpr ⟨fun k _ => joins_of_isFoldable_left rfl k, ih hms⟩
  | case2 a b c ms hclears ih =>
    obtain ⟨hjoins, hrest⟩ := List.isChain_cons_cons.mp h
    rw [Mark.clear, if_neg hclears]
    refine List.isChain_cons.mpr ⟨fun k hk => ?_, ih hrest⟩
    rcases eq_or_kind_eq_of_head?_clear hk with rfl | hkind
    · exact hjoins
    · exact joins_of_isFoldable_right (by rw [hkind]; rfl) a
  | case3 ms hshort => rwa [clear.eq_2 ms hshort]

theorem parted_framed_iff : Parted (framed ms) ↔ Parted ms := by
  rw [Parted, framed, List.isChain_cons, List.isChain_append]
  constructor
  · exact fun h => h.2.1
  · refine fun h => ⟨fun k _ => joins_of_isFoldable_left rfl k, h, .singleton _, fun m _ k hk => ?_⟩
    obtain rfl := Option.some.inj hk
    exact joins_of_isFoldable_right rfl m

/-- **Reading the text of marks again.** Marks that were read with folding are read from their text
as they are exactly if they are parted. -/
theorem clear_joinRuns_ofText_text_iff {cs : List Char} (hms : ms = clear (joinRuns (ofText cs))) :
    clear (joinRuns (ofText (text ms))) = ms ↔ Parted ms := by
  constructor
  · intro h
    -- every pass makes the text at most shorter, and at the end it has its length again
    have hlength := calc
      (text (ofText (text ms))).length = (significant (text ms)).length := by rw [text_ofText]
      _ ≤ (text ms).length := List.length_filter_le _ _
      _ = (text (clear (joinRuns (ofText (text ms))))).length := by rw [h]
      _ = (text (joinRuns (ofText (text ms)))).length := length_text_clear _
    rw [← h]
    exact (parted_joinRuns (fun m => legible_of_mem_ofText) hlength).clear
  · intro hparted
    have hlegible : ∀ m ∈ ms, m.Legible := by
      rw [hms]
      exact fun m => legible_of_mem_clear fun k => legible_of_mem_joinRuns fun x =>
        legible_of_mem_ofText
    calc clear (joinRuns (ofText (text ms)))
        = clear (ms.flatMap opened) := by rw [joinRuns_ofText_text hlegible hparted]
      _ = clear ms := clear_flatMap_opened hlegible []
      _ = ms := by rw [hms, clear_clear]

end Mark

namespace Program

variable {p : Program} {source : String}

/-- Neighbours of a program are not both additions or both moves. -/
theorem parted_marks_iff (p : Program) :
    Mark.Parted p.marks ↔ ∀ i, (p.kindAt i).isFoldable = true → p.kindAt (i + 1) ≠ p.kindAt i := by
  have hlength : p.marks.length = p.size := by simp [marks, size]
  have hkind : ∀ (i : Nat) (hi : i < p.marks.length), p.marks[i].kind = p.kindAt i := by
    intro i hi
    rw [kindAt_eq_getD, ← map_kind_marks, List.getElem?_map, List.getElem?_eq_getElem hi]
    rfl
  rw [Mark.Parted, List.isChain_iff_getElem]
  constructor
  · intro h i hfoldable heq
    by_cases hi : i + 1 < p.size
    · have hjoins := h i (by omega)
      rw [Mark.joins, hkind, hkind, hfoldable, heq] at hjoins
      simp at hjoins
    · rw [← heq, kindAt_of_size_le (by omega)] at hfoldable
      cases hfoldable
  · intro h i hi
    rw [Mark.joins, hkind, hkind]
    by_cases hfoldable : (p.kindAt i).isFoldable = true
    · rw [beq_false_of_ne (h i hfoldable).symm, Bool.and_false]
    · rw [Bool.eq_false_of_not_eq_true hfoldable, Bool.false_and]

/-- **The canonical source of a folded program** is accepted with folding, and gives a program of
the same shape exactly if no two neighbours are both additions or both moves. Such neighbours were
kept apart by a run that was cancelled, and the canonical source does not show it. -/
theorem ofSource_render_folded (h : ofSource source true = .ok p) :
    ∃ q, ofSource p.render true = .ok q ∧
      (q.shape = p.shape ↔
        ∀ i, (p.kindAt i).isFoldable = true → p.kindAt (i + 1) ≠ p.kindAt i) := by
  obtain ⟨q, hq⟩ := (wellFormed_of_ofSource h).exists_ofSource true
  have hmarks := marks_of_ofSource_true h
  have hmarks' := marks_of_ofSource_true hq
  rw [toList_render, glyphs_eq_text, hmarks, Mark.text_framed] at hmarks'
  have hshape : q.shape = p.shape ↔ q.marks = p.marks := by
    refine ⟨fun heq => ?_, shape_eq_of_marks_eq h hq⟩
    rw [← map_fst_shape, heq, map_fst_shape]
  refine ⟨q, hq, ?_⟩
  rw [← parted_marks_iff, hshape, hmarks, hmarks', Mark.framed_inj, Mark.parted_framed_iff,
    Mark.clear_joinRuns_ofText_text_iff rfl]

/-- Runs are cancelled in a loop and behind it, but between none that are alike. -/
def spread : String := "++ [> -+ [+] < +- .] <> --"

theorem ofSource_render_folded_spread :
    ∃ p, ofSource spread true = .ok p ∧ p.render = "++[>[-]<.]--" ∧
      ∃ q, ofSource "++[>[-]<.]--" true = .ok q ∧ q.shape = p.shape := by
  have hload : ∃ p, ofSource spread true = .ok p := ⟨_, rfl⟩
  obtain ⟨p, hp⟩ := hload
  have hmarks := marks_of_ofSource_true hp
  have hrender : p.render = "++[>[-]<.]--" := by
    rw [render, glyphs_eq_text, hmarks]
    decide +kernel
  have hparted : Mark.Parted p.marks := by
    rw [hmarks]
    decide +kernel
  obtain ⟨q, hq, hshape⟩ := ofSource_render_folded hp
  rw [hrender] at hq
  exact ⟨p, hp, hrender, q, hq, hshape.mpr ((parted_marks_iff p).mp hparted)⟩

/-- The cancelled run is not shown, and the moves on its two sides cancel. -/
theorem ofSource_render_meeting_moves :
    ∃ p, ofSource ">+-<" true = .ok p ∧ p.render = "><" ∧
      ¬∃ q, ofSource p.render true = .ok q ∧ q.shape = p.shape := by
  have hload : ofSource ">+-<" true = .ok
      { tokens := #[.start, .readAt ⟨0, 1, 1⟩ .shift 1, .readAt ⟨3, 1, 4⟩ .shift (-1), .finish],
        source := ">+-<" } := by decide +kernel
  have hload' : ofSource "><" true = .ok { tokens := #[.start, .finish], source := "><" } := by
    decide +kernel
  refine ⟨_, hload, by decide +kernel, ?_⟩
  rintro ⟨q, hq, hshape⟩
  obtain rfl : _ = q := Except.ok.inj (hload'.symm.trans hq)
  exact absurd hshape (by decide)

end Program

end ReversibleTape
