import Mathlib.Data.List.SplitBy
import ReversibleTape.Proofs.Shape

/-!
# Folding in passes

Folding reads a source once and decides everything on the way. **It comes to the same as three
passes over the whole source** (`Program.ofSource_eq_passes`):

* `Mark.ofText` takes the significant characters, each with its own mark.
* `Mark.joinRuns` splits the marks in maximal groups of additions and of moves, gives each group its
  net amount, and drops the groups that have none. What stood on the two sides of a dropped group is
  not joined.
* `Mark.clear` replaces every loop whose body is one addition of one, up or down, by a `zero`.

The folder drops a run as soon as it comes to nothing, and may begin it anew. A run in progress is
known by its amount so far (`Folder.Runs`), whichever way it got there, so that a whole group adds
its net amount (`Folder.Runs.foldl_read`). The third pass is a stack machine (`Mark.put`), since a
loop that is cleared is found at its tail (`Mark.clear_eq_foldl`).
-/

namespace ReversibleTape

open Brackets (Balanced Mates)

namespace Mark

/-! ### Passes -/

/-- The mark of a significant character. -/
def ofChar? : Char → Option Mark
  | '+' => some { kind := .add, amount := 1 }
  | '-' => some { kind := .add, amount := -1 }
  | '>' => some { kind := .shift, amount := 1 }
  | '<' => some { kind := .shift, amount := -1 }
  | '[' => some { kind := .loopOpen }
  | ']' => some { kind := .loopClose }
  | '.' => some { kind := .output }
  | ',' => some { kind := .input }
  | _ => none

/-- **The first pass**: the marks of the significant characters. -/
def ofText (text : List Char) : List Mark := text.filterMap ofChar?

/-- Neighbours that belong to one run. -/
def joins (a b : Mark) : Bool := a.kind.isFoldable && a.kind == b.kind

/-- The net amount. -/
def total (ms : List Mark) : Int := ms.foldr (fun m n => m.amount + n) 0

@[simp] theorem total_nil : total [] = 0 := rfl

@[simp] theorem total_cons (m : Mark) (ms : List Mark) :
    total (m :: ms) = m.amount + total ms := rfl

/-- What becomes of a group: a run is one mark with its net amount, or nothing if it has none. -/
def ofGroup? : List Mark → Option Mark
  | [] => none
  | m :: ms =>
    if m.kind.isFoldable then
      if total (m :: ms) = 0 then none else some { kind := m.kind, amount := total (m :: ms) }
    else some m

/-- **The second pass**: every maximal group of a run is one mark, and no mark if it cancels. -/
def joinRuns (ms : List Mark) : List Mark := (ms.splitBy joins).filterMap ofGroup?

/-- A loop that clears the current cell: its body is one addition of one. -/
def Clears (head body tail : Mark) : Prop :=
  head.kind = .loopOpen ∧ body.kind = .add ∧ body.amount.natAbs = 1 ∧ tail.kind = .loopClose

instance (head body tail : Mark) : Decidable (Clears head body tail) :=
  inferInstanceAs (Decidable (_ ∧ _))

/-- **The third pass**: every clearing loop is a `zero`. -/
def clear : List Mark → List Mark
  | a :: b :: c :: ms =>
    if Clears a b c then { kind := .zero } :: clear ms else a :: clear (b :: c :: ms)
  | ms => ms

/-! ### Clearing as a stack machine -/

/-- Puts a mark on a stack, latest first, and a `zero` in the place of a clearing loop. -/
def put (stack : List Mark) (m : Mark) : List Mark :=
  match stack with
  | body :: head :: rest => if Clears head body m then { kind := .zero } :: rest else m :: stack
  | _ => m :: stack

/-- No clearing loop is left on the stack. -/
def Settled (stack : List Mark) : Prop := ∀ a b c, [c, b, a] <:+: stack → ¬Clears a b c

variable {a b c m : Mark} {ms xs ys stack : List Mark}

theorem put_of_kind_ne (h : m.kind ≠ .loopClose) : put stack m = m :: stack := by
  unfold put
  split
  · exact if_neg fun hclears => h hclears.2.2.2
  · rfl

/-- What a mark does to the stack: it is put on top, unless it is the tail of a clearing loop. -/
theorem put_cases (stack : List Mark) (m : Mark) :
    (∃ head body rest, stack = body :: head :: rest ∧ Clears head body m ∧
      put stack m = { kind := .zero } :: rest) ∨
    (∀ head body rest, stack = body :: head :: rest → ¬Clears head body m) ∧
      put stack m = m :: stack := by
  unfold put
  split
  · rename_i body head rest
    by_cases hclears : Clears head body m
    · exact .inl ⟨head, body, rest, rfl, hclears, if_pos hclears⟩
    · refine .inr ⟨?_, if_neg hclears⟩
      rintro _ _ _ ⟨⟩
      exact hclears
  · rename_i hshort
    exact .inr ⟨fun head body rest heq => absurd heq (hshort body head rest), rfl⟩

/-- A mark that is neither the body nor the tail of a clearing loop, so that no such loop extends
over it from the left. -/
def Parts (m : Mark) : Prop := m.kind ≠ .add ∧ m.kind ≠ .loopClose

/-- Clearing does not reach beyond a mark at which the marks part. -/
theorem clear_append (hm : m.Parts) (xs ys : List Mark) :
    clear (xs ++ m :: ys) = clear xs ++ clear (m :: ys) := by
  have hone : ∀ a, clear (a :: m :: ys) = a :: clear (m :: ys) := by
    intro a
    cases ys with
    | nil => rfl
    | cons y ys => exact if_neg fun hclears => hm.1 hclears.2.1
  induction xs using clear.induct with
  | case1 a b c xs hclears ih => simp [clear, hclears, ih]
  | case2 a b c xs hclears ih =>
    calc clear (a :: (b :: c :: xs ++ m :: ys))
        = a :: clear (b :: c :: xs ++ m :: ys) := if_neg hclears
      _ = clear (a :: b :: c :: xs) ++ clear (m :: ys) := by
        rw [ih, clear, if_neg hclears, List.cons_append]
  | case3 xs hshort =>
    match xs with
    | [] => rfl
    | [a] => exact hone a
    | [a, b] =>
      have hnot : ¬Clears a b m := fun hclears => hm.2 hclears.2.2.2
      calc clear (a :: b :: m :: ys) = a :: clear (b :: m :: ys) := if_neg hnot
        _ = a :: b :: clear (m :: ys) := by rw [hone]
    | a :: b :: c :: xs => exact absurd rfl (hshort a b c xs)

/-- A clearing loop is replaced wherever it stands. -/
theorem clear_of_clears (h : Clears a b c) (xs ys : List Mark) :
    clear (xs ++ a :: b :: c :: ys) = clear (xs ++ { kind := .zero } :: ys) := by
  have hhead : a.Parts := by simp [Parts, h.1]
  have hzero : Parts { kind := .zero } := by simp [Parts]
  have hcleared : clear ({ kind := .zero } :: ys) = { kind := .zero } :: clear ys := by
    match ys with
    | [] | [_] => rfl
    | _ :: _ :: _ => exact if_neg fun hclears => absurd hclears.1 (by decide)
  rw [clear_append hhead, clear_append hzero, hcleared, clear, if_pos h]

/-- Where no clearing loop is left, nothing is to be done. -/
theorem clear_of_settled (h : Settled stack) : clear stack.reverse = stack.reverse := by
  have hclear : ∀ ms : List Mark, (∀ a b c, [a, b, c] <:+: ms → ¬Clears a b c) → clear ms = ms := by
    intro ms
    induction ms using clear.induct with
    | case1 a b c ms hclears _ =>
      exact fun hnone => absurd hclears (hnone a b c ⟨[], ms, rfl⟩)
    | case2 a b c ms hclears ih =>
      intro hnone
      rw [clear, if_neg hclears, ih fun x y z hinfix => hnone x y z (List.infix_cons hinfix)]
    | case3 ms hshort => exact fun _ => clear.eq_2 ms hshort
  refine hclear _ fun a b c hinfix => h a b c ?_
  simpa using List.reverse_infix.mpr hinfix

theorem settled_nil : Settled [] := by simp [Settled]

theorem Settled.put (h : Settled stack) (m : Mark) : Settled (put stack m) := by
  intro x y z hinfix hclears
  rcases put_cases stack m with ⟨head, body, rest, rfl, -, hput⟩ | ⟨hnot, hput⟩
  · rw [hput, List.infix_cons_iff] at hinfix
    rcases hinfix with htop | hinner
    · obtain ⟨rfl, -⟩ := List.cons_prefix_cons.mp htop
      exact absurd hclears.2.2.2 (by decide)
    · exact h x y z (List.infix_cons (List.infix_cons hinner)) hclears
  · rw [hput, List.infix_cons_iff] at hinfix
    rcases hinfix with htop | hinner
    · obtain ⟨rfl, hbelow⟩ := List.cons_prefix_cons.mp htop
      obtain ⟨rest, rfl⟩ := hbelow
      exact hnot x y rest rfl hclears
    · exact h x y z hinner hclears

theorem Settled.foldl_put (h : Settled stack) (ms : List Mark) :
    Settled (ms.foldl Mark.put stack) := by
  induction ms generalizing stack with
  | nil => exact h
  | cons m ms ih => exact ih (h.put m)

/-- A mark may be put on the stack before it is cleared. -/
theorem clear_put (stack : List Mark) (m : Mark) (ms : List Mark) :
    clear (stack.reverse ++ m :: ms) = clear ((put stack m).reverse ++ ms) := by
  rcases put_cases stack m with ⟨head, body, rest, rfl, hclears, hput⟩ | ⟨-, hput⟩
  · simpa [hput] using clear_of_clears hclears rest.reverse ms
  · simp [hput]

theorem clear_append_eq_foldl (h : Settled stack) (ms : List Mark) :
    clear (stack.reverse ++ ms) = (ms.foldl Mark.put stack).reverse := by
  induction ms generalizing stack with
  | nil => rw [List.append_nil, clear_of_settled h, List.foldl_nil]
  | cons m ms ih => rw [clear_put, ih (h.put m), List.foldl_cons]

/-- **Clearing is done by a stack machine.** -/
theorem clear_eq_foldl (ms : List Mark) : clear ms = (ms.foldl Mark.put []).reverse :=
  clear_append_eq_foldl settled_nil ms

/-! ### Groups and characters -/

/-- The marks of a group are of one kind. -/
theorem kind_eq_of_isChain (h : (m :: ms).IsChain (joins · ·)) :
    ∀ k ∈ m :: ms, k.kind = m.kind := by
  induction ms generalizing m with
  | nil => simp
  | cons a ms ih =>
    obtain ⟨hjoins, hrest⟩ := List.isChain_cons_cons.mp h
    have hkind : m.kind = a.kind := by
      rw [joins, Bool.and_eq_true, beq_iff_eq] at hjoins
      exact hjoins.2
    intro k hk
    rcases List.mem_cons.mp hk with rfl | hk
    · rfl
    · rw [ih hrest k hk, hkind]

theorem ofChar?_of_symbol {ch : Char} (h : Symbol.ofChar? ch = none) : ofChar? ch = none := by
  unfold ofChar?
  split
  all_goals first | rfl | exact absurd h (by decide)

/-- A character with an amount has an amount of one, up or down. -/
theorem natAbs_of_ofChar? {ch : Char} (h : ofChar? ch = some m) (hm : m.kind.isFoldable = true) :
    m.amount.natAbs = 1 := by
  unfold ofChar? at h
  split at h <;> cases h <;> first | rfl | cases hm

end Mark

open Mark (joins put)

/-- The mark of a lexeme; the end of a line has none. -/
def Lexeme.mark? (l : Lexeme) : Option Mark := Mark.ofChar? l.symbol.char

theorem Lexeme.filterMap_mark?_scan (source : String) :
    (scan source).filterMap mark? = Mark.ofText source.toList := by
  have hscan : ∀ (pos : Position) (text : List Char),
      (scanFrom pos text).filterMap mark? = Mark.ofText text := by
    intro pos text
    induction text generalizing pos with
    | nil => rfl
    | cons c text ih =>
      rw [scanFrom, Mark.ofText, List.filterMap_cons]
      cases hsymbol : Symbol.ofChar? c with
      | none => rw [Mark.ofChar?_of_symbol hsymbol, ih, Mark.ofText]
      | some symbol =>
        obtain rfl := Symbol.ofChar?_eq_some_iff.mp hsymbol
        rw [List.filterMap_cons, ih, mark?, Mark.ofText]
  rw [scan_eq_scanFrom, hscan]

namespace Folder

variable {f : Folder} {l : Lexeme} {ls : List Lexeme} {m : Mark} {ms : List Mark} {kind : Kind}
  {n : Int} {t : Token} {before : List Mark} {optimize : Bool}

/-- The marks of the tokens, latest first. -/
def marks (f : Folder) : List Mark := f.tokens.map Token.mark

/-! ### One lexeme -/

theorem read_of_mark?_eq_none (h : l.mark? = none) : f.read optimize l = f := by
  unfold Lexeme.mark? at h
  rw [read]
  cases hsymbol : l.symbol with
  | newline => rfl
  | increment | decrement | right | left | loopOpen | loopClose | output | input =>
    rw [hsymbol] at h
    cases h

/-- A mark is read as a part of a run, as the tail of a loop, or as it is. -/
theorem read_of_mark? (h : l.mark? = some m) :
    f.read optimize l =
      if m.kind.isFoldable then f.run optimize (.readAt l.position m.kind m.amount)
      else if m.kind = .loopClose then f.close optimize (.readAt l.position m.kind m.amount)
      else f.plain (.readAt l.position m.kind m.amount) := by
  unfold Lexeme.mark? at h
  rw [read]
  cases hsymbol : l.symbol <;> rw [hsymbol] at h <;> cases h <;> rfl

theorem run_of_absorbing_eq_false (hf : f.absorbing = false) :
    f.run optimize t = { tokens := t :: f.tokens, absorbing := optimize } := by
  rw [run]
  split
  · rename_i habsorbing _
    exact absurd (hf.symm.trans habsorbing) (by decide)
  · rfl

/-- Without folding, every mark is a token. -/
theorem marks_foldl_read_false (hf : f.absorbing = false) :
    (ls.foldl (read false) f).marks = (ls.filterMap Lexeme.mark?).reverse ++ f.marks := by
  induction ls generalizing f with
  | nil => rfl
  | cons l ls ih =>
    rw [List.foldl_cons, List.filterMap_cons]
    cases hmark : l.mark? with
    | none => rw [read_of_mark?_eq_none hmark, ih hf]
    | some m =>
      have hread : f.read false l =
          { tokens := .readAt l.position m.kind m.amount :: f.tokens, absorbing := false } := by
        rw [read_of_mark? hmark, run_of_absorbing_eq_false hf]
        split
        · rfl
        · split <;> rfl
      rw [hread, ih rfl, List.reverse_cons, List.append_assoc]
      rfl

/-! ### Runs -/

/-- A run in progress: its amount so far stands on top, unless it is zero. -/
structure Runs (f : Folder) (kind : Kind) (n : Int) (before : List Mark) : Prop where
  marks_eq : f.marks = if n = 0 then before else { kind, amount := n } :: before
  absorbing_eq : f.absorbing = decide (n ≠ 0)

theorem Runs.run (h : f.Runs t.kind n before) (ht : t.delta ≠ 0) :
    (f.run true t).Runs t.kind (n + t.delta) before := by
  obtain ⟨hmarks, habsorbing⟩ := h
  by_cases hn : n = 0
  · subst hn
    rw [run_of_absorbing_eq_false habsorbing, Int.zero_add]
    refine ⟨?_, by simp [ht]⟩
    rw [if_neg ht, ← (hmarks.trans (if_pos rfl) : f.marks = before)]
    rfl
  · -- the run is on top of the tokens, and absorbs what follows
    rw [if_neg hn] at hmarks
    obtain ⟨last, rest, htokens, hlast, rfl⟩ := List.map_eq_cons_iff.mp hmarks
    obtain ⟨hkind, rfl⟩ := Mark.mk.inj hlast
    rw [decide_eq_true hn] at habsorbing
    rw [Folder.run, habsorbing, htokens]
    simp only [hkind, if_true]
    by_cases hsum : last.delta + t.delta = 0
    · rw [if_pos hsum]
      exact ⟨by rw [if_pos hsum]; rfl, by simp [hsum]⟩
    · rw [if_neg hsum]
      exact ⟨by rw [if_neg hsum]; rfl, by simp [hsum]⟩

/-- The latest token is not one that absorbs a run of the kind. -/
def Bars (f : Folder) (kind : Kind) : Prop :=
  f.absorbing = true → ∀ t ∈ f.tokens.head?, t.kind ≠ kind

theorem bars_of_absorbing_eq_false (h : f.absorbing = false) (kind : Kind) : f.Bars kind :=
  fun habsorbing => absurd (h.symm.trans habsorbing) (by decide)

theorem Runs.bars (h : f.Runs kind n before) {other : Kind} (hother : other ≠ kind) :
    f.Bars other := by
  intro habsorbing t ht
  have hn : n ≠ 0 := of_decide_eq_true (h.absorbing_eq.symm.trans habsorbing)
  have hmarks := h.marks_eq
  rw [if_neg hn] at hmarks
  obtain ⟨last, rest, htokens, hlast, -⟩ := List.map_eq_cons_iff.mp hmarks
  obtain rfl : last = t := by simpa [htokens] using ht
  rw [(Mark.mk.inj hlast).1]
  exact hother.symm

/-- A run begins behind a token that does not absorb it. -/
theorem runs_of_bars (h : f.Bars t.kind) (ht : t.delta ≠ 0) :
    (f.run true t).Runs t.kind t.delta f.marks := by
  have hrun : f.run true t = { tokens := t :: f.tokens, absorbing := true } := by
    rw [run]
    split
    · rename_i last rest habsorbing htokens
      rw [if_neg (h habsorbing last (by simp [htokens])), htokens]
    · rfl
  rw [hrun]
  exact ⟨by rw [if_neg ht]; rfl, by simp [ht]⟩

/-- **Reading on in a run** adds to its amount. -/
theorem Runs.foldl_read (h : f.Runs kind n before) (hkind : kind.isFoldable = true)
    (hls : ∀ m ∈ ls.filterMap Lexeme.mark?, m.kind = kind) :
    (ls.foldl (read true) f).Runs kind (n + Mark.total (ls.filterMap Lexeme.mark?)) before := by
  induction ls generalizing f n with
  | nil => simpa using h
  | cons l ls ih =>
    rw [List.foldl_cons]
    rw [List.filterMap_cons] at hls ⊢
    cases hmark : l.mark? with
    | none =>
      rw [hmark] at hls
      rw [read_of_mark?_eq_none hmark]
      exact ih h hls
    | some m =>
      rw [hmark] at hls
      obtain rfl := hls m List.mem_cons_self
      have hamount := Mark.natAbs_of_ofChar? hmark hkind
      have hrun : (f.read true l).Runs m.kind (n + m.amount) before := by
        rw [read_of_mark? hmark, if_pos hkind]
        exact Runs.run (t := .readAt l.position m.kind m.amount) h (by simp [Token.readAt]; omega)
      rw [Mark.total_cons, ← Int.add_assoc]
      exact ih hrun fun k hk => hls k (List.mem_cons_of_mem m hk)

/-! ### Groups -/

theorem absorbing_close (f : Folder) (t : Token) : (f.close optimize t).absorbing = false := by
  unfold close
  split
  · split <;> rfl
  · rfl

/-- The tail of a loop is put on the stack of marks. -/
theorem marks_close (hopen : ∀ s ∈ f.tokens, s.kind = .loopOpen → s.delta = 0)
    (ht : t.kind = .loopClose) : (f.close true t).marks = put f.marks t.mark := by
  obtain ⟨tokens, absorbing⟩ := f
  match tokens with
  | [] | [_] => rfl
  | body :: head :: rest =>
    simp only [close, marks, put, List.map_cons]
    by_cases hclear : head.kind = .loopOpen ∧ body.kind = .add ∧ body.delta.natAbs = 1
    · have hclears : Mark.Clears head.mark body.mark t.mark :=
        ⟨hclear.1, hclear.2.1, hclear.2.2, ht⟩
      have hdelta : head.delta = 0 := hopen head (by simp) hclear.1
      rw [if_pos hclear, if_pos hclears]
      simp [Token.mark, hdelta]
    · have hclears : ¬Mark.Clears head.mark body.mark t.mark :=
        fun h => hclear ⟨h.1, h.2.1, h.2.2.1⟩
      rw [if_neg hclear, if_neg hclears]
      rfl

/-- A token without an amount has none on the stack either. -/
theorem DrawnFrom.delta_eq (h : f.DrawnFrom ls) :
    ∀ s ∈ f.tokens, s.kind = .loopOpen → s.delta = 0 := by
  intro s hs hkind
  obtain ⟨l, hread⟩ := h.exists_readFrom hs
  exact hread.delta_eq (by rw [hkind]; rfl)

theorem foldl_read_of_mark?_eq_none (h : ∀ l ∈ ls, l.mark? = none) :
    ls.foldl (read optimize) f = f := by
  induction ls with
  | nil => rfl
  | cons l ls ih =>
    rw [List.foldl_cons, read_of_mark?_eq_none (h l List.mem_cons_self)]
    exact ih fun k hk => h k (List.mem_cons_of_mem l hk)

/-- **Reading a group** puts the mark of the group on the stack. What does not belong to the group
is not absorbed behind it. -/
theorem marks_foldl_read_group (hopen : ∀ s ∈ f.tokens, s.kind = .loopOpen → s.delta = 0)
    (hls : ls.filterMap Lexeme.mark? = m :: ms) (hgroup : (m :: ms).IsChain (joins · ·))
    (hbars : f.Bars m.kind) :
    (ls.foldl (read true) f).marks = (Mark.ofGroup? (m :: ms)).toList.foldl put f.marks ∧
      ∀ k, joins m k = false → (ls.foldl (read true) f).Bars k.kind := by
  obtain ⟨blank, l, rest, rfl, hblank, hmark, hrest⟩ := List.filterMap_eq_cons_iff.mp hls
  rw [List.foldl_append, foldl_read_of_mark?_eq_none hblank, List.foldl_cons, read_of_mark? hmark]
  cases hkind : m.kind.isFoldable with
  | true =>
    have hkinds : ∀ k ∈ rest.filterMap Lexeme.mark?, k.kind = m.kind := by
      rw [hrest]
      exact fun k hk => Mark.kind_eq_of_isChain hgroup k (List.mem_cons_of_mem m hk)
    have hamount : m.amount ≠ 0 := by
      have hone := Mark.natAbs_of_ofChar? hmark hkind
      omega
    have hruns : (rest.foldl (read true) (f.run true (.readAt l.position m.kind m.amount))).Runs
        m.kind (Mark.total (m :: ms)) f.marks := by
      rw [← hrest]
      exact (runs_of_bars (t := .readAt l.position m.kind m.amount) hbars hamount).foldl_read hkind
        hkinds
    rw [if_pos rfl]
    refine ⟨hruns.marks_eq.trans ?_, fun k hk => hruns.bars fun heq => ?_⟩
    · rw [Mark.ofGroup?, if_pos hkind]
      split
      · rfl
      · refine (Mark.put_of_kind_ne ?_).symm
        rintro hclose
        rw [hclose] at hkind
        cases hkind
    · simp [joins, hkind, heq] at hk
  | false =>
    obtain rfl : ms = [] := by
      cases ms with
      | nil => rfl
      | cons k ms =>
        have hjoins := (List.isChain_cons_cons.mp hgroup).1
        simp [joins, hkind] at hjoins
    have hblank' : ∀ k ∈ rest, k.mark? = none := List.filterMap_eq_nil_iff.mp hrest
    rw [foldl_read_of_mark?_eq_none hblank', if_neg (by simp), Mark.ofGroup?, hkind]
    split
    · rename_i hclose
      exact ⟨marks_close hopen hclose,
        fun k _ => bars_of_absorbing_eq_false (absorbing_close f _) k.kind⟩
    · rename_i hclose
      exact ⟨(Mark.put_of_kind_ne hclose).symm, fun k _ => bars_of_absorbing_eq_false rfl k.kind⟩

/-- **Reading group after group** puts their marks on the stack. -/
theorem marks_foldl_read_groups {gs : List (List Mark)} {past : List Lexeme}
    (hdrawn : f.DrawnFrom past) (hls : ls.filterMap Lexeme.mark? = gs.flatten) (hne : [] ∉ gs)
    (hgroups : ∀ g ∈ gs, g.IsChain (joins · ·))
    (hparts : gs.IsChain fun g h => ∃ hg hh, joins (g.getLast hg) (h.head hh) = false)
    (hbars : ∀ m ∈ gs.flatten.head?, f.Bars m.kind) :
    (ls.foldl (read true) f).marks = (gs.filterMap Mark.ofGroup?).foldl put f.marks := by
  induction gs generalizing f ls past with
  | nil => rw [foldl_read_of_mark?_eq_none (List.filterMap_eq_nil_iff.mp hls)]; rfl
  | cons g gs ih =>
    obtain ⟨m, ms, rfl⟩ := List.exists_cons_of_ne_nil fun h : g = [] => hne (h ▸ List.mem_cons_self)
    obtain ⟨us, vs, rfl, hus, hvs⟩ := List.filterMap_eq_append_iff.mp hls
    have hgroup := hgroups _ List.mem_cons_self
    obtain ⟨hmarks, hbehind⟩ :=
      marks_foldl_read_group hdrawn.delta_eq hus hgroup (hbars m (by simp))
    have hnext : ∀ k ∈ gs.flatten.head?, (us.foldl (read true) f).Bars k.kind := by
      -- the next group begins with a mark that is not joined to the last mark of this group
      intro k hk
      refine hbehind k ?_
      cases gs with
      | nil => simp at hk
      | cons h gs =>
        obtain ⟨_, hh, hparted⟩ := (List.isChain_cons_cons.mp hparts).1
        obtain ⟨k', h, rfl⟩ := List.exists_cons_of_ne_nil hh
        obtain rfl : k' = k := by simpa using hk
        have hlast := Mark.kind_eq_of_isChain hgroup _ (List.getLast_mem (List.cons_ne_nil m ms))
        rwa [joins, hlast] at hparted
    rw [List.foldl_append, ih (hdrawn.foldl_read true us) hvs
      (fun h => hne (List.mem_cons_of_mem _ h)) (fun h hh => hgroups h (List.mem_cons_of_mem _ hh))
      hparts.tail hnext, hmarks, ← List.foldl_append]
    congr 1
    cases hgroup : Mark.ofGroup? (m :: ms) <;> simp [hgroup]

/-- **Folding is done by the passes.** -/
theorem reverse_marks_foldl_read (ls : List Lexeme) :
    (ls.foldl (read true) {}).marks.reverse =
      Mark.clear (Mark.joinRuns (ls.filterMap Lexeme.mark?)) := by
  have hempty : DrawnFrom {} [] := ⟨[], .nil, .slnil⟩
  rw [Mark.clear_eq_foldl, Mark.joinRuns]
  refine congrArg List.reverse (marks_foldl_read_groups hempty ?_ ?_ ?_ ?_ ?_)
  · rw [List.flatten_splitBy]
  · exact List.nil_notMem_splitBy joins _
  · exact fun g hg => List.isChain_of_mem_splitBy hg
  · exact List.isChain_getLast_head_splitBy joins _
  · exact fun m _ => bars_of_absorbing_eq_false rfl m.kind

end Folder

namespace Program

variable {p : Program} {source : String}

/-- The marks of a source that is read with folding. -/
theorem marks_of_ofSource_true (h : ofSource source true = .ok p) :
    p.marks = Mark.framed (Mark.clear (Mark.joinRuns (Mark.ofText source.toList))) := by
  rw [marks_of_ofSource h, Token.ofLexemes, List.map_reverse, ← Lexeme.filterMap_mark?_scan,
    ← Folder.reverse_marks_foldl_read]
  rfl

/-- **Folding is done in passes.** A source with balanced brackets is read with folding as the
program whose kinds and amounts are those of three passes: take the marks of the significant
characters, give every maximal group of a run its net amount and drop it if that is zero, and
replace every clearing loop by a `zero`. The frame is put around them, and the partner of a token is
the index of the bracket that matches it. -/
theorem ofSource_eq_passes (h : Balanced source.toList) :
    ∃ p, ofSource source true = .ok p ∧
      p.marks = Mark.framed (Mark.clear (Mark.joinRuns (Mark.ofText source.toList))) ∧
      ∀ i j, (p.tokenAt i).partner = some j ↔ Mates p.kinds i j := by
  obtain ⟨p, hp⟩ := exists_ofSource_of_balanced h true
  exact ⟨p, hp, marks_of_ofSource_true hp, fun i j => partner_eq_some_iff hp⟩

/-- Two moves that a cancelled run keeps apart, a loop that clears a cell only after what stands in
it is cancelled, and a loop that does not. -/
def tangled : String := ">+-> [+ <> ] [-+-- x] ++"

theorem ofSource_eq_passes_tangled :
    Balanced tangled.toList ∧ ∃ p, ofSource tangled true = .ok p ∧
      p.marks = [{ kind := .start }, { kind := .shift, amount := 1 },
        { kind := .shift, amount := 1 }, { kind := .zero }, { kind := .loopOpen },
        { kind := .add, amount := -2 }, { kind := .loopClose }, { kind := .add, amount := 2 },
        { kind := .finish }] ∧
      (p.tokenAt 4).partner = some 6 := by
  have hbalanced : Balanced tangled.toList := by
    by_contra hnot
    obtain ⟨i, c, -, -, herror⟩ := exists_ofSource_of_not_balanced hnot true
    have hload : ∃ p, ofSource tangled true = .ok p := ⟨_, rfl⟩
    rw [herror] at hload
    simp at hload
  obtain ⟨p, hp, hmarks, hpartner⟩ := ofSource_eq_passes hbalanced
  have hpasses : Mark.framed (Mark.clear (Mark.joinRuns (Mark.ofText tangled.toList))) =
      [{ kind := .start }, { kind := .shift, amount := 1 }, { kind := .shift, amount := 1 },
        { kind := .zero }, { kind := .loopOpen }, { kind := .add, amount := -2 },
        { kind := .loopClose }, { kind := .add, amount := 2 }, { kind := .finish }] := by
    decide +kernel
  have hinner : Balanced [Kind.add] := (Brackets.balanced_cons_iff rfl).mpr Brackets.balanced_nil
  refine ⟨hbalanced, p, hp, hmarks.trans hpasses, (hpartner 4 6).mpr (.inl ?_)⟩
  rw [← map_kind_marks, hmarks, hpasses]
  exact ⟨[.start, .shift, .shift, .zero], .loopOpen, [.add], .loopClose, [.add, .finish], rfl, rfl,
    rfl, rfl, rfl, hinner⟩

end Program

end ReversibleTape
