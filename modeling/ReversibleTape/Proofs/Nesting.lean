import ReversibleTape.Program.Defect

/-!
# Loops of well-formed programs

`Program.validate` looks at the tokens from left to right and keeps the heads of the loops that
are open. Nothing is checked when the last token has been passed, and each link is looked at on
its own. That is enough all the same: in a well-formed program the frame stands at the two ends
and nowhere else, **every head has a tail and every tail a head** (`Program.Link`), and **two
loops are either apart or one inside the other** (`Program.WellFormed.tail_lt_tail`).

`Program.openHeads p i` is the stack of the check in front of index `i`. The proof of nesting
rests on one description of it: it holds the heads before `i` whose tail does not lie before
`i`, latest first (`Program.WellFormed.mem_openHeads`,
`Program.WellFormed.pairwise_openHeads`).
-/

namespace ReversibleTape

namespace Program

variable {p : Program} {i j o c o' c' : Nat}

/-! ### Access by index -/

/-- A token within the program is found at its index. -/
theorem tokenAt_eq_getElem (h : i < p.size) : p.tokenAt i = p.tokens[i] := by
  rw [tokenAt, Array.getD_eq_getD_getElem?, Array.getElem?_eq_getElem h, Option.getD_some]

theorem tokens_getElem? (h : i < p.size) : p.tokens[i]? = some (p.tokenAt i) := by
  rw [tokenAt_eq_getElem h]
  exact Array.getElem?_eq_getElem h

/-- Beyond the end there is nothing but the frame. -/
theorem kindAt_of_size_le (h : p.size ≤ i) : p.kindAt i = .finish := by
  rw [kindAt, tokenAt, Array.getD_eq_getD_getElem?, Array.getElem?_eq_none h]
  rfl

/-- A token that is not of the closing frame lies within the program. -/
theorem lt_size_of_kindAt (h : p.kindAt i ≠ .finish) : i < p.size :=
  Nat.lt_of_not_le fun hle => h (kindAt_of_size_le hle)

/-- The tokens from an index on begin with the token at that index. -/
theorem drop_tokens_eq_cons (h : i < p.size) :
    p.tokens.toList.drop i = p.tokenAt i :: p.tokens.toList.drop (i + 1) := by
  rw [tokenAt_eq_getElem h, List.drop_eq_getElem_cons (by simpa [size] using h)]
  rfl

/-! ### Links -/

/-- The tokens at `o` and `c` are the head and the tail of one loop. -/
structure Link (p : Program) (o c : Nat) : Prop where
  kind_head : p.kindAt o = .loopOpen
  kind_tail : p.kindAt c = .loopClose
  partner_head : (p.tokenAt o).partner = some c
  partner_tail : (p.tokenAt c).partner = some o
  lt : o < c

/-- A head has one tail. -/
theorem Link.tail_unique (h : p.Link o c) (h' : p.Link o c') : c = c' :=
  Option.some.inj (h.partner_head.symm.trans h'.partner_head)

/-- A tail has one head. -/
theorem Link.head_unique (h : p.Link o c) (h' : p.Link o' c) : o = o' :=
  Option.some.inj (h.partner_tail.symm.trans h'.partner_tail)

/-- No index is the head of one loop and the tail of another. -/
theorem Link.head_ne_tail (h : p.Link o c) (h' : p.Link o' c') : o ≠ c' := by
  rintro rfl
  exact absurd (h.kind_head.symm.trans h'.kind_tail) (by decide)

/-- A link that passes the check leads to the other end of a loop. -/
theorem mate_of_checkLink {t : Token} (h : p.checkLink i t = .ok j) :
    t.partner = some j ∧ (p.tokenAt j).partner = some i ∧
      if t.kind = .loopOpen then p.kindAt j = .loopClose ∧ i < j
      else p.kindAt j = .loopOpen ∧ j < i := by
  unfold checkLink at h
  split at h
  · cases h
  · rename_i k hpartner
    split at h
    · cases h
    · rename_i mate hmate
      have htoken : p.tokenAt k = mate := by
        rw [tokenAt, Array.getD_eq_getD_getElem?, hmate, Option.getD_some]
      by_cases hkind : t.kind = .loopOpen
      all_goals
        simp only [hkind, if_true, if_false] at h ⊢
        split at h
        · cases h
        · rename_i hfits
          split at h
          · cases h
          · rename_i hmutual
            cases h
            have hback : mate.partner = some i := Classical.not_not.mp hmutual
            refine ⟨hpartner, htoken ▸ hback, ?_⟩
            simpa [kindAt, htoken] using hfits

/-- **One token.** What it takes to pass, and the stack behind it, by the kind of the token. -/
theorem checkToken_eq_ok_iff {t : Token} {heads heads' : List Nat} :
    p.checkToken heads i t = .ok heads' ↔
      match t.kind with
      | .start | .finish => (i = 0 ∨ i = p.endIndex) ∧ heads = heads'
      | .add | .shift => t.delta ≠ 0 ∧ heads = heads'
      | .loopOpen => (∃ c, p.checkLink i t = .ok c) ∧ i :: heads = heads'
      | .loopClose => ∃ o, p.checkLink i t = .ok o ∧ heads = o :: heads'
      | .output | .input | .zero => heads = heads' := by
  unfold checkToken
  cases t.kind with
  | start | finish =>
    by_cases hi : i ≠ 0 ∧ i ≠ p.endIndex
    · simp [hi]
    · have heq : i = 0 ∨ i = p.endIndex := by omega
      rw [if_neg hi]
      simp [heq]
  | add | shift => by_cases hdelta : t.delta = 0 <;> simp [hdelta]
  | loopOpen => cases p.checkLink i t <;> simp
  | loopClose =>
    cases p.checkLink i t with
    | error d => simp
    | ok o =>
      cases heads with
      | nil => simp
      | cons head heads => by_cases heq : head = o <;> simp [heq]
  | output | input | zero => simp

/-! ### The check as a sequence of stacks -/

/-- The heads of the loops that the check holds open in front of an index, latest first. -/
def openHeads (p : Program) : Nat → List Nat
  | 0 => []
  | i + 1 =>
    match p.checkToken (p.openHeads i) i (p.tokenAt i) with
    | .ok heads => heads
    | .error _ => p.openHeads i

/-- A check that goes well passes its first token and goes on behind it. -/
theorem checkFrom_cons_eq_ok_iff {t : Token} {rest : List Token} {heads : List Nat} :
    p.checkFrom (t :: rest) i heads = .ok () ↔
      ∃ heads', p.checkToken heads i t = .ok heads' ∧ p.checkFrom rest (i + 1) heads' = .ok () := by
  rw [checkFrom]
  cases hcheck : p.checkToken heads i t <;> simp

/-- The frame is in place and all tokens pass. -/
theorem wellFormed_iff :
    p.WellFormed ↔ 2 ≤ p.size ∧ p.kindAt 0 = .start ∧ p.kindAt p.endIndex = .finish ∧
      p.checkFrom p.tokens.toList 0 [] = .ok () := by
  unfold WellFormed validate
  by_cases hsize : p.size < 2
  · have hnot : ¬2 ≤ p.size := by omega
    simp [hsize, hnot]
  · have hle : 2 ≤ p.size := by omega
    by_cases hstart : p.kindAt 0 = .start
    · by_cases hfinish : p.kindAt p.endIndex = .finish <;> simp [hsize, hle, hstart, hfinish]
    · simp [hsize, hstart]

namespace WellFormed

theorem endIndex_pos (hp : p.WellFormed) : 0 < p.endIndex := by
  have hsize := (wellFormed_iff.mp hp).1
  rw [endIndex]
  omega

theorem endIndex_lt_size (hp : p.WellFormed) : p.endIndex < p.size := by
  have hsize := (wellFormed_iff.mp hp).1
  rw [endIndex]
  omega

theorem kindAt_zero (hp : p.WellFormed) : p.kindAt 0 = .start := (wellFormed_iff.mp hp).2.1

theorem kindAt_endIndex (hp : p.WellFormed) : p.kindAt p.endIndex = .finish :=
  (wellFormed_iff.mp hp).2.2.1

/-- The rest of the check goes well from every index on, with the heads open there. -/
theorem checkFrom_openHeads (hp : p.WellFormed) (hi : i ≤ p.size) :
    p.checkFrom (p.tokens.toList.drop i) i (p.openHeads i) = .ok () := by
  induction i with
  | zero => exact (wellFormed_iff.mp hp).2.2.2
  | succ i ih =>
    have hcheck := ih (by omega)
    rw [drop_tokens_eq_cons hi, checkFrom_cons_eq_ok_iff] at hcheck
    obtain ⟨heads, htoken, hrest⟩ := hcheck
    rwa [openHeads, htoken]

/-- Every token passes, with the heads open in front of it and behind it. -/
theorem checkToken_openHeads (hp : p.WellFormed) (hi : i < p.size) :
    p.checkToken (p.openHeads i) i (p.tokenAt i) = .ok (p.openHeads (i + 1)) := by
  have hcheck := hp.checkFrom_openHeads (Nat.le_of_lt hi)
  rw [drop_tokens_eq_cons hi, checkFrom_cons_eq_ok_iff] at hcheck
  obtain ⟨heads, htoken, -⟩ := hcheck
  rw [htoken, openHeads, htoken]

/-! ### Single tokens -/

/-- The frame stands nowhere but at the two ends. -/
theorem kindAt_inner (hp : p.WellFormed) (hpos : 0 < i) (hi : i < p.endIndex) :
    p.kindAt i ≠ .start ∧ p.kindAt i ≠ .finish := by
  have hcheck := checkToken_eq_ok_iff.mp
    (hp.checkToken_openHeads (Nat.lt_trans hi hp.endIndex_lt_size))
  constructor
  all_goals
    intro hkind
    rw [show (p.tokenAt i).kind = _ from hkind] at hcheck
    simp only at hcheck
    omega

/-- Additions and moves have an amount. -/
theorem delta_ne_zero (hp : p.WellFormed) (hkind : p.kindAt i = .add ∨ p.kindAt i = .shift) :
    (p.tokenAt i).delta ≠ 0 := by
  have hlt : i < p.size := lt_size_of_kindAt (by rcases hkind with h | h <;> simp [h])
  have hcheck := checkToken_eq_ok_iff.mp (hp.checkToken_openHeads hlt)
  rcases hkind with hkind | hkind
  all_goals
    rw [show (p.tokenAt i).kind = _ from hkind] at hcheck
    exact hcheck.1

/-- Every head of a loop has a tail, and is put on the stack. -/
theorem link_of_head (hp : p.WellFormed) (hkind : p.kindAt o = .loopOpen) :
    ∃ c, p.Link o c ∧ p.openHeads (o + 1) = o :: p.openHeads o := by
  have hlt : o < p.size := lt_size_of_kindAt (by simp [hkind])
  have hcheck := checkToken_eq_ok_iff.mp (hp.checkToken_openHeads hlt)
  have hkind' : (p.tokenAt o).kind = .loopOpen := hkind
  rw [hkind'] at hcheck
  obtain ⟨⟨c, hlink⟩, hheads⟩ := hcheck
  obtain ⟨hpartner, hback, hmate⟩ := mate_of_checkLink hlink
  rw [if_pos hkind'] at hmate
  exact ⟨c, ⟨hkind, hmate.1, hpartner, hback, hmate.2⟩, hheads.symm⟩

/-- Every tail of a loop has a head, which is on top of the stack. -/
theorem link_of_tail (hp : p.WellFormed) (hkind : p.kindAt c = .loopClose) :
    ∃ o, p.Link o c ∧ p.openHeads c = o :: p.openHeads (c + 1) := by
  have hlt : c < p.size := lt_size_of_kindAt (by simp [hkind])
  have hcheck := checkToken_eq_ok_iff.mp (hp.checkToken_openHeads hlt)
  have hkind' : (p.tokenAt c).kind = .loopClose := hkind
  rw [hkind'] at hcheck
  obtain ⟨o, hlink, hheads⟩ := hcheck
  obtain ⟨hpartner, hback, hmate⟩ := mate_of_checkLink hlink
  rw [if_neg (by simp [hkind'])] at hmate
  exact ⟨o, ⟨hmate.1, hkind, hback, hpartner, hmate.2⟩, hheads⟩

/-- A token that is no end of a loop leaves the stack alone. -/
theorem openHeads_succ (hp : p.WellFormed) (hi : i < p.size) (hhead : p.kindAt i ≠ .loopOpen)
    (htail : p.kindAt i ≠ .loopClose) : p.openHeads (i + 1) = p.openHeads i := by
  have hcheck := checkToken_eq_ok_iff.mp (hp.checkToken_openHeads hi)
  rw [kindAt] at hhead htail
  cases hkind : (p.tokenAt i).kind with
  | start | finish | add | shift =>
    rw [hkind] at hcheck
    exact hcheck.2.symm
  | loopOpen => exact absurd hkind hhead
  | loopClose => exact absurd hkind htail
  | output | input | zero =>
    rw [hkind] at hcheck
    exact hcheck.symm

/-- A loop ends before the frame does. -/
theorem tail_lt_endIndex (hp : p.WellFormed) (h : p.Link o c) : c < p.endIndex := by
  have hlt : c < p.size := lt_size_of_kindAt (by simp [h.kind_tail])
  have hne : c ≠ p.endIndex := by
    rintro rfl
    exact absurd (h.kind_tail.symm.trans hp.kindAt_endIndex) (by decide)
  rw [endIndex] at hne ⊢
  omega

/-- A loop begins behind the frame. -/
theorem head_pos (hp : p.WellFormed) (h : p.Link o c) : 0 < o := by
  refine Nat.pos_of_ne_zero ?_
  rintro rfl
  exact absurd (h.kind_head.symm.trans hp.kindAt_zero) (by decide)

/-! ### Nesting -/

/-- The stack holds later heads above earlier ones, and all of them are passed. -/
theorem pairwise_openHeads (hp : p.WellFormed) (hi : i ≤ p.size) :
    (p.openHeads i).Pairwise (· > ·) ∧ ∀ o ∈ p.openHeads i, o < i := by
  induction i with
  | zero => simp [openHeads]
  | succ i ih =>
    obtain ⟨hpairwise, hlt⟩ := ih (by omega)
    by_cases hhead : p.kindAt i = .loopOpen
    · obtain ⟨c, -, hheads⟩ := hp.link_of_head hhead
      rw [hheads]
      refine ⟨List.pairwise_cons.mpr ⟨hlt, hpairwise⟩, fun o ho => ?_⟩
      rcases List.mem_cons.mp ho with rfl | ho
      · omega
      · exact Nat.lt_succ_of_lt (hlt o ho)
    · by_cases htail : p.kindAt i = .loopClose
      · obtain ⟨o, -, hheads⟩ := hp.link_of_tail htail
        rw [hheads] at hpairwise hlt
        exact ⟨(List.pairwise_cons.mp hpairwise).2,
          fun o ho => Nat.lt_succ_of_lt (hlt o (List.mem_cons_of_mem _ ho))⟩
      · rw [hp.openHeads_succ hi hhead htail]
        exact ⟨hpairwise, fun o ho => Nat.lt_succ_of_lt (hlt o ho)⟩

/-- A head that is passed stays on the stack until its tail is passed. -/
theorem mem_openHeads (hp : p.WellFormed) (h : p.Link o c) (hoi : o < i) (hic : i ≤ c) :
    o ∈ p.openHeads i := by
  have hc := Nat.lt_trans (hp.tail_lt_endIndex h) hp.endIndex_lt_size
  induction i with
  | zero => omega
  | succ i ih =>
    by_cases hio : i = o
    · subst hio
      obtain ⟨c', -, hheads⟩ := hp.link_of_head h.kind_head
      simp [hheads]
    · have hmem := ih (by omega) (by omega)
      by_cases hhead : p.kindAt i = .loopOpen
      · obtain ⟨c', -, hheads⟩ := hp.link_of_head hhead
        rw [hheads]
        exact List.mem_cons_of_mem _ hmem
      · by_cases htail : p.kindAt i = .loopClose
        · -- the tail that is passed belongs to another head, so `o` is not the one taken off
          obtain ⟨o', hlink, hheads⟩ := hp.link_of_tail htail
          rw [hheads] at hmem
          rcases List.mem_cons.mp hmem with rfl | hmem
          · exact absurd (h.tail_unique hlink) (by omega)
          · exact hmem
        · rwa [hp.openHeads_succ (by omega) hhead htail]

/-- **Nesting.** A loop that begins inside another one ends inside it. -/
theorem tail_lt_tail (hp : p.WellFormed) (h : p.Link o c) (h' : p.Link o' c') (hlt : o < o')
    (hlt' : o' < c) : c' < c := by
  have hc := Nat.lt_trans (hp.tail_lt_endIndex h) hp.endIndex_lt_size
  obtain ⟨o₁, hlink, htop⟩ := hp.link_of_tail h.kind_tail
  obtain rfl : o = o₁ := h.head_unique hlink
  -- otherwise the inner head would still be on the stack, and above the outer one
  refine Nat.lt_of_not_le fun hle => ?_
  have hmem := hp.mem_openHeads h' hlt' hle
  have hpairwise := (hp.pairwise_openHeads (Nat.le_of_lt hc)).1
  rw [htop] at hmem hpairwise
  rcases List.mem_cons.mp hmem with rfl | hmem
  · exact Nat.lt_irrefl _ hlt
  · exact Nat.lt_asymm hlt ((List.pairwise_cons.mp hpairwise).1 o' hmem)

end WellFormed

end Program

end ReversibleTape
