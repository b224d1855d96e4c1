import ReversibleTape.Proofs.Nesting

/-!
# Structured code

A program is a flat sequence of tokens with jumps. `Code` is the same thing as a tree, in which a
loop holds its body, and `Program.code` is **the tree that the links of a program describe**.

`Program.Spells p i code j` says that the tokens of `p` from index `i` up to index `j` are the
code `code`. Trees that differ in how sequences are bracketed may be spelled by the same tokens,
and statements about runs hold for each of them. Well-formed programs are exactly the framed
programs that spell some code (`Program.WellFormed.spells_code`, `Program.wellFormed_of_spells`).
-/

namespace ReversibleTape

/-! ### Instructions and code -/

/-- An instruction that is not a part of a loop. -/
inductive Instr
  | add (delta : Int)
  | shift (delta : Int)
  | output
  | input
  | zero
  deriving DecidableEq

/-- The instruction of a token, if it is one by itself; amounts of nothing are not admitted. -/
def Token.instr? (t : Token) : Option Instr :=
  match t.kind with
  | .add => if t.delta = 0 then none else some (.add t.delta)
  | .shift => if t.delta = 0 then none else some (.shift t.delta)
  | .output => some .output
  | .input => some .input
  | .zero => some .zero
  | .start | .loopOpen | .loopClose | .finish => none

theorem Token.instr?_eq_some_iff {t : Token} {x : Instr} :
    t.instr? = some x ↔
      match x with
      | .add delta => t.kind = .add ∧ t.delta = delta ∧ delta ≠ 0
      | .shift delta => t.kind = .shift ∧ t.delta = delta ∧ delta ≠ 0
      | .output => t.kind = .output
      | .input => t.kind = .input
      | .zero => t.kind = .zero := by
  unfold instr?
  cases hkind : t.kind <;> cases x <;> simp <;> grind

/-- Structured code. -/
inductive Code
  | skip
  | instr (x : Instr)
  | seq (first second : Code)
  | loop (body : Code)
  deriving DecidableEq

namespace Program

variable {p : Program} {i j o c : Nat}

/-- The tree of the tokens from index `i` up to index `j`, read off the links. -/
def codeBetween (p : Program) (i j : Nat) : Code :=
  if i < j then
    match (p.tokenAt i).instr?, (p.tokenAt i).partner with
    | some x, _ => .seq (.instr x) (p.codeBetween (i + 1) j)
    | none, some c =>
      if i < c ∧ c < j then .seq (.loop (p.codeBetween (i + 1) c)) (p.codeBetween (c + 1) j)
      else .skip
    | none, none => .skip
  else .skip
termination_by j - i

/-- **The instruction tree** that the links of a program describe. -/
def code (p : Program) : Code := p.codeBetween 1 p.endIndex

/-! ### Spelling -/

/-- The tokens from the first index up to the second are the layout of the code. -/
inductive Spells (p : Program) : Nat → Code → Nat → Prop
  | skip (i : Nat) : Spells p i .skip i
  | instr {i : Nat} {x : Instr} (token : (p.tokenAt i).instr? = some x) :
      Spells p i (.instr x) (i + 1)
  | seq {i j k : Nat} {a b : Code} (first : Spells p i a j) (second : Spells p j b k) :
      Spells p i (.seq a b) k
  | loop {o c : Nat} {body : Code} (link : p.Link o c) (inner : Spells p (o + 1) body c) :
      Spells p o (.loop body) (c + 1)

theorem kindAt_of_instr? {x : Instr} (h : (p.tokenAt i).instr? = some x) :
    p.kindAt i ≠ .start ∧ p.kindAt i ≠ .loopOpen ∧ p.kindAt i ≠ .loopClose ∧
      p.kindAt i ≠ .finish := by
  refine ⟨?_, ?_, ?_, ?_⟩
  all_goals
    intro hkind
    rw [kindAt] at hkind
    simp [Token.instr?, hkind] at h

/-- Every loop lies between `i` and `j` as a whole or not at all. -/
def Closed (p : Program) (i j : Nat) : Prop :=
  ∀ {o c}, p.Link o c → (i ≤ o ∧ o < j ↔ i ≤ c ∧ c < j)

namespace WellFormed

/-- The whole program is closed. -/
theorem closed (hp : p.WellFormed) : p.Closed 1 p.endIndex := fun hlink => by
  have hpos := hp.head_pos hlink
  have hlt := hlink.lt
  have htail := hp.tail_lt_endIndex hlink
  omega

/-- The body of a loop is closed. -/
theorem closed_body (hp : p.WellFormed) (hlink : p.Link o c) : p.Closed (o + 1) c := by
  intro o' c' hlink'
  by_cases hne : o' = o
  · subst hne
    obtain rfl := hlink.tail_unique hlink'
    omega
  · have hlt' := hlink'.lt
    have hinner : o < o' → o' < c → c' < c := hp.tail_lt_tail hlink hlink'
    have houter : o' < o → o < c' → c < c' := hp.tail_lt_tail hlink' hlink
    have hoc := hlink.head_ne_tail hlink'
    omega

/-- What follows a loop is closed. -/
theorem closed_rest (hp : p.WellFormed) (hclosed : p.Closed o j) (hlink : p.Link o c) :
    p.Closed (c + 1) j := by
  intro o' c' hlink'
  have hbody := hp.closed_body hlink hlink'
  have hall := hclosed hlink'
  have hlt := hlink.lt
  have hlt' := hlink'.lt
  by_cases hne : o' = o
  · subst hne
    obtain rfl := hlink.tail_unique hlink'
    omega
  · have hc : c' ≠ c := by
      rintro rfl
      exact hne (hlink'.head_unique hlink)
    have hoc := hlink'.head_ne_tail hlink
    omega

/-- A token between the frame that is no end of a loop is an instruction. -/
theorem exists_instr? (hp : p.WellFormed) (hpos : 0 < i) (hi : i < p.endIndex)
    (hhead : p.kindAt i ≠ .loopOpen) (htail : p.kindAt i ≠ .loopClose) :
    ∃ x, (p.tokenAt i).instr? = some x := by
  obtain ⟨hstart, hfinish⟩ := hp.kindAt_inner hpos hi
  have hdelta := hp.delta_ne_zero (i := i)
  rw [kindAt] at hhead htail hstart hfinish hdelta
  cases hkind : (p.tokenAt i).kind with
  | add => exact ⟨.add (p.tokenAt i).delta, by simp [Token.instr?, hkind, hdelta (.inl hkind)]⟩
  | shift =>
    exact ⟨.shift (p.tokenAt i).delta, by simp [Token.instr?, hkind, hdelta (.inr hkind)]⟩
  | output => exact ⟨.output, by simp [Token.instr?, hkind]⟩
  | input => exact ⟨.input, by simp [Token.instr?, hkind]⟩
  | zero => exact ⟨.zero, by simp [Token.instr?, hkind]⟩
  | start => exact absurd hkind hstart
  | loopOpen => exact absurd hkind hhead
  | loopClose => exact absurd hkind htail
  | finish => exact absurd hkind hfinish

/-- Every closed part of a program spells its tree. -/
theorem spells_codeBetween (hp : p.WellFormed) (hpos : 0 < i) (hij : i ≤ j)
    (hj : j ≤ p.endIndex) (hclosed : p.Closed i j) : p.Spells i (p.codeBetween i j) j := by
  -- the induction is on the number of tokens; a loop splits the part in its body and its rest
  induction hn : j - i using Nat.strongRecOn generalizing i j with
  | ind n ih =>
    rw [codeBetween]
    rcases Nat.lt_or_eq_of_le hij with hlt | rfl
    · rw [if_pos hlt]
      by_cases hhead : p.kindAt i = .loopOpen
      · obtain ⟨c, hlink, -⟩ := hp.link_of_head hhead
        have hic := hlink.lt
        have hcj := ((hclosed hlink).mp ⟨Nat.le_refl i, hlt⟩).2
        have hnone : (p.tokenAt i).instr? = none := by
          rw [kindAt] at hhead
          simp [Token.instr?, hhead]
        rw [hnone, hlink.partner_head]
        simp only [hic, hcj, and_self, if_true]
        refine .seq (.loop hlink ?_) ?_
        · exact ih (c - (i + 1)) (by omega) (by omega) (by omega) (by omega)
            (hp.closed_body hlink) rfl
        · exact ih (j - (c + 1)) (by omega) (by omega) (by omega) hj
            (hp.closed_rest hclosed hlink) rfl
      · have htail : p.kindAt i ≠ .loopClose := fun htail => by
          obtain ⟨o, hlink, -⟩ := hp.link_of_tail htail
          have ho := (hclosed hlink).mpr ⟨Nat.le_refl i, hlt⟩
          have hoi := hlink.lt
          omega
        obtain ⟨x, hx⟩ := hp.exists_instr? hpos (by omega) hhead htail
        rw [hx]
        refine .seq (.instr hx) (ih (j - (i + 1)) (by omega) (by omega) hlt hj ?_ rfl)
        intro o' c' hlink'
        have hall := hclosed hlink'
        have ho : i ≠ o' := fun heq => hhead (heq ▸ hlink'.kind_head)
        have hc : i ≠ c' := fun heq => htail (heq ▸ hlink'.kind_tail)
        omega
    · rw [if_neg (Nat.lt_irrefl i)]
      exact .skip i

/-- **A well-formed program spells its instruction tree.** -/
theorem spells_code (hp : p.WellFormed) : p.Spells 1 p.code p.endIndex :=
  hp.spells_codeBetween Nat.one_pos hp.endIndex_pos (Nat.le_refl _) hp.closed

end WellFormed

/-! ### Programs that spell code -/

theorem Spells.le {code : Code} (h : p.Spells i code j) : i ≤ j := by
  induction h with
  | skip => exact Nat.le_refl _
  | instr => exact Nat.le_succ _
  | seq _ _ ih₁ ih₂ => exact Nat.le_trans ih₁ ih₂
  | loop link => exact Nat.le_succ_of_le (Nat.le_of_lt link.lt)

/-- The check of a link that is right leads to the other end, from the head as from the tail. -/
theorem Link.checkLink_eq (h : p.Link o c) :
    p.checkLink o (p.tokenAt o) = .ok c ∧ p.checkLink c (p.tokenAt c) = .ok o := by
  have hhead : (p.tokenAt o).kind = .loopOpen := h.kind_head
  have htail : (p.tokenAt c).kind = .loopClose := h.kind_tail
  have hc : c < p.size := lt_size_of_kindAt (by simp [h.kind_tail])
  have ho : o < p.size := Nat.lt_trans h.lt hc
  constructor
  · simp [checkLink, h.partner_head, tokens_getElem? hc, hhead, htail, h.lt, h.partner_tail]
  · simp [checkLink, h.partner_tail, tokens_getElem? ho, hhead, htail, h.lt, h.partner_head]

/-- The check of a token that passes goes on behind it. -/
theorem checkFrom_drop {heads heads' : List Nat} (hi : i < p.size)
    (h : p.checkToken heads i (p.tokenAt i) = .ok heads') :
    p.checkFrom (p.tokens.toList.drop i) i heads =
      p.checkFrom (p.tokens.toList.drop (i + 1)) (i + 1) heads' := by
  rw [drop_tokens_eq_cons hi, checkFrom, h]

/-- Code passes the check and leaves the open loops as they are. -/
theorem Spells.checkFrom_eq {code : Code} (h : p.Spells i code j) (heads : List Nat) :
    p.checkFrom (p.tokens.toList.drop i) i heads =
      p.checkFrom (p.tokens.toList.drop j) j heads := by
  induction h generalizing heads with
  | skip => rfl
  | @instr i x token =>
    obtain ⟨hstart, hhead, htail, hfinish⟩ := kindAt_of_instr? token
    refine checkFrom_drop (lt_size_of_kindAt hfinish) (checkToken_eq_ok_iff.mpr ?_)
    rw [Token.instr?] at token
    rw [kindAt] at hstart hhead htail hfinish
    cases hkind : (p.tokenAt i).kind <;> simp_all
  | seq _ _ ih₁ ih₂ => rw [ih₁, ih₂]
  | @loop o c body link inner ih =>
    obtain ⟨hcheckHead, hcheckTail⟩ := link.checkLink_eq
    have hhead : (p.tokenAt o).kind = .loopOpen := link.kind_head
    have htail : (p.tokenAt c).kind = .loopClose := link.kind_tail
    have hc : c < p.size := lt_size_of_kindAt (by simp [link.kind_tail])
    have hpass : p.checkToken heads o (p.tokenAt o) = .ok (o :: heads) := by
      rw [checkToken_eq_ok_iff, hhead]
      exact ⟨⟨c, hcheckHead⟩, rfl⟩
    have hpass' : p.checkToken (o :: heads) c (p.tokenAt c) = .ok heads := by
      rw [checkToken_eq_ok_iff, htail]
      exact ⟨o, hcheckTail, rfl⟩
    rw [checkFrom_drop (Nat.lt_trans link.lt hc) hpass, ih, checkFrom_drop hc hpass']

/-- **A framed program that spells code is well formed.** -/
theorem wellFormed_of_spells {code : Code} (hstart : p.kindAt 0 = .start)
    (hfinish : p.kindAt p.endIndex = .finish) (h : p.Spells 1 code p.endIndex) :
    p.WellFormed := by
  have hle := h.le
  have hsize : 2 ≤ p.size := by
    rw [endIndex] at hle
    omega
  have hfirst : p.checkToken [] 0 (p.tokenAt 0) = .ok [] := by
    rw [checkToken_eq_ok_iff, show (p.tokenAt 0).kind = .start from hstart]
    exact ⟨.inl rfl, rfl⟩
  have hlast : p.checkToken [] p.endIndex (p.tokenAt p.endIndex) = .ok [] := by
    rw [checkToken_eq_ok_iff, show (p.tokenAt p.endIndex).kind = .finish from hfinish]
    exact ⟨.inr rfl, rfl⟩
  refine wellFormed_iff.mpr ⟨hsize, hstart, hfinish, ?_⟩
  calc p.checkFrom p.tokens.toList 0 []
      = p.checkFrom (p.tokens.toList.drop 1) 1 [] := checkFrom_drop (i := 0) (by omega) hfirst
    _ = p.checkFrom (p.tokens.toList.drop p.endIndex) p.endIndex [] := h.checkFrom_eq []
    _ = p.checkFrom (p.tokens.toList.drop (p.endIndex + 1)) (p.endIndex + 1) [] :=
        checkFrom_drop (by rw [endIndex]; omega) hlast
    _ = .ok () := by
        rw [List.drop_eq_nil_of_le, checkFrom]
        simp only [Array.length_toList, endIndex, size]
        omega

end Program

end ReversibleTape
