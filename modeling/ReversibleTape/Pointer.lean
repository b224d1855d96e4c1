import ReversibleTape.Word

/-!
# Pointers

A pointer is the index of a cell. `Pointer.shift?` moves it by a signed amount; there are no
cells left of the first, and the pointer has to stay a signed word before and after the move.
`Pointer.shift?_eq_some_iff` says so in one line, and `Pointer.shift?_negate` that a move is
taken back by the opposite amount.
-/

namespace ReversibleTape

namespace Pointer

/-- Moves a pointer by a signed amount, if it can be moved so far. -/
def shift? (pointer : Nat) (delta : Int) : Option Nat :=
  match Word.fit? pointer with
  | none => none
  | some here =>
    match Word.fit? (here + delta) with
    | none => none
    | some there => if 0 ≤ there then some there.toNat else none

/-- A pointer moves exactly when both ends are words and the new one is not negative. -/
theorem shift?_eq_some_iff {pointer moved : Nat} {delta : Int} :
    shift? pointer delta = some moved ↔
      (pointer : Int) ≤ Word.greatest ∧ (pointer : Int) + delta ≤ Word.greatest ∧
        (pointer : Int) + delta = moved := by
  simp only [shift?, Word.fit?, Word.Fits, Word.least, Word.greatest]
  grind

/-- A pointer that is in its range is moved unless it would leave it. -/
theorem shift?_eq_none_iff {pointer : Nat} {delta : Int}
    (h : (pointer : Int) ≤ Word.greatest) :
    shift? pointer delta = none ↔
      ¬(0 ≤ (pointer : Int) + delta ∧ (pointer : Int) + delta ≤ Word.greatest) := by
  constructor
  · rintro hnone ⟨hnonneg, hle⟩
    have hsome : shift? pointer delta = some ((pointer : Int) + delta).toNat :=
      shift?_eq_some_iff.mpr ⟨h, hle, by omega⟩
    simp [hnone] at hsome
  · refine fun hout => Option.eq_none_iff_forall_ne_some.mpr fun moved hmoved => hout ?_
    obtain ⟨-, hle, heq⟩ := shift?_eq_some_iff.mp hmoved
    exact ⟨by omega, hle⟩

/-- A move is taken back by the opposite amount. -/
theorem shift?_negate {pointer moved : Nat} {delta : Int}
    (h : shift? pointer delta = some moved) :
    shift? moved (Word.negate delta) = some pointer := by
  rw [shift?_eq_some_iff] at h ⊢
  simp only [Word.negate, Word.greatest] at h ⊢
  omega

end Pointer

end ReversibleTape
