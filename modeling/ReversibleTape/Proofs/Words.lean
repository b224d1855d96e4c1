import ReversibleTape.Pointer
import ReversibleTape.Proofs.Arithmetic

/-!
# Arithmetic in words

`Cell.add`, `Cell.sub` and `Pointer.shift?` are defined with integers, which have no limits. **Words
are enough for them.** `Cell.addInWords?` and `Cell.subInWords?` follow the same sums one operation
at a time and give up as soon as a result is not a word. They never give up, and what they find is
the sum and the difference (`Cell.addInWords?_eq`, `Cell.subInWords?_eq`). The amount is reduced
before anything else is done with it, so its size does not matter; and even this remainder is found
in words, from one that has the sign of the amount (`Word.remainder?`).

Moves of the pointer are checked in their own definition. The least word has no negation, but **no
move by the least word succeeds**, so what was done can always be taken back.
-/

namespace ReversibleTape

namespace Word

variable {x m : Int}

theorem fit?_of_fits (h : Fits x) : fit? x = some x := if_pos h

/-- No number on the way is too large: a sum or a difference of two cell values is a word. -/
theorem fits_of_natAbs_le (h : x.natAbs ≤ 2 * UInt32.size) : Fits x := by
  have hsize : UInt32.size = 4294967296 := rfl
  simp only [Fits, least, greatest]
  omega

/-- The remainder that is not negative, found in words from the one that has the sign of the
dividend. -/
def remainder? (x m : Int) : Option Int := do
  let r ← fit? (x.tmod m)
  if r < 0 then fit? (r + m) else some r

/-- The remainder by a small divisor can be found. -/
theorem remainder?_eq (hm : 0 < m) (hsmall : m ≤ UInt32.size) (x : Int) :
    remainder? x m = some (x % m) := by
  have hnonneg : 0 ≤ x % m := Int.emod_nonneg x (by omega)
  have hlt : x % m < m := Int.emod_lt_of_pos x hm
  have hsign : x.tmod m = x % m ∨ x.tmod m = x % m - m := by
    rw [Int.tmod_eq_emod]
    split <;> omega
  have hfits : Fits (x.tmod m) := fits_of_natAbs_le (by omega)
  rw [remainder?, fit?_of_fits hfits, Option.bind_eq_bind, Option.bind_some]
  rcases hsign with hsame | hbelow
  · rw [if_neg (by omega), hsame]
  · rw [if_pos (by omega), hbelow, Int.sub_add_cancel]
    exact fit?_of_fits (fits_of_natAbs_le (by omega))

end Word

namespace Cell

variable {width value : UInt32}

/-- The sum modulo the width, found in words. -/
def addInWords? (width value : UInt32) (delta : Int) : Option UInt32 := do
  let reduced ← Word.remainder? delta width.toNat
  let sum ← Word.fit? (value.toNat + reduced)
  let rest ← Word.fit? (sum.tmod width.toNat)
  some (UInt32.ofInt rest)

/-- The difference modulo the width, found in words. -/
def subInWords? (width value : UInt32) (delta : Int) : Option UInt32 := do
  let reduced ← Word.remainder? delta width.toNat
  let difference ← Word.fit? (value.toNat - reduced)
  let rest ← Word.remainder? difference width.toNat
  some (UInt32.ofInt rest)

/-- Nothing is cut off when a number that is reduced modulo a width becomes a cell value. -/
theorem ofInt_emod (hw : 0 < width) (x : Int) :
    UInt32.ofInt (x % width.toNat) = UInt32.ofNat (x % width.toNat).toNat := by
  obtain ⟨hnonneg, hlt⟩ := emod_bounds hw x
  have hwidth := width.toNat_lt
  rw [UInt32.ofInt, Int.emod_eq_of_lt hnonneg (by omega)]

/-- Words are enough to add. -/
theorem addInWords?_eq (hvalue : value < width) (delta : Int) :
    addInWords? width value delta = some (add width value delta) := by
  have hlt := UInt32.lt_iff_toNat_lt.mp hvalue
  have hwidth : width.toNat < UInt32.size := width.toNat_lt
  have hw := width_pos hvalue
  obtain ⟨hnonneg, hreduced⟩ := emod_bounds hw delta
  obtain ⟨hnonneg', hrest⟩ := emod_bounds hw (value.toNat + delta % width.toNat)
  rw [addInWords?, Option.bind_eq_bind, Word.remainder?_eq (by omega) (by omega), Option.bind_some,
    Word.fit?_of_fits (Word.fits_of_natAbs_le (by omega)), Option.bind_some,
    Int.tmod_eq_emod_of_nonneg (by omega),
    Word.fit?_of_fits (Word.fits_of_natAbs_le (by omega)), Option.bind_some, ofInt_emod hw, add]

/-- Words are enough to take away. -/
theorem subInWords?_eq (hvalue : value < width) (delta : Int) :
    subInWords? width value delta = some (sub width value delta) := by
  have hlt := UInt32.lt_iff_toNat_lt.mp hvalue
  have hwidth : width.toNat < UInt32.size := width.toNat_lt
  have hw := width_pos hvalue
  obtain ⟨hnonneg, hreduced⟩ := emod_bounds hw delta
  rw [subInWords?, Option.bind_eq_bind, Word.remainder?_eq (by omega) (by omega), Option.bind_some,
    Word.fit?_of_fits (Word.fits_of_natAbs_le (by omega)), Option.bind_some,
    Word.remainder?_eq (by omega) (by omega), Option.bind_some, ofInt_emod hw, sub]

end Cell

namespace Pointer

/-- A pointer can be moved exactly if both its places are in the range of pointers. -/
theorem isSome_shift?_iff {pointer : Nat} {delta : Int} :
    (shift? pointer delta).isSome ↔
      (pointer : Int) ≤ Word.greatest ∧ 0 ≤ pointer + delta ∧ pointer + delta ≤ Word.greatest := by
  rw [Option.isSome_iff_exists]
  constructor
  · rintro ⟨moved, hmoved⟩
    obtain ⟨hpointer, hle, heq⟩ := shift?_eq_some_iff.mp hmoved
    exact ⟨hpointer, by omega, hle⟩
  · rintro ⟨hpointer, hnonneg, hle⟩
    exact ⟨_, shift?_eq_some_iff.mpr ⟨hpointer, hle, (Int.toNat_of_nonneg hnonneg).symm⟩⟩

end Pointer

/-- **Sums of cells and moves of the pointer are exact and can be taken back.** A sum and a
difference are found in words, are the exact ones modulo the width, and undo each other; amounts are
added one after the other or in one go. A pointer is moved exactly if it is in range before and
after, goes as far as the amount says, and comes back by the negated amount, even though the
negation stops at the greatest word. -/
theorem arithmetic_reversible {width value : UInt32} (hvalue : value < width) (a b : Int)
    (pointer : Nat) (delta : Int) :
    (Cell.addInWords? width value a = some (Cell.add width value a) ∧
      ((Cell.add width value a).toNat : Int) = (value.toNat + a) % width.toNat ∧
      Cell.add width value a < width) ∧
    (Cell.subInWords? width value a = some (Cell.sub width value a) ∧
      ((Cell.sub width value a).toNat : Int) = (value.toNat - a) % width.toNat ∧
      Cell.sub width value a < width) ∧
    Cell.sub width (Cell.add width value a) a = value ∧
    Cell.add width (Cell.sub width value a) a = value ∧
    Cell.add width (Cell.add width value a) b = Cell.add width value (a + b) ∧
    ((Pointer.shift? pointer delta).isSome ↔
      (pointer : Int) ≤ Word.greatest ∧ 0 ≤ pointer + delta ∧ pointer + delta ≤ Word.greatest) ∧
    ∀ moved, Pointer.shift? pointer delta = some moved →
      (moved : Int) = pointer + delta ∧
        Pointer.shift? moved (Word.negate delta) = some pointer := by
  have hw : 0 < width := Cell.width_pos hvalue
  have hpos : 0 < width.toNat := UInt32.lt_iff_toNat_lt.mp hw
  refine ⟨⟨Cell.addInWords?_eq hvalue a, Cell.toNat_add hpos value a, Cell.add_lt hw value a⟩,
    ⟨Cell.subInWords?_eq hvalue a, Cell.toNat_sub hpos value a, Cell.sub_lt hw value a⟩,
    Cell.sub_add hvalue a, Cell.add_sub hvalue a, Cell.add_add hw value a b,
    Pointer.isSome_shift?_iff, fun moved hmoved => ?_⟩
  obtain ⟨-, -, heq⟩ := Pointer.shift?_eq_some_iff.mp hmoved
  exact ⟨heq.symm, Pointer.shift?_negate hmoved⟩

/-- At the limits: the widest cells, their largest value, and the least word, by which no pointer
can be moved. -/
theorem arithmetic_reversible_limits :
    (4294967294 : UInt32) < 4294967295 ∧
      Cell.sub 4294967295 (Cell.add 4294967295 4294967294 Word.least) Word.least = 4294967294 ∧
      Cell.addInWords? 4294967295 4294967294 Word.least = some 2147483646 ∧
      Pointer.shift? 9223372036854775807 Word.least = none ∧
      Pointer.shift? 0 (Word.negate (-Word.greatest)) = some 9223372036854775807 := by
  have hvalue : (4294967294 : UInt32) < 4294967295 := by decide
  obtain ⟨⟨hwords, -, -⟩, -, hback, -, -, hsome, -⟩ :=
    arithmetic_reversible hvalue Word.least 0 9223372036854775807 Word.least
  obtain ⟨-, -, -, -, -, -, hreturn⟩ :=
    arithmetic_reversible hvalue 0 0 9223372036854775807 (-Word.greatest)
  refine ⟨hvalue, hback, hwords.trans (by decide), ?_, (hreturn 0 (by decide)).2⟩
  rw [← Option.not_isSome_iff_eq_none, hsome]
  decide

end ReversibleTape
