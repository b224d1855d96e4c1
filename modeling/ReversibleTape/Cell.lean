/-!
# Cells

A cell holds a number below the cell width. `Cell.add` and `Cell.sub` add and take away a
signed amount modulo the width; the amount is reduced first, so that no number on the way is
larger than twice the width. A value that is read goes into a cell only if it is in range
(`Cell.ofInput?`), and a cell is emitted as the character with its number (`Cell.char`).
-/

namespace ReversibleTape

namespace Cell

/-- Adds a signed amount modulo the width. -/
def add (width value : UInt32) (delta : Int) : UInt32 :=
  UInt32.ofNat ((value.toNat + delta % width.toNat) % width.toNat).toNat

/-- Takes a signed amount away modulo the width. -/
def sub (width value : UInt32) (delta : Int) : UInt32 :=
  UInt32.ofNat ((value.toNat - delta % width.toNat) % width.toNat).toNat

/-- A number reduced modulo a width is a cell value, and the cell holds that number. -/
theorem toNat_ofNat_emod {width : UInt32} (hw : 0 < width.toNat) (x : Int) :
    ((UInt32.ofNat (x % width.toNat).toNat).toNat : Int) = x % width.toNat := by
  have hnonneg : 0 ≤ x % (width.toNat : Int) := Int.emod_nonneg _ (by omega)
  have hlt : x % (width.toNat : Int) < width.toNat := Int.emod_lt_of_pos _ (by omega)
  have hwidth := width.toNat_lt
  rw [UInt32.toNat_ofNat', Nat.mod_eq_of_lt (by omega)]
  omega

/-- The sum is the exact sum modulo the width. -/
theorem toNat_add {width : UInt32} (hw : 0 < width.toNat) (value : UInt32) (delta : Int) :
    ((add width value delta).toNat : Int) = (value.toNat + delta) % width.toNat := by
  rw [add, toNat_ofNat_emod hw, Int.add_emod_emod]

/-- The difference is the exact difference modulo the width. -/
theorem toNat_sub {width : UInt32} (hw : 0 < width.toNat) (value : UInt32) (delta : Int) :
    ((sub width value delta).toNat : Int) = (value.toNat - delta) % width.toNat := by
  rw [sub, toNat_ofNat_emod hw, Int.sub_emod_emod]

/-- The cell value of a number that was read, if it is in range. -/
def ofInput? (width : UInt32) (value : Int) : Option UInt32 :=
  if 0 ≤ value ∧ value < width.toNat then some (UInt32.ofNat value.toNat) else none

/-- The character that stands for a number that is not the number of a character. -/
def replacement : Char := '\ufffd'

/-- The character of a cell value. -/
def char (value : UInt32) : Char :=
  if h : value.isValidChar then ⟨value, h⟩ else replacement

end Cell

end ReversibleTape
