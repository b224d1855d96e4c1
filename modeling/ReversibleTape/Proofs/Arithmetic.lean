import ReversibleTape.Cell

/-!
# Arithmetic of cells

What the other modules need to know about sums modulo the cell width. Sums and differences are cell
values, a sum of two amounts is added in one go or one after the other, and taking away what was
added, or adding what was taken away, gives a cell value back.
-/

namespace ReversibleTape

namespace Cell

variable {width value : UInt32}

/-- Only positive widths have cell values. -/
theorem width_pos (hvalue : value < width) : 0 < width :=
  UInt32.lt_iff_toNat_lt.mpr (Nat.zero_lt_of_lt (UInt32.lt_iff_toNat_lt.mp hvalue))

/-- A number that is reduced modulo a width is below it. -/
theorem emod_bounds (hw : 0 < width) (x : Int) :
    0 ≤ x % (width.toNat : Int) ∧ x % (width.toNat : Int) < width.toNat := by
  have hpos : 0 < width.toNat := UInt32.lt_iff_toNat_lt.mp hw
  exact ⟨Int.emod_nonneg x (by omega), Int.emod_lt_of_pos x (by omega)⟩

/-- A number reduced modulo the width is in the range of cell values. -/
theorem ofNat_emod_lt (hw : 0 < width) (x : Int) :
    UInt32.ofNat (x % width.toNat).toNat < width := by
  have hvalue := toNat_ofNat_emod (UInt32.lt_iff_toNat_lt.mp hw) x
  have hlt := (emod_bounds hw x).2
  rw [UInt32.lt_iff_toNat_lt]
  omega

theorem add_lt (hw : 0 < width) (value : UInt32) (delta : Int) : add width value delta < width :=
  ofNat_emod_lt hw _

theorem sub_lt (hw : 0 < width) (value : UInt32) (delta : Int) : sub width value delta < width :=
  ofNat_emod_lt hw _

/-- The amount need not be reduced before it is added. -/
theorem add_eq_ofNat (width value : UInt32) (delta : Int) :
    add width value delta = UInt32.ofNat ((value.toNat + delta) % width.toNat).toNat := by
  rw [add, Int.add_emod_emod]

/-- Two amounts are added one after the other or in one go. -/
theorem add_add (hw : 0 < width) (value : UInt32) (d e : Int) :
    add width (add width value d) e = add width value (d + e) := by
  have hpos : 0 < width.toNat := UInt32.lt_iff_toNat_lt.mp hw
  refine UInt32.toNat_inj.mp (Int.ofNat_inj.mp ?_)
  rw [toNat_add hpos, toNat_add hpos, toNat_add hpos, Int.emod_add_emod, Int.add_assoc]

/-- Nothing is added to a cell value. -/
theorem add_zero (hvalue : value < width) : add width value 0 = value := by
  have hlt := UInt32.lt_iff_toNat_lt.mp hvalue
  have hpos : 0 < width.toNat := by omega
  have hsum := toNat_add hpos value 0
  rw [Int.add_zero, Int.emod_eq_of_lt (by omega) (by omega)] at hsum
  exact UInt32.toNat_inj.mp (by omega)

/-- A value that is read is a cell value. -/
theorem ofInput?_lt {number : Int} (h : ofInput? width number = some value) : value < width := by
  rw [ofInput?] at h
  split at h
  · rename_i hrange
    cases h
    have hwidth := width.toNat_lt
    rw [UInt32.lt_iff_toNat_lt, UInt32.toNat_ofNat', Nat.mod_eq_of_lt (by omega)]
    omega
  · cases h

/-- A value is refused exactly if it is not in the range of cell values. -/
theorem ofInput?_eq_none_iff {number : Int} :
    ofInput? width number = none ↔ ¬(0 ≤ number ∧ number < width.toNat) := by
  simp [ofInput?]

/-- A cell value can be read. -/
theorem ofInput?_toNat (hvalue : value < width) : ofInput? width value.toNat = some value := by
  have hlt := UInt32.lt_iff_toNat_lt.mp hvalue
  rw [ofInput?, if_pos (by omega), Int.toNat_natCast, UInt32.ofNat_toNat]

/-- Taking away what was added gives a cell value back. -/
theorem sub_add (hvalue : value < width) (delta : Int) :
    sub width (add width value delta) delta = value := by
  have hlt := UInt32.lt_iff_toNat_lt.mp hvalue
  have hpos : 0 < width.toNat := by omega
  have hsub := toNat_sub hpos (add width value delta) delta
  rw [toNat_add hpos, Int.emod_sub_emod, Int.add_sub_cancel,
    Int.emod_eq_of_lt (by omega) (by omega)] at hsub
  exact UInt32.toNat_inj.mp (by omega)

/-- Adding what was taken away gives a cell value back. -/
theorem add_sub (hvalue : value < width) (delta : Int) :
    add width (sub width value delta) delta = value := by
  have hlt := UInt32.lt_iff_toNat_lt.mp hvalue
  have hpos : 0 < width.toNat := by omega
  have hadd := toNat_add hpos (sub width value delta) delta
  rw [toNat_sub hpos, Int.emod_add_emod, Int.sub_add_cancel,
    Int.emod_eq_of_lt (by omega) (by omega)] at hadd
  exact UInt32.toNat_inj.mp (by omega)

end Cell

end ReversibleTape
