/-!
# Tapes

A tape has infinitely many cells to the right, all but finitely many of which are zero. Only
the cells up to the last one that is not zero are kept, so a tape has one representation:
two tapes are equal as soon as their cells are (`Tape.ext_get`), and the empty array is the
blank tape.

`Tape.get` is the view of a tape, and `Tape.get_set` says what writing does to it.

**Memory is not limited here**: `Tape.set` has an answer at every index. A tape that is kept in the
memory of a computer grows up to the cell that is written, and there a write far away may find no
room and give no answer. What is said here of written tapes is said of writes that come back.
-/

namespace ReversibleTape

/-! ### Trailing zeros -/

/-- Drops the zeros at the end of `n` cells; of `n + 1` cells, the last is at index `n`. -/
def dropZeros : Nat → Array UInt32 → Array UInt32
  | 0, cells => cells
  | n + 1, cells => if cells.getD n 1 = 0 then dropZeros n cells.pop else cells

/-- Dropping zeros from the end changes no cell. -/
theorem getD_dropZeros {n : Nat} {cells : Array UInt32} (h : cells.size = n) (i : Nat) :
    (dropZeros n cells).getD i 0 = cells.getD i 0 := by
  induction n generalizing cells with
  | zero => rfl
  | succ n ih =>
    rw [dropZeros]
    split
    · rename_i hzero
      rw [ih (by simp [h])]
      simp only [Array.getD_eq_getD_getElem?, Array.getElem?_pop] at hzero ⊢
      split
      · rfl
      · by_cases hi : i = n
        · subst hi
          rw [Array.getElem?_eq_getElem (by omega)] at hzero ⊢
          exact hzero.symm
        · rw [Array.getElem?_eq_none (by omega)]
    · rfl

/-- No zero is left at the end. -/
theorem back?_dropZeros {n : Nat} {cells : Array UInt32} (h : cells.size = n) :
    (dropZeros n cells).back? ≠ some 0 := by
  induction n generalizing cells with
  | zero => simp [dropZeros, Array.eq_empty_of_size_eq_zero h]
  | succ n ih =>
    rw [dropZeros]
    split
    · exact ih (by simp [h])
    · rename_i hlast
      rw [Array.back?_eq_getElem?, h, Nat.add_sub_cancel]
      rw [Array.getD_eq_getD_getElem?, Array.getElem?_eq_getElem (by omega)] at hlast
      rw [Array.getElem?_eq_getElem (by omega)]
      simpa using hlast

/-! ### Tapes and their cells -/

/-- Cells from the left, up to the last one that is not zero. -/
structure Tape where
  cells : Array UInt32
  back?_ne_zero : cells.back? ≠ some 0
  deriving DecidableEq

namespace Tape

/-- The tape on which all cells are zero. -/
def blank : Tape := { cells := #[], back?_ne_zero := by simp }

/-- The tape that starts with the given cells. -/
def ofCells (cells : Array UInt32) : Tape where
  cells := dropZeros cells.size cells
  back?_ne_zero := back?_dropZeros rfl

/-- The value of a cell. -/
def get (t : Tape) (i : Nat) : UInt32 := t.cells.getD i 0

/-- Every cell is zero. -/
def isBlank (t : Tape) : Bool := t.cells.isEmpty

/-- Writes a cell, with zeros up to it if it lies beyond the end. -/
def writeCell (cells : Array UInt32) (i : Nat) (value : UInt32) : Array UInt32 :=
  if h : i < cells.size then cells.set i value
  else (cells ++ Array.replicate (i - cells.size) 0).push value

/-- The tape with another value in one cell, however far away. A zero beyond the last cell is there
already. -/
def set (t : Tape) (i : Nat) (value : UInt32) : Tape :=
  if value = 0 ∧ t.cells.size ≤ i then t else ofCells (writeCell t.cells i value)

/-- The cells below a bound that are not zero, with their indices in order. -/
def nonzeroWithin (t : Tape) (bound : Nat) : List (Nat × UInt32) :=
  (List.range (min bound t.cells.size)).filterMap fun i =>
    if t.get i = 0 then none else some (i, t.get i)

/-- All cells that are not zero, with their indices in order. -/
def nonzero (t : Tape) : List (Nat × UInt32) := t.nonzeroWithin t.cells.size

/-! ### The view -/

@[simp] theorem get_blank (i : Nat) : blank.get i = 0 := by simp [get, blank]

theorem get_of_size_le {t : Tape} {i : Nat} (h : t.cells.size ≤ i) : t.get i = 0 := by
  rw [get, Array.getD_eq_getD_getElem?, Array.getElem?_eq_none h]; rfl

@[simp] theorem get_ofCells (cells : Array UInt32) (i : Nat) :
    (ofCells cells).get i = cells.getD i 0 := getD_dropZeros rfl i

theorem getD_writeCell (cells : Array UInt32) (i j : Nat) (value : UInt32) :
    (writeCell cells i value).getD j 0 = if i = j then value else cells.getD j 0 := by
  simp only [writeCell, Array.getD_eq_getD_getElem?]
  split
  · rw [Array.getElem?_set]
    split <;> simp_all
  · rename_i h
    rw [Array.getElem?_push, Array.size_append, Array.size_replicate]
    by_cases hij : i = j
    · subst hij
      rw [if_pos (by omega), if_pos rfl]; rfl
    · rw [if_neg (by omega), if_neg hij, Array.getElem?_append]
      split
      · rfl
      · have hnone : cells[j]? = none := Array.getElem?_eq_none (by omega)
        rw [hnone, Array.getElem?_replicate]
        split <;> rfl

/-- A written value is read back, and no other cell changes. -/
theorem get_set (t : Tape) (i j : Nat) (value : UInt32) :
    (t.set i value).get j = if i = j then value else t.get j := by
  unfold set
  split
  · rename_i h
    split
    · rename_i hij; subst hij; rw [get_of_size_le h.2, h.1]
    · rfl
  · rw [get_ofCells, getD_writeCell]; rfl

/-- The last cell that is kept is not zero. -/
theorem get_last_ne_zero {t : Tape} (h : 0 < t.cells.size) : t.get (t.cells.size - 1) ≠ 0 := by
  have hback := t.back?_ne_zero
  rw [Array.back?_eq_getElem?, Array.getElem?_eq_getElem (by omega)] at hback
  rw [get, Array.getD_eq_getD_getElem?, Array.getElem?_eq_getElem (by omega)]
  simpa using hback

/-- Tapes with the same cells keep equally many of them. -/
theorem size_le_of_get_eq {t u : Tape} (h : ∀ i, t.get i = u.get i) :
    t.cells.size ≤ u.cells.size := by
  refine Nat.le_of_not_lt fun hlt => ?_
  have hlast : t.get (t.cells.size - 1) ≠ 0 := get_last_ne_zero (by omega)
  exact hlast (by rw [h, get_of_size_le (by omega)])

/-- Tapes with the same cells are equal. -/
theorem ext_get {t u : Tape} (h : ∀ i, t.get i = u.get i) : t = u := by
  have hsize : t.cells.size = u.cells.size :=
    Nat.le_antisymm (size_le_of_get_eq h) (size_le_of_get_eq fun i => (h i).symm)
  have hcells : t.cells = u.cells := by
    refine Array.ext hsize fun i hi hi' => ?_
    have hget := h i
    simpa [get, Array.getD_eq_getD_getElem?, hi, hi'] using hget
  cases t; cases u; cases hcells; rfl

/-- Of two values written to a cell the second one stays. -/
theorem set_set (t : Tape) (i : Nat) (value value' : UInt32) :
    (t.set i value).set i value' = t.set i value' := by
  refine ext_get fun j => ?_
  rw [get_set, get_set, get_set]
  split <;> rfl

/-- Writing the value that a cell has changes nothing. -/
theorem set_get (t : Tape) (i : Nat) : t.set i (t.get i) = t := by
  refine ext_get fun j => ?_
  rw [get_set]
  split
  · rename_i hij
    rw [hij]
  · rfl

/-- A tape is blank exactly when every cell is zero. -/
theorem isBlank_iff (t : Tape) : t.isBlank = true ↔ ∀ i, t.get i = 0 := by
  constructor
  · intro h i
    refine get_of_size_le ?_
    rw [isBlank, Array.isEmpty_iff] at h
    simp [h]
  · intro h
    rw [show t = blank from ext_get fun i => by simp [h i]]
    rfl

end Tape

end ReversibleTape
