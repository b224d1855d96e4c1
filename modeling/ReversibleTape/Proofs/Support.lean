import Mathlib.Data.List.Basic
import Mathlib.Data.List.Induction
import Mathlib.Order.Bounds.Basic
import ReversibleTape.Tape.Basic

/-!
# Tapes as maps of finite support

A tape stands for a map from indices to values that is zero almost everywhere. **Every history of
writes and clearings leads to the map that the history describes** (`Tape.edited_shows_latest`):
the value at an index is the one last written there since the tape was last cleared
(`Edit.latest`), and all that can be read off the tape is what the map says (`Report.Shows`).

A tape is trimmed after every write. The same can be had from cells that are never trimmed
(`Storage`): a zero that is written at the end stays, so that one map has many arrays, and each
observer has to see to it on its own that the zeros at the end do not show. That they do not is one
equation (`Storage.report_eq`), since an array is trimmed now or later to the same tape
(`Storage.tape_set`).
-/

namespace ReversibleTape

/-! ### Values that are not zero -/

/-- The values of a map below a bound that are not zero, with their indices in order. -/
def nonzeroBelow (f : Nat → UInt32) (bound : Nat) : List (Nat × UInt32) :=
  (List.range bound).filterMap fun i => if f i = 0 then none else some (i, f i)

section NonzeroBelow

variable {f g : Nat → UInt32} {n bound : Nat}

theorem mem_nonzeroBelow_iff {i : Nat} {value : UInt32} :
    (i, value) ∈ nonzeroBelow f bound ↔ i < bound ∧ value = f i ∧ f i ≠ 0 := by
  simp only [nonzeroBelow, List.mem_filterMap, List.mem_range, Option.ite_none_left_eq_some,
    Option.some.injEq, Prod.mk.injEq]
  constructor
  · rintro ⟨k, hk, hne, rfl, rfl⟩
    exact ⟨hk, rfl, hne⟩
  · rintro ⟨hi, rfl, hne⟩
    exact ⟨i, hi, hne, rfl, rfl⟩

theorem pairwise_nonzeroBelow (f : Nat → UInt32) (bound : Nat) :
    (nonzeroBelow f bound).Pairwise fun x y => x.1 < y.1 := by
  refine List.pairwise_filterMap.mpr (List.pairwise_lt_range.imp fun {i j} hlt => ?_)
  intro x hx y hy
  obtain ⟨-, hx⟩ := Option.ite_none_left_eq_some.mp hx
  obtain ⟨-, hy⟩ := Option.ite_none_left_eq_some.mp hy
  cases hx
  cases hy
  exact hlt

/-- A bound behind the last value need not be taken any further. -/
theorem nonzeroBelow_min (h : ∀ j, n ≤ j → f j = 0) (bound : Nat) :
    nonzeroBelow f (min bound n) = nonzeroBelow f bound := by
  have hbound : bound = min bound n + (bound - n) := by omega
  conv_rhs => rw [hbound, nonzeroBelow, List.range_add, List.filterMap_append]
  refine (List.append_right_eq_self.mpr (List.filterMap_eq_nil_iff.mpr fun i hi => ?_)).symm
  obtain ⟨k, hk, rfl⟩ := List.mem_map.mp hi
  have hlt := List.mem_range.mp hk
  exact if_pos (h _ (by omega))

/-- Maps have the same values that are not zero below a bound exactly if they agree there. -/
theorem nonzeroBelow_eq_iff :
    nonzeroBelow f bound = nonzeroBelow g bound ↔ ∀ i < bound, f i = g i := by
  constructor
  · intro h i hi
    -- A value of one map is in the list of the other, and only a zero is in none.
    by_cases hf : f i = 0
    · by_contra hne
      have hg : g i ≠ 0 := fun hg => hne (hf.trans hg.symm)
      have hmem := mem_nonzeroBelow_iff.mpr ⟨hi, rfl, hg⟩
      rw [← h] at hmem
      exact (mem_nonzeroBelow_iff.mp hmem).2.2 hf
    · have hmem := mem_nonzeroBelow_iff.mpr ⟨hi, rfl, hf⟩
      rw [h] at hmem
      exact (mem_nonzeroBelow_iff.mp hmem).2.1
  · intro h
    refine List.filterMap_congr fun i hi => ?_
    rw [h i (List.mem_range.mp hi)]

end NonzeroBelow

/-! ### What can be read off -/

/-- The answers of all observers of a tape. -/
structure Report where
  get : Nat → UInt32
  cells : List UInt32
  nonzeroWithin : Nat → List (Nat × UInt32)
  isBlank : Bool

/-- The answers are those for a map from indices to values. -/
structure Report.Shows (r : Report) (f : Nat → UInt32) : Prop where
  get_eq : ∀ i, r.get i = f i
  /-- The cells are the values below the least bound behind which all are zero. -/
  cells_eq : ∃ n, IsLeast {n | ∀ j, n ≤ j → f j = 0} n ∧ r.cells = (List.range n).map f
  mem_nonzeroWithin_iff : ∀ bound i value,
    (i, value) ∈ r.nonzeroWithin bound ↔ i < bound ∧ value = f i ∧ f i ≠ 0
  pairwise_nonzeroWithin : ∀ bound, (r.nonzeroWithin bound).Pairwise fun x y => x.1 < y.1
  isBlank_iff : r.isBlank = true ↔ ∀ i, f i = 0

namespace Tape

variable {t u : Tape}

/-- What can be read off a tape. -/
def report (t : Tape) : Report where
  get := t.get
  cells := t.cells.toList
  nonzeroWithin := t.nonzeroWithin
  isBlank := t.isBlank

theorem nonzeroWithin_eq (t : Tape) (bound : Nat) :
    t.nonzeroWithin bound = nonzeroBelow t.get bound :=
  nonzeroBelow_min (fun _ => get_of_size_le) bound

/-- Tapes show the same cells below a bound exactly if they have them. -/
theorem nonzeroWithin_eq_iff {bound : Nat} :
    t.nonzeroWithin bound = u.nonzeroWithin bound ↔ ∀ i < bound, t.get i = u.get i := by
  rw [nonzeroWithin_eq, nonzeroWithin_eq, nonzeroBelow_eq_iff]

/-- As many cells are kept as have to be. -/
theorem isLeast_size (t : Tape) : IsLeast {n | ∀ j, n ≤ j → t.get j = 0} t.cells.size := by
  refine ⟨fun j => get_of_size_le, fun n hn => Nat.le_of_not_lt fun hlt => ?_⟩
  exact get_last_ne_zero (Nat.zero_lt_of_lt hlt) (hn _ (by omega))

theorem toList_cells (t : Tape) : t.cells.toList = (List.range t.cells.size).map t.get := by
  refine List.ext_getElem (by simp) fun i hi _ => ?_
  have hsize : i < t.cells.size := by simpa using hi
  simp [get, hsize]

/-- **A tape shows the map of its cells.** -/
theorem shows_get (t : Tape) : t.report.Shows t.get where
  get_eq _ := rfl
  cells_eq := ⟨t.cells.size, t.isLeast_size, t.toList_cells⟩
  mem_nonzeroWithin_iff bound i value := by
    simp only [report, nonzeroWithin_eq, mem_nonzeroBelow_iff]
  pairwise_nonzeroWithin bound := by
    simp only [report, nonzeroWithin_eq, pairwise_nonzeroBelow]
  isBlank_iff := t.isBlank_iff

theorem eq_iff_get_eq : t = u ↔ ∀ i, t.get i = u.get i :=
  ⟨fun h _ => h ▸ rfl, ext_get⟩

end Tape

/-! ### Cells that are not trimmed -/

/-- Cells from the left as they were written. There may be zeros at the end. -/
structure Storage where
  cells : Array UInt32 := #[]

namespace Storage

/-- The value of a cell. -/
def get (s : Storage) (i : Nat) : UInt32 := s.cells.getD i 0

/-- Writes a cell. A zero beyond the last cell is there already. -/
def set (s : Storage) (i : Nat) (value : UInt32) : Storage :=
  if value = 0 ∧ s.cells.size ≤ i then s else { cells := Tape.writeCell s.cells i value }

/-- The cells without the zeros at the end. -/
def used (s : Storage) : Array UInt32 := dropZeros s.cells.size s.cells

/-- The cells below a bound that are not zero, with their indices in order. -/
def nonzeroWithin (s : Storage) (bound : Nat) : List (Nat × UInt32) :=
  ((s.cells.toList.take bound).zipIdx.filter fun cell => cell.1 ≠ 0).map Prod.swap

/-- Two arrays of cells are the same up to the zeros at the end. -/
def same (s s' : Storage) : Bool := s.used == s'.used

/-- What can be read off cells that are not trimmed. -/
def report (s : Storage) : Report where
  get := s.get
  cells := s.used.toList
  nonzeroWithin := s.nonzeroWithin
  isBlank := s.used.isEmpty

/-- The tape that has the same cells. -/
def tape (s : Storage) : Tape := .ofCells s.cells

theorem get_tape (s : Storage) (i : Nat) : s.tape.get i = s.get i := Tape.get_ofCells s.cells i

/-- Trimming can wait until after a write. -/
theorem tape_set (s : Storage) (i : Nat) (value : UInt32) :
    (s.set i value).tape = s.tape.set i value := by
  refine Tape.ext_get fun j => ?_
  rw [Tape.get_set, get_tape, get_tape, set]
  split
  · rename_i hpast
    split
    · rename_i hij
      rw [get, Array.getD_eq_getD_getElem?, Array.getElem?_eq_none (hij ▸ hpast.2), hpast.1]
      rfl
    · rfl
  · exact Tape.getD_writeCell s.cells i j value

theorem nonzeroWithin_eq (s : Storage) (bound : Nat) :
    s.nonzeroWithin bound = nonzeroBelow s.get bound := by
  have hpast : ∀ j, s.cells.size ≤ j → s.get j = 0 := by
    intro j hj
    rw [get, Array.getD_eq_getD_getElem?, Array.getElem?_eq_none hj]
    rfl
  have hzip : (s.cells.toList.take bound).zipIdx =
      (List.range (min bound s.cells.size)).map fun i => (s.get i, i) := by
    refine List.ext_getElem (by simp) fun i hi _ => ?_
    have hsize : i < s.cells.size := by
      simp only [List.length_zipIdx, List.length_take, Array.length_toList] at hi
      omega
    simp [get, hsize]
  rw [← nonzeroBelow_min hpast, nonzeroWithin, hzip, List.filter_map, List.map_map,
    ← List.filterMap_eq_map, List.filterMap_filter]
  refine List.filterMap_congr fun i _ => ?_
  by_cases hzero : s.get i = 0 <;> simp [hzero]

/-- **Zeros at the end do not show.** -/
theorem report_eq (s : Storage) : s.report = s.tape.report := by
  have hget : s.get = s.tape.get := funext fun i => (s.get_tape i).symm
  have hnonzero : s.nonzeroWithin = s.tape.nonzeroWithin := by
    funext bound
    rw [nonzeroWithin_eq, Tape.nonzeroWithin_eq, hget]
  rw [report, hget, hnonzero]
  rfl

theorem same_iff (s s' : Storage) : s.same s' = true ↔ s.tape = s'.tape := by
  rw [same, beq_iff_eq]
  exact ⟨fun h => Tape.ext_get fun i => congrArg (fun cells => cells.getD i 0) h,
    fun h => congrArg Tape.cells h⟩

end Storage

/-! ### Histories -/

/-- A change of a tape. -/
inductive Edit
  /-- A value is written into a cell. -/
  | set (i : Nat) (value : UInt32)
  /-- All cells become zero. -/
  | clear
  deriving DecidableEq

namespace Edit

/-- The tape after a change. -/
def onTape (t : Tape) : Edit → Tape
  | set i value => t.set i value
  | clear => .blank

/-- The cells after a change, not trimmed. -/
def onStorage (s : Storage) : Edit → Storage
  | set i value => s.set i value
  | clear => {}

/-- The value that a change writes into a cell. -/
def valueAt? (i : Nat) : Edit → Option UInt32
  | set j value => if j = i then some value else none
  | clear => none

/-- The value that was last written into a cell since the last clearing, or zero. -/
def latest (edits : List Edit) (i : Nat) : UInt32 :=
  ((edits.reverse.takeWhile (· ≠ clear)).findSome? (valueAt? i)).getD 0

theorem latest_set (edits : List Edit) (i j : Nat) (value : UInt32) :
    latest (edits ++ [set i value]) j = if i = j then value else latest edits j := by
  rw [latest, List.reverse_concat, List.takeWhile_cons_of_pos (by simp), List.findSome?_cons]
  by_cases hij : i = j <;> simp [valueAt?, hij, latest]

theorem latest_clear (edits : List Edit) (j : Nat) : latest (edits ++ [clear]) j = 0 := by
  rw [latest, List.reverse_concat, List.takeWhile_cons_of_neg (by simp)]
  rfl

end Edit

/-- The tape after a history. -/
def Tape.edited (edits : List Edit) : Tape := edits.foldl Edit.onTape .blank

/-- The cells after a history, never trimmed. -/
def Storage.edited (edits : List Edit) : Storage := edits.foldl Edit.onStorage {}

/-- A tape holds the values that were written last. -/
theorem Tape.get_edited (edits : List Edit) (i : Nat) :
    (edited edits).get i = Edit.latest edits i := by
  induction edits using List.reverseRecOn with
  | nil => exact get_blank i
  | append_singleton edits e ih =>
    rw [edited, List.foldl_concat]
    cases e with
    | set j value =>
      rw [Edit.latest_set, ← ih, Edit.onTape, get_set]
      rfl
    | clear => rw [Edit.latest_clear, Edit.onTape, get_blank]

/-- Trimming can wait until the end of a history. -/
theorem Storage.tape_edited (edits : List Edit) : (edited edits).tape = Tape.edited edits := by
  induction edits using List.reverseRecOn with
  | nil => rfl
  | append_singleton edits e ih =>
    rw [edited, Tape.edited, List.foldl_concat, List.foldl_concat]
    cases e with
    | set i value =>
      exact (tape_set _ i value).trans (congrArg (·.set i value) ih)
    | clear => rfl

/-- **A tape is a map of finite support.** After any history, a tape shows the values that were last
written since the last clearing, and nothing else; two tapes are equal exactly if they agree in
every cell. Cells that are never trimmed show the same, and are the same up to zeros at the end
exactly if they agree in every cell. -/
theorem Tape.edited_shows_latest (edits edits' : List Edit) :
    (edited edits).report.Shows (Edit.latest edits) ∧
      (edited edits = edited edits' ↔ ∀ i, (edited edits).get i = (edited edits').get i) ∧
      (Storage.edited edits).report.Shows (Edit.latest edits) ∧
      ((Storage.edited edits).same (Storage.edited edits') = true ↔
        ∀ i, (Storage.edited edits).get i = (Storage.edited edits').get i) := by
  have hlatest : (edited edits).get = Edit.latest edits := funext (get_edited edits)
  have hshows : (edited edits).report.Shows (Edit.latest edits) := hlatest ▸ shows_get _
  refine ⟨hshows, eq_iff_get_eq, ?_, ?_⟩
  · rwa [Storage.report_eq, Storage.tape_edited]
  · simp only [Storage.same_iff, eq_iff_get_eq, Storage.get_tape]

end ReversibleTape
