import ReversibleTape.Tape.View

/-!
# The mark of a view

A view has a mark under the cell that the pointer is at. The line of cell values and the line with
the mark are written independently. The first gives a cell as many columns as its digits need, and
at least three; the second gives four columns to each cell, one of them for the bar. **The mark
stands under the last digit of its cell exactly if no cell up to there has more than three digits**
(`Tape.view_mark_iff`). Beyond that, the mark falls behind, and it may even stand under the last
digit of another cell (`Tape.view_mark_strays`).

Columns are found by the bars. Two places of a line that have a bar and equally many bars before it
are the same (`append_cons_inj_of_count_eq`), so the column in which a cell ends is the length of
the row up to it (`Tape.endsIn_viewCells_iff`), and that is four times the number of cells exactly
if each of them has three columns (`Tape.length_row_eq_iff`).
-/

namespace ReversibleTape

/-- What one front has beyond the other is empty if it adds no occurrence of the value behind. -/
theorem eq_nil_of_count_eq {α : Type} [DecidableEq α] {a : α} {u v w v' : List α}
    (h : a :: v = w ++ a :: v') (hcount : u.count a = (u ++ w).count a) : w = [] := by
  cases w with
  | nil => rfl
  | cons b w =>
    obtain rfl : a = b := (List.cons.inj h).1
    rw [List.count_append, List.count_cons_self] at hcount
    omega

/-- A list is split in one way at an occurrence of a value, once it is said how many occurrences
are in front of it. -/
theorem append_cons_inj_of_count_eq {α : Type} [DecidableEq α] {a : α} {u v u' v' : List α}
    (h : u ++ a :: v = u' ++ a :: v') (hcount : u.count a = u'.count a) : u = u' ∧ v = v' := by
  -- If one front were longer, it would hold the occurrence at which the other one ends.
  rcases List.append_eq_append_iff.mp h with ⟨w, rfl, hv⟩ | ⟨w, rfl, hv⟩
  · obtain rfl := eq_nil_of_count_eq hv hcount
    exact ⟨(List.append_nil u).symm, (List.cons.inj hv).2⟩
  · obtain rfl := eq_nil_of_count_eq hv hcount.symm
    exact ⟨List.append_nil u', (List.cons.inj hv).2.symm⟩

namespace Tape

variable {t : Tape} {pointer first width k n column : Nat} {ch : Char}

/-! ### Numbers -/

/-- Numbers are written with digits and blanks only. -/
theorem notMem_viewNumber (hblank : ch ≠ ' ') (hdigit : ch.isDigit = false) (n : Nat) :
    ch ∉ viewNumber n := by
  intro h
  rcases List.mem_append.mp h with hmem | hmem
  · exact hblank (List.eq_of_mem_replicate hmem)
  · rw [Nat.isDigit_of_mem_toDigits (by decide) (by decide) hmem] at hdigit
    cases hdigit

theorem three_le_length_viewNumber (n : Nat) : 3 ≤ (viewNumber n).length := by
  simp only [viewNumber, List.length_append, List.length_replicate]
  omega

/-- Three columns are enough exactly for the numbers of at most three digits. -/
theorem length_viewNumber_eq_three_iff : (viewNumber n).length = 3 ↔ n < 1000 := by
  have hdigits : (Nat.toDigits 10 n).length ≤ 3 ↔ n < 10 ^ 3 :=
    Nat.length_toDigits_le_iff (by decide) (by decide)
  simp only [viewNumber, List.length_append, List.length_replicate]
  omega

/-! ### The line of cell values -/

/-- Cells from the left, each with the bar in front of it. -/
def row (t : Tape) (first n : Nat) : List Char :=
  (List.range' first n).flatMap fun i => '|' :: viewNumber (t.get i).toNat

theorem viewCells_eq (t : Tape) (first width : Nat) :
    t.viewCells first width = t.row first width ++ ['|'] := rfl

theorem row_succ (t : Tape) (first n : Nat) :
    t.row first (n + 1) = '|' :: viewNumber (t.get first).toNat ++ t.row (first + 1) n := rfl

theorem row_add (t : Tape) (first m n : Nat) :
    t.row first (m + n) = t.row first m ++ t.row (first + m) n := by
  rw [row, row, row, ← List.flatMap_append, ← List.range'_append, Nat.one_mul]

theorem count_row (t : Tape) (first n : Nat) : (t.row first n).count '|' = n := by
  induction n generalizing first with
  | zero => rfl
  | succ n ih =>
    have hnumber := List.count_eq_zero_of_not_mem
      (notMem_viewNumber (show '|' ≠ ' ' by decide) rfl (t.get first).toNat)
    rw [row_succ, List.cons_append, List.count_cons_self, List.count_append, hnumber, ih,
      Nat.zero_add]

theorem newline_notMem_row (t : Tape) (first n : Nat) : '\n' ∉ t.row first n := by
  intro h
  obtain ⟨i, -, hmem⟩ := List.mem_flatMap.mp h
  rcases List.mem_cons.mp hmem with hbar | hnumber
  · exact absurd hbar (by decide)
  · exact notMem_viewNumber (by decide) (by decide) _ hnumber

theorem four_mul_le_length_row (t : Tape) (first n : Nat) : 4 * n ≤ (t.row first n).length := by
  induction n generalizing first with
  | zero => exact Nat.zero_le _
  | succ n ih =>
    have hnumber := three_le_length_viewNumber (t.get first).toNat
    have hrest := ih (first + 1)
    simp only [row_succ, List.length_append, List.length_cons]
    omega

/-- A row has four columns for each cell exactly if no value has more than three digits. -/
theorem length_row_eq_iff (t : Tape) (first n : Nat) :
    (t.row first n).length = 4 * n ↔
      ∀ i, first ≤ i → i < first + n → (t.get i).toNat < 1000 := by
  induction n generalizing first with
  | zero => exact iff_of_true rfl fun i hi hlt => absurd hlt (by omega)
  | succ n ih =>
    have hnumber := three_le_length_viewNumber (t.get first).toNat
    have hrest := four_mul_le_length_row t (first + 1) n
    have hsplit : (t.row first (n + 1)).length = 4 * (n + 1) ↔
        (viewNumber (t.get first).toNat).length = 3 ∧ (t.row (first + 1) n).length = 4 * n := by
      simp only [row_succ, List.length_append, List.length_cons]
      omega
    rw [hsplit, length_viewNumber_eq_three_iff, ih]
    constructor
    · rintro ⟨hfirst, hlater⟩ i hi hlt
      rcases Nat.eq_or_lt_of_le hi with rfl | hbehind
      · exact hfirst
      · exact hlater i hbehind (by omega)
    · intro h
      exact ⟨h first (Nat.le_refl first) (by omega), fun i hi hlt => h i (by omega) (by omega)⟩

/-! ### Columns -/

/-- On a line of cell values, the digits of a value are those of the cell with a number `k`, and the
last of them stands in a column; cells and columns are counted from zero. The bars of the cells
before it and its own stand before the digits, and the bar of the next one behind them. -/
def EndsIn (line : List Char) (k value column : Nat) : Prop :=
  ∃ before after, line = before ++ Nat.toDigits 10 value ++ '|' :: after ∧
    before.count '|' = k + 1 ∧ before.length + (Nat.toDigits 10 value).length = column + 1

/-- A cell ends in one column. -/
theorem EndsIn.column_unique {line : List Char} {value value' column' : Nat}
    (h : EndsIn line k value column) (h' : EndsIn line k value' column') : column = column' := by
  obtain ⟨before, after, hline, hcount, hlength⟩ := h
  obtain ⟨before', after', hline', hcount', hlength'⟩ := h'
  have hbars (before : List Char) (value : Nat) :
      (before ++ Nat.toDigits 10 value).count '|' = before.count '|' := by
    have hnotMem : '|' ∉ Nat.toDigits 10 value := fun hmem =>
      absurd (Nat.isDigit_of_mem_toDigits (by decide) (by decide) hmem) (by decide)
    rw [List.count_append, List.count_eq_zero_of_not_mem hnotMem, Nat.add_zero]
  obtain ⟨hfront, -⟩ := append_cons_inj_of_count_eq (hline.symm.trans hline')
    (by rw [hbars, hbars, hcount, hcount'])
  have hcolumns := congrArg List.length hfront
  rw [List.length_append, List.length_append] at hcolumns
  omega

theorem exists_viewCells_eq (t : Tape) (first : Nat) (hn : n ≤ width) :
    ∃ after, t.viewCells first width = t.row first n ++ '|' :: after := by
  obtain ⟨m, rfl⟩ := Nat.exists_eq_add_of_le hn
  rw [viewCells_eq, row_add, List.append_assoc]
  cases m with
  | zero => exact ⟨[], rfl⟩
  | succ m => exact ⟨_, by rw [row_succ, List.cons_append, List.cons_append]⟩

/-- A cell ends where the row up to it does. -/
theorem endsIn_viewCells_iff (hk : k < width) :
    EndsIn (t.viewCells first width) k (t.get (first + k)).toNat column ↔
      (t.row first (k + 1)).length = column + 1 := by
  obtain ⟨after, hline⟩ := exists_viewCells_eq t first hk
  have hrow : t.row first (k + 1) = (t.row first k ++
      '|' :: List.replicate (3 - (Nat.toDigits 10 (t.get (first + k)).toNat).length) ' ') ++
        Nat.toDigits 10 (t.get (first + k)).toNat := by
    rw [row_add, row_succ]
    simp [row, viewNumber]
  have hends (c : Nat) (hc : (t.row first (k + 1)).length = c + 1) :
      EndsIn (t.viewCells first width) k (t.get (first + k)).toNat c := by
    refine ⟨_, after, by rw [hline, hrow], ?_, by rw [← List.length_append, ← hrow, hc]⟩
    rw [List.count_append, List.count_cons_self, count_row, List.count_replicate, if_neg (by decide)]
  refine ⟨fun h => ?_, hends column⟩
  have hle := four_mul_le_length_row t first (k + 1)
  have hcolumn := h.column_unique (hends ((t.row first (k + 1)).length - 1) (by omega))
  omega

/-! ### The line with the mark -/

theorem flatMap_viewMark_of_notMem {indices : List Nat} (h : pointer ∉ indices) :
    indices.flatMap (viewMark pointer) = List.replicate (4 * indices.length) ' ' := by
  induction indices with
  | nil => rfl
  | cons i indices ih =>
    rw [List.mem_cons, not_or] at h
    have hblank : viewMark pointer i = List.replicate 4 ' ' := if_neg (Ne.symm h.1)
    rw [List.flatMap_cons, ih h.2, hblank, List.replicate_append_replicate, List.length_cons,
      Nat.mul_succ, Nat.add_comm]

/-- The mark is in the last of the four columns of its cell, and nothing follows it. -/
theorem viewMarks_of_mem (hle : first ≤ pointer) (hlt : pointer < first + width) :
    viewMarks pointer first width = List.replicate (4 * (pointer - first) + 3) ' ' ++ ['^'] := by
  obtain ⟨k, rfl⟩ := Nat.exists_eq_add_of_le hle
  obtain ⟨m, rfl⟩ : ∃ m, width = k + (m + 1) := ⟨width - k - 1, by omega⟩
  have hbefore : first + k ∉ List.range' first k := by
    rw [List.mem_range'_1]
    omega
  have hbehind : first + k ∉ List.range' (first + k + 1) m := by
    rw [List.mem_range'_1]
    omega
  rw [viewMarks, ← List.range'_append, Nat.one_mul, List.range'_succ, List.flatMap_append,
    List.flatMap_cons, flatMap_viewMark_of_notMem hbefore, flatMap_viewMark_of_notMem hbehind,
    viewMark, if_pos rfl, Nat.add_sub_cancel_left, List.length_range']
  simp [List.replicate_succ']

theorem viewMarks_of_notMem (h : ¬(first ≤ pointer ∧ pointer < first + width)) :
    viewMarks pointer first width = [] := by
  rw [← List.mem_range'_1] at h
  rw [viewMarks, flatMap_viewMark_of_notMem h]
  simp

/-- **Where the mark of a view stands.** A view has two lines. If the pointer is in the row, the
second line is blank up to a mark, and the mark stands under the last digit of the cell that the
pointer is at exactly if no cell from the first one to this one has more than three digits. If it is
not, the second line is empty. -/
theorem view_mark_iff (t : Tape) (pointer first width : Nat) :
    ∃ top bottom, (t.view pointer first width).toList = top ++ '\n' :: bottom ∧
      '\n' ∉ top ∧ '\n' ∉ bottom ∧
      (first ≤ pointer ∧ pointer < first + width →
        ∃ column, bottom = List.replicate column ' ' ++ ['^'] ∧
          (EndsIn top (pointer - first) (t.get pointer).toNat column ↔
            ∀ i, first ≤ i → i ≤ pointer → (t.get i).toNat < 1000)) ∧
      (¬(first ≤ pointer ∧ pointer < first + width) → bottom = []) := by
  refine ⟨t.viewCells first width, viewMarks pointer first width, by rw [view, String.toList_ofList],
    ?_, ?_, ?_, viewMarks_of_notMem⟩
  · rw [viewCells_eq, List.mem_append, not_or]
    exact ⟨newline_notMem_row t first width, by decide⟩
  · by_cases hmem : first ≤ pointer ∧ pointer < first + width
    · rw [viewMarks_of_mem hmem.1 hmem.2]
      simp
    · rw [viewMarks_of_notMem hmem]
      exact List.not_mem_nil
  · rintro ⟨hle, hlt⟩
    refine ⟨_, viewMarks_of_mem hle hlt, ?_⟩
    obtain ⟨k, rfl⟩ := Nat.exists_eq_add_of_le hle
    rw [Nat.add_sub_cancel_left, endsIn_viewCells_iff (by omega),
      show 4 * k + 3 + 1 = 4 * (k + 1) from rfl, length_row_eq_iff]
    exact forall_congr' fun i => imp_congr_right fun _ => imp_congr_left Nat.lt_succ_iff

/-- The first of two cells has seven digits. The pointer is at the second, but the mark stands under
the last digit of the first. -/
theorem view_mark_strays :
    (blank.set 0 1000000).view 1 0 2 = "|1000000|  0|\n       ^" ∧
      ¬EndsIn "|1000000|  0|".toList 1 0 7 ∧ EndsIn "|1000000|  0|".toList 0 1000000 7 := by
  have hsecond : EndsIn "|1000000|  0|".toList 1 0 11 :=
    ⟨"|1000000|  ".toList, [], by decide, by decide, by decide⟩
  refine ⟨by decide +kernel, fun h => absurd (h.column_unique hsecond) (by decide), ?_⟩
  exact ⟨"|".toList, "  0|".toList, by decide, by decide, by decide⟩

end Tape

end ReversibleTape
