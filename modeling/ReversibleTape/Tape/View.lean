import ReversibleTape.Tape.Basic

/-!
# Views of a tape

A view shows a row of neighbouring cells in two lines. The first line has the cell values
between bars, each in at least three columns; the second line counts four columns for each
cell, has a caret in the last of those of the cell that the pointer is at, and ends there.
If the pointer is not in the row, the second line is empty.
-/

namespace ReversibleTape

namespace Tape

/-- A number in at least three columns, flush right. -/
def viewNumber (n : Nat) : List Char :=
  let digits := Nat.toDigits 10 n
  List.replicate (3 - digits.length) ' ' ++ digits

/-- The line of cell values. -/
def viewCells (t : Tape) (first width : Nat) : List Char :=
  ((List.range' first width).flatMap fun i => '|' :: viewNumber (t.get i).toNat) ++ ['|']

/-- The mark under one cell. -/
def viewMark (pointer i : Nat) : List Char :=
  if i = pointer then [' ', ' ', ' ', '^'] else [' ', ' ', ' ', ' ']

/-- The line with the mark, without blanks at its end. -/
def viewMarks (pointer first width : Nat) : List Char :=
  let marks := (List.range' first width).flatMap (viewMark pointer)
  (marks.reverse.dropWhile (· == ' ')).reverse

/-- The two lines that show `width` cells from `first` on. -/
def view (t : Tape) (pointer first width : Nat) : String :=
  String.ofList (t.viewCells first width ++ '\n' :: viewMarks pointer first width)

end Tape

end ReversibleTape
