/-!
# Records of execution

Execution forgets: clearing a cell, reading into it and leaving a loop cannot be undone from
the cell and the pointer alone. What they forget is written down in a record, one for each
instruction of the program.

* An instruction that overwrites a cell puts the old value on its stack `undo`.
* The head of a loop has one counter for each time the loop was entered from above, the
  latest on top of the stack `passes`. The counter is the number of times that the head was
  reached again from the tail of the loop.
* A loop head is `inProgress` while the execution is inside the loop.

Stacks are lists whose head is the top. `Ledger` is the array of the records of a program.
-/

namespace ReversibleTape

/-- What one instruction wrote down for its own undoing. -/
structure Record where
  /-- The overwritten cell values, latest first. -/
  undo : List UInt32 := []
  /-- The returns to a loop head, one counter for each entry of the loop, latest first. -/
  passes : List Nat := []
  /-- Whether the execution is inside the loop. -/
  inProgress : Bool := false
  deriving DecidableEq

namespace Record

/-- The record of an instruction that never ran. -/
def blank : Record := {}

/-- Nothing is written down. -/
def isPristine (r : Record) : Bool :=
  r.undo.isEmpty && r.passes.isEmpty && !r.inProgress

/-- A record is pristine exactly when it is blank. -/
theorem isPristine_iff (r : Record) : r.isPristine = true ↔ r = blank := by
  cases r
  simp [isPristine, blank, and_assoc]

/-! ### Overwritten values -/

/-- Writes an overwritten value down. -/
def save (r : Record) (value : UInt32) : Record := { r with undo := value :: r.undo }

/-- Takes back the value written down last. -/
def restore? (r : Record) : Option (UInt32 × Record) :=
  match r.undo with
  | [] => none
  | value :: undo => some (value, { r with undo })

@[simp] theorem restore?_save (r : Record) (value : UInt32) :
    (r.save value).restore? = some (value, r) := rfl

/-! ### Loop heads -/

/-- One more on the top counter. -/
def bump : List Nat → List Nat
  | [] => []
  | n :: rest => (n + 1) :: rest

/-- The record of a loop head after the head was evaluated. Inside the loop this is a return
from the tail, counted on the top; otherwise the loop is entered anew. -/
def evaluate (r : Record) (entered : Bool) : Record :=
  { r with
    passes := if r.inProgress then bump r.passes else 0 :: r.passes
    inProgress := entered }

/-- From where a loop head was reached. -/
inductive Origin
  /-- The head was reached from the tail of the loop. -/
  | tail
  /-- The head was reached from above. -/
  | above

/-- Takes back the last evaluation of a loop head: a positive counter says that the head was
reached from the tail, and zero that the loop was entered anew. -/
def unevaluate? (r : Record) : Option (Origin × Record) :=
  match r.passes with
  | [] => none
  | 0 :: passes => some (.above, { r with passes, inProgress := false })
  | (n + 1) :: passes => some (.tail, { r with passes := n :: passes, inProgress := true })

end Record

/-- The records of the instructions of a program, by index. -/
abbrev Ledger := Array Record

namespace Ledger

/-- The records of `n` instructions that never ran. -/
def blank (n : Nat) : Ledger := Array.replicate n Record.blank

/-- The record of an instruction. -/
def recordAt (l : Ledger) (i : Nat) : Record := l.getD i Record.blank

/-- The ledger with another record for one instruction. -/
def write (l : Ledger) (i : Nat) (r : Record) : Ledger := l.setIfInBounds i r

/-- No instruction has written anything down. -/
def isPristine (l : Ledger) : Bool := l.all Record.isPristine

/-- The records that are not blank, with their indices in order. -/
def marked (l : Ledger) : List (Nat × Record) :=
  l.toList.zipIdx.filterMap fun (r, i) => if r.isPristine then none else some (i, r)

@[simp] theorem size_blank (n : Nat) : (blank n).size = n := Array.size_replicate

@[simp] theorem size_write (l : Ledger) (i : Nat) (r : Record) : (l.write i r).size = l.size :=
  Array.size_setIfInBounds

/-- A written record is read back, and no other record changes. -/
theorem recordAt_write (l : Ledger) (i j : Nat) (r : Record) :
    (l.write i r).recordAt j = if i = j ∧ i < l.size then r else l.recordAt j := by
  simp only [recordAt, write, Array.getD_eq_getD_getElem?, Array.getElem?_setIfInBounds]
  by_cases hij : i = j
  · subst hij
    by_cases hi : i < l.size <;> simp [hi]
  · simp [hij]

@[simp] theorem recordAt_blank (n i : Nat) : (blank n).recordAt i = Record.blank := by
  simp only [recordAt, blank, Array.getD_eq_getD_getElem?, Array.getElem?_replicate]
  split <;> rfl

end Ledger

end ReversibleTape
