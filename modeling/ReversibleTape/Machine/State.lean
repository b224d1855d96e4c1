import ReversibleTape.Program.Basic
import ReversibleTape.Record
import ReversibleTape.Tape.Basic

/-!
# States

The state of a machine is all that changes while a program runs: the index `pc` of the
instruction that the next step forward executes, the pointer, the tape, and the ledger of what
the instructions have written down. The program itself is not part of the state.

A step has two indices to tell apart, the one at which the state rests and the one of the
instruction that it executes or undoes. `Program.next?` and `Program.previous?` lead from the
first to the second: the frame at the start and the tail of a loop do nothing by themselves and
are passed on the way.
-/

namespace ReversibleTape

/-- All that changes while a program runs. -/
structure State where
  /-- The index at which the execution rests. -/
  pc : Nat := 0
  /-- The index of the current cell. -/
  pointer : Nat := 0
  tape : Tape := Tape.blank
  ledger : Ledger
  deriving DecidableEq

namespace State

/-- The state in which a program of `n` tokens is loaded. -/
def fresh (n : Nat) : State := { ledger := Ledger.blank n }

/-- The execution rests at the beginning, with the pointer at the first cell of a blank tape. -/
def isFresh (s : State) : Bool := s.pc == 0 && s.pointer == 0 && s.tape.isBlank

/-- The value of the current cell. -/
def cell (s : State) : UInt32 := s.tape.get s.pointer

/-- The state with another value in the current cell. -/
def setCell (s : State) (value : UInt32) : State :=
  { s with tape := s.tape.set s.pointer value }

/-- The state with another record for one instruction. -/
def setRecord (s : State) (i : Nat) (r : Record) : State :=
  { s with ledger := s.ledger.write i r }

@[simp] theorem cell_setCell (s : State) (value : UInt32) : (s.setCell value).cell = value := by
  simp [cell, setCell, Tape.get_set]

end State

namespace Program

/-- The index of the instruction that a step forward from `pc` executes: the start leads to the
index behind it, and the tail of a loop to the head. -/
def next? (p : Program) (pc : Nat) : Option Nat :=
  match p.kindAt pc with
  | .start => some (pc + 1)
  | .loopClose => (p.tokenAt pc).partner
  | _ => some pc

/-- The index of the instruction that a step back from `pc` undoes: the one before it, or the
head of the loop whose tail stands there. -/
def previous? (p : Program) (pc : Nat) : Option Nat :=
  match p.kindAt (pc - 1) with
  | .loopClose => (p.tokenAt (pc - 1)).partner
  | _ => some (pc - 1)

/-- The execution rests at the beginning rather than in front of the first instruction. -/
def settle (i : Nat) : Nat := if i = 1 then 0 else i

/-- A step forward from `pc` asks the device for a value. -/
def readsAt (p : Program) (pc : Nat) : Bool :=
  match p.next? pc with
  | some i => p.kindAt i == .input
  | none => false

end Program

end ReversibleTape
