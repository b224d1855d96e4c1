import ReversibleTape.Kind.Basic
import ReversibleTape.Source.Load
import ReversibleTape.Token

/-!
# Faults and errors

A `Fault` is what can go wrong in a single step. `MachineError` is what can go wrong with a
machine as a whole: a source that is refused, a preparation that fails, or a fault. Each has
one function that gives its text, and one that gives the index of the instruction to blame.
-/

namespace ReversibleTape

/-- What can go wrong in a step. -/
inductive Fault
  /-- A move that leaves the tape, or the range of pointers. -/
  | pointerUnderflow (pc pointer : Nat) (delta : Int)
  /-- An instruction that has nothing written down to be undone from. -/
  | undoStackUnderflow (pc : Nat) (kind : Kind)
  /-- A value that does not fit in a cell. -/
  | invalidInputValue (pc : Nat) (value : Int) (cellWidth : UInt32)
  /-- An end of a loop without the other end. -/
  | unlinkedLoop (pc : Nat)
  /-- A step back from the beginning. -/
  | reverseAtBeginning
  deriving DecidableEq

namespace Fault

/-- The text of a fault. -/
def message : Fault → String
  | pointerUnderflow pc pointer delta =>
    "Pointer underflow at PC " ++ Nat.repr pc ++ ": pointer " ++ Nat.repr pointer
      ++ " shifted by " ++ Token.decimal delta
  | undoStackUnderflow pc kind =>
    "Undo stack underflow at PC " ++ Nat.repr pc ++ ": " ++ kind.name
      ++ " reversed before it ran forward"
  | invalidInputValue pc value cellWidth =>
    "Invalid input value " ++ Token.decimal value ++ " at PC " ++ Nat.repr pc
      ++ ": cells hold 0.." ++ Nat.repr cellWidth.toNat
  | unlinkedLoop pc => "Loop token at PC " ++ Nat.repr pc ++ " has no partner"
  | reverseAtBeginning => "Cannot step backward from the beginning of the program"

/-- The index of the instruction to blame. -/
def pc? : Fault → Option Nat
  | pointerUnderflow pc _ _ => some pc
  | undoStackUnderflow pc _ => some pc
  | invalidInputValue pc _ _ => some pc
  | unlinkedLoop pc => some pc
  | reverseAtBeginning => none

end Fault

/-- What can go wrong with a machine. -/
inductive MachineError
  | load (error : LoadError)
  | setup (error : SetupError)
  | fault (fault : Fault)
  deriving DecidableEq

namespace MachineError

/-- The text of an error of a machine. -/
def message : MachineError → String
  | load error => "Load error: " ++ error.message
  | setup error => "Invalid program: " ++ error.message
  | fault f => f.message

/-- The index of the instruction to blame. -/
def pc? : MachineError → Option Nat
  | load _ => none
  | setup _ => none
  | fault f => f.pc?

end MachineError

end ReversibleTape
