/-!
# Instruction kinds

A program of the tape language is a sequence of instructions of nine kinds. Seven of them
do work: the two ends of a loop, an addition to the current cell, a move of the pointer,
output, input, and the clearing of the current cell that stands for the loops `[-]` and
`[+]`. The other two, `start` and `finish`, frame the sequence: they are the first and the
last instruction of every program and nowhere else.

`Kind.name` is the word a message uses, `Kind.code` the number a fingerprint hashes, and
`Kind.label` the word used where a kind is stored as text. All three tell the nine kinds
apart, and each is read back by its own reader (`ofName?`, `ofCode?`, `ofLabel?`).
-/

namespace ReversibleTape

/-- The kind of an instruction. -/
inductive Kind
  /-- The frame before the first instruction. -/
  | start
  /-- The head of a loop: passes beyond the partner when the current cell is zero. -/
  | loopOpen
  /-- The tail of a loop: goes back to the partner. -/
  | loopClose
  /-- Adds a signed amount to the current cell. -/
  | add
  /-- Moves the pointer by a signed amount. -/
  | shift
  /-- Emits the current cell as a character. -/
  | output
  /-- Overwrites the current cell with a value that is read. -/
  | input
  /-- Clears the current cell. -/
  | zero
  /-- The frame behind the last instruction. -/
  | finish
  deriving DecidableEq

namespace Kind

/-- The nine kinds in the order of their codes. -/
def all : List Kind :=
  [start, loopOpen, loopClose, add, shift, output, input, zero, finish]

theorem mem_all (k : Kind) : k ∈ all := by cases k <;> decide

/-- The number of a kind, its place in `Kind.all`. -/
def code : Kind → UInt8
  | start => 0
  | loopOpen => 1
  | loopClose => 2
  | add => 3
  | shift => 4
  | output => 5
  | input => 6
  | zero => 7
  | finish => 8

/-- The word that messages use for a kind. -/
def name : Kind → String
  | start => "start"
  | loopOpen => "loop_open"
  | loopClose => "loop_close"
  | add => "add"
  | shift => "shift"
  | output => "output"
  | input => "input"
  | zero => "zero"
  | finish => "end"

/-- The word under which a kind is stored as text. -/
def label : Kind → String
  | start => "Start"
  | loopOpen => "LoopOpen"
  | loopClose => "LoopClose"
  | add => "Add"
  | shift => "Shift"
  | output => "Output"
  | input => "Input"
  | zero => "Zero"
  | finish => "End"

/-- The kind with a given number. -/
def ofCode? (n : Nat) : Option Kind := all.find? fun k => k.code.toNat == n

/-- The kind with a given name. -/
def ofName? (s : String) : Option Kind := all.find? fun k => k.name == s

/-- The kind with a given label. -/
def ofLabel? (s : String) : Option Kind := all.find? fun k => k.label == s

theorem ofCode?_code (k : Kind) : ofCode? k.code.toNat = some k := by cases k <;> decide

theorem ofName?_name (k : Kind) : ofName? k.name = some k := by cases k <;> decide

theorem ofLabel?_label (k : Kind) : ofLabel? k.label = some k := by cases k <;> decide

/-- Distinct kinds have distinct codes. -/
theorem code_inj {k l : Kind} : k.code = l.code ↔ k = l := by
  cases k <;> cases l <;> decide

/-! ### Classes of kinds -/

/-- Both ends of a loop stand for its head. -/
def loopHead : Kind → Kind
  | loopClose => loopOpen
  | k => k

/-- The kinds that destroy the value of the cell they write. -/
def isLossy (k : Kind) : Bool := k == zero || k == input

/-- The two ends of a loop. -/
def isLoop (k : Kind) : Bool := k == loopOpen || k == loopClose

/-- The two kinds that frame a program. -/
def isSentinel (k : Kind) : Bool := k == start || k == finish

/-- The kinds that carry a signed amount, whose runs may be merged into one. -/
def isFoldable (k : Kind) : Bool := k == add || k == shift

end Kind

end ReversibleTape
