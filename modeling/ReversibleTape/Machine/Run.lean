import ReversibleTape.Machine.Basic

/-!
# Runs

`Machine.run` steps forward until the program ends, waits for a value, or has made a given
number of steps, and `Machine.rewind` steps back until the beginning. Both answer with the
number of steps and with the reason for which they stopped; a fault ends a run with the machine
in the state that the steps before it reached.

`execute` loads a source, feeds it the bytes of a text and runs it.
-/

namespace ReversibleTape

/-- Why a run stopped. -/
inductive StopReason
  /-- The end of the program was reached. -/
  | finished
  /-- The beginning of the program was reached. -/
  | rewound
  /-- A value is missing. -/
  | inputPending
  /-- All steps that were allowed are made. -/
  | stepLimit
  deriving DecidableEq

/-- How a run went. -/
structure RunSummary where
  /-- The number of instructions executed or undone. -/
  steps : Nat
  stop : StopReason
  deriving DecidableEq

/-- The number of steps of a run that nothing else limits. -/
def unlimited : Nat := UInt64.size - 1

namespace Machine

variable {δ : Type}

section
variable [Device δ]

/-- Runs for at most `budget` steps, after `steps` that were made already. -/
def runFrom (steps : Nat) : Nat → Machine δ → Except Fault RunSummary × Machine δ
  | 0, m =>
    if m.atEnd then (.ok { steps, stop := .finished }, m)
    else (.ok { steps, stop := .stepLimit }, m)
  | budget + 1, m =>
    if m.atEnd then (.ok { steps, stop := .finished }, m)
    else
      match m.stepForward with
      | (.ok .executed, m) => runFrom (steps + 1) budget m
      | (.ok .inputPending, m) => (.ok { steps, stop := .inputPending }, m)
      | (.ok .halted, m) => (.ok { steps, stop := .finished }, m)
      | (.error fault, m) => (.error fault, m)

/-- Steps forward, at most `budget` times. -/
def run (m : Machine δ) (budget : Nat) : Except Fault RunSummary × Machine δ :=
  runFrom 0 budget m

end

/-- Steps back at most `budget` times, after `steps` that were made already. -/
def rewindFrom (steps : Nat) : Nat → Machine δ → Except Fault RunSummary × Machine δ
  | 0, m =>
    if m.atBeginning then (.ok { steps, stop := .rewound }, m)
    else (.ok { steps, stop := .stepLimit }, m)
  | budget + 1, m =>
    if m.atBeginning then (.ok { steps, stop := .rewound }, m)
    else
      match m.stepBackward with
      | (.ok _, m) => rewindFrom (steps + 1) budget m
      | (.error fault, m) => (.error fault, m)

/-- Steps back, at most `budget` times. -/
def rewind (m : Machine δ) (budget : Nat) : Except Fault RunSummary × Machine δ :=
  rewindFrom 0 budget m

end Machine

/-! ### Whole executions -/

/-- What came of a source that was run. -/
structure Execution where
  /-- The text that was emitted. -/
  output : String
  steps : Nat
  stop : StopReason
  deriving DecidableEq

/-- The end of the program was reached. -/
def Execution.finished (e : Execution) : Bool := e.stop == .finished

/-- Runs a source on the bytes of a text until it ends or waits. -/
def execute (source input : String) (config : Config) : Except MachineError Execution :=
  match Machine.ofSource source config (Buffer.ofText input) with
  | .error e => .error e
  | .ok m =>
    match m.run unlimited with
    | (.error fault, _) => .error (.fault fault)
    | (.ok summary, m) =>
      .ok { output := m.device.output, steps := summary.steps, stop := summary.stop }

end ReversibleTape
