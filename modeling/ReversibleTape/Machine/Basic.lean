import ReversibleTape.Device
import ReversibleTape.Fingerprint
import ReversibleTape.Machine.Backward
import ReversibleTape.Machine.Forward

/-!
# Machines

A machine is a program, a configuration, a state and a device. Every operation on a machine
answers with a result and with the machine as it is afterwards.

* `Machine.load` and `Machine.install` put another program into a machine and start afresh; if
  they fail, the machine is as before.
* `Machine.stepForward` executes one instruction. If that fails or waits, only the device has
  changed, and that only if a value was read from it.
* `Machine.stepBackward` undoes one instruction and leaves the device alone.
-/

namespace ReversibleTape

/-- A program at work. -/
structure Machine (δ : Type) where
  program : Program
  config : Config
  state : State
  device : δ

/-- What a step did. -/
inductive Progress
  /-- One instruction was executed or undone. -/
  | executed
  /-- The next instruction waits for a value. -/
  | inputPending
  /-- There is no instruction left. -/
  | halted
  deriving DecidableEq

namespace Machine

variable {δ : Type}

/-! ### Loading -/

/-- A machine with the empty program. -/
def ofConfig (config : Config) (device : δ) : Except MachineError (Machine δ) :=
  match config.validate with
  | .error e => .error (.setup (.invalidConfig e))
  | .ok () => .ok { program := .empty, config, state := .fresh Program.empty.size, device }

/-- Back to where the program was loaded: nothing has run and nothing is written down. -/
def reset (m : Machine δ) : Machine δ := { m with state := .fresh m.program.size }

/-- Puts a program into a machine and starts afresh. -/
def install (m : Machine δ) (program : Program) : Except MachineError Unit × Machine δ :=
  match program.validate with
  | .error e => (.error (.setup e), m)
  | .ok () => (.ok (), reset { m with program })

/-- Reads a program, folded as the configuration wants, and puts it into a machine. -/
def load (m : Machine δ) (source : String) : Except MachineError Unit × Machine δ :=
  match Program.ofSource source m.config.optimize with
  | .error e => (.error (.load e), m)
  | .ok program => m.install program

/-- A machine with the program of a source. -/
def ofSource (source : String) (config : Config) (device : δ) :
    Except MachineError (Machine δ) :=
  match ofConfig config device with
  | .error e => .error e
  | .ok m =>
    match m.load source with
    | (.error e, _) => .error e
    | (.ok (), m) => .ok m

/-! ### What can be seen -/

/-- The kind of the token at which the execution rests. -/
def currentKind (m : Machine δ) : Kind := m.program.kindAt m.state.pc

/-- The source offset of the token at which the execution rests. -/
def sourceOffset? (m : Machine δ) : Option Nat := (m.program.tokenAt m.state.pc).offset

/-- The execution rests at the beginning. -/
def atBeginning (m : Machine δ) : Bool := m.state.pc == 0

/-- The execution rests at the end. -/
def atEnd (m : Machine δ) : Bool := m.currentKind == .finish

/-- The fingerprint of what can be seen. -/
def fingerprint (m : Machine δ) : Fingerprint :=
  .compute m.state.tape (UInt64.ofNat m.state.pointer) m.currentKind m.config.fingerprintWindow

/-- A machine in one line. -/
def describe (m : Machine δ) : String :=
  "Stepper \x7b pc: " ++ Nat.repr m.state.pc ++ ", pointer: " ++ Nat.repr m.state.pointer
    ++ ", tokens: " ++ Nat.repr m.program.size
    ++ ", config: " ++ m.config.describeFields ++ ", .. \x7d"

/-! ### Steps -/

/-- Undoes one instruction. -/
def stepBackward (m : Machine δ) : Except Fault Progress × Machine δ :=
  match m with
  | { program, config, state, device } =>
    match state.backward program config.cellWidth with
    | (.ok (), state) => (.ok .executed, { program, config, state, device })
    | (.error fault, state) => (.error fault, { program, config, state, device })

variable [Device δ]

/-- The answer of a device, which is asked only if a value is wanted. -/
def consult (wanted : Bool) (device : δ) : Option Int × δ :=
  if wanted then Device.read device else (none, device)

/-- The device behind a step, which takes the character if there is one. -/
def deliver (device : δ) : Option Char → δ
  | none => device
  | some c => Device.emit device c

/-- Executes one instruction. -/
def stepForward (m : Machine δ) : Except Fault Progress × Machine δ :=
  match m with
  | { program, config, state, device } =>
    match consult (program.readsAt state.pc) device with
    | (answer, device) =>
      match state.forward program config.cellWidth answer with
      | (.executed emitted, state) =>
        (.ok .executed, { program, config, state, device := deliver device emitted })
      | (.inputPending, state) => (.ok .inputPending, { program, config, state, device })
      | (.halted, state) => (.ok .halted, { program, config, state, device })
      | (.failed fault, state) => (.error fault, { program, config, state, device })

end Machine

end ReversibleTape
