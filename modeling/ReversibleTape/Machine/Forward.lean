import ReversibleTape.Cell
import ReversibleTape.Machine.Fault
import ReversibleTape.Machine.State
import ReversibleTape.Pointer

/-!
# Steps forward

`State.forward` executes one instruction and answers with an `Outcome` and the state afterwards.
It is a function of the state and of the answer that the device gives if it is asked, so nothing
about devices is needed to say what a step does. A step that waits for a value, that is at the
end, or that fails leaves the state as it was: nothing is written before all checks are made.
-/

namespace ReversibleTape

/-- The outcome of a step forward. -/
inductive Outcome
  /-- The instruction was executed, and may have emitted a character. -/
  | executed (emitted : Option Char)
  /-- The instruction waits for a value. -/
  | inputPending
  /-- There is no instruction left. -/
  | halted
  | failed (fault : Fault)
  deriving DecidableEq

namespace State

/-- Executes the instruction at index `i`. -/
def perform (p : Program) (width : UInt32) (answer : Option Int) (i : Nat) (s : State) :
    Outcome × State :=
  let t := p.tokenAt i
  match t.kind with
  | .add =>
    (.executed none, { s.setCell (Cell.add width s.cell t.delta) with pc := i + 1 })
  | .shift =>
    match Pointer.shift? s.pointer t.delta with
    | none => (.failed (.pointerUnderflow i s.pointer t.delta), s)
    | some pointer => (.executed none, { s with pc := i + 1, pointer })
  | .output => (.executed (some (Cell.char s.cell)), { s with pc := i + 1 })
  | .input =>
    match answer with
    | none => (.inputPending, s)
    | some value =>
      match Cell.ofInput? width value with
      | none => (.failed (.invalidInputValue i value width), s)
      | some new =>
        let record := (s.ledger.recordAt i).save s.cell
        (.executed none, { (s.setRecord i record).setCell new with pc := i + 1 })
  | .zero =>
    let record := (s.ledger.recordAt i).save s.cell
    (.executed none, { (s.setRecord i record).setCell 0 with pc := i + 1 })
  | .loopOpen =>
    match t.partner with
    | none => (.failed (.unlinkedLoop i), s)
    | some tail =>
      let entered := s.cell != 0
      let record := (s.ledger.recordAt i).evaluate entered
      (.executed none,
        { s.setRecord i record with pc := if entered then i + 1 else tail + 1 })
  | .start | .loopClose | .finish =>
    if i = s.pc then (.halted, s) else (.executed none, { s with pc := i })

/-- Executes one instruction, given the answer of the device if it is asked. -/
def forward (p : Program) (width : UInt32) (answer : Option Int) (s : State) :
    Outcome × State :=
  match p.next? s.pc with
  | none => (.failed (.unlinkedLoop s.pc), s)
  | some i => s.perform p width answer i

end State

end ReversibleTape
