import ReversibleTape.Cell
import ReversibleTape.Machine.Fault
import ReversibleTape.Machine.State
import ReversibleTape.Pointer

/-!
# Steps back

`State.backward` undoes one instruction. Additions and moves are undone by the opposite
amount, overwritten cells from the values written down, and the evaluation of a loop head from
its counter: a positive counter says that the head was reached from the tail of the loop, where
the execution then rests again, and zero says that the loop was entered there. No device takes
part, so nothing is read again and nothing emitted is taken back. A step that fails leaves the
state as it was.
-/

namespace ReversibleTape

namespace State

/-- Undoes the instruction at index `i`. -/
def undo (p : Program) (width : UInt32) (i : Nat) (s : State) : Except Fault Unit × State :=
  let t := p.tokenAt i
  match t.kind with
  | .add =>
    (.ok (), { s.setCell (Cell.sub width s.cell t.delta) with pc := Program.settle i })
  | .shift =>
    match Pointer.shift? s.pointer (Word.negate t.delta) with
    | none => (.error (.pointerUnderflow i s.pointer (Word.negate t.delta)), s)
    | some pointer => (.ok (), { s with pc := Program.settle i, pointer })
  | .input | .zero =>
    match (s.ledger.recordAt i).restore? with
    | none => (.error (.undoStackUnderflow i t.kind), s)
    | some (old, record) =>
      (.ok (), { (s.setRecord i record).setCell old with pc := Program.settle i })
  | .loopOpen =>
    match t.partner with
    | none => (.error (.unlinkedLoop i), s)
    | some tail =>
      match (s.ledger.recordAt i).unevaluate? with
      | none => (.error (.undoStackUnderflow i t.kind), s)
      | some (.tail, record) => (.ok (), { s.setRecord i record with pc := tail })
      | some (.above, record) =>
        (.ok (), { s.setRecord i record with pc := Program.settle i })
  | .start | .loopClose | .output | .finish => (.ok (), { s with pc := Program.settle i })

/-- Undoes one instruction. -/
def backward (p : Program) (width : UInt32) (s : State) : Except Fault Unit × State :=
  if s.pc = 0 then (.error .reverseAtBeginning, s)
  else
    match p.previous? s.pc with
    | none => (.error (.unlinkedLoop (s.pc - 1)), s)
    | some i => s.undo p width i

end State

end ReversibleTape
