/-!
# Devices

A machine does no input and output by itself. It is given a device, which answers when a value
is read and takes the characters that are emitted. A device may have no value to offer yet;
that is an answer like any other, and the machine waits.

`Buffer` is the plain device: a queue of values to read, and the text emitted so far.
-/

namespace ReversibleTape

/-- What a machine reads from and emits to. -/
class Device (δ : Type) where
  /-- Answers a read, with nothing if there is no value yet. -/
  read : δ → Option Int × δ
  /-- Takes a character. -/
  emit : δ → Char → δ

/-- A queue of values to read and the text emitted so far. -/
structure Buffer where
  inputs : List Int := []
  output : String := ""
  deriving DecidableEq

namespace Buffer

/-- Queues a value. -/
def feed (b : Buffer) (value : Int) : Buffer := { b with inputs := b.inputs ++ [value] }

/-- The values of a text: the bytes of its characters. -/
def textValues (text : String) : List Int :=
  (text.toList.flatMap String.utf8EncodeChar).map fun byte => (byte.toNat : Int)

/-- Queues the bytes of a text. -/
def feedText (b : Buffer) (text : String) : Buffer :=
  { b with inputs := b.inputs ++ textValues text }

/-- A buffer with the bytes of a text queued. -/
def ofText (text : String) : Buffer := feedText {} text

/-- The number of queued values. -/
def pending (b : Buffer) : Nat := b.inputs.length

/-- Reads the value queued first. -/
def read (b : Buffer) : Option Int × Buffer :=
  match b.inputs with
  | [] => (none, b)
  | value :: inputs => (some value, { b with inputs })

/-- Takes a character. -/
def emit (b : Buffer) (c : Char) : Buffer := { b with output := b.output.push c }

/-- Hands over the text emitted so far. -/
def takeOutput (b : Buffer) : String × Buffer := (b.output, { b with output := "" })

instance : Device Buffer where
  read := read
  emit := emit

end Buffer

end ReversibleTape
