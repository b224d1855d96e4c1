import ReversibleTape.Device

/-!
# Consoles

A console is a device with exchangeable ends. It has a buffer, a script of prepared answers
and a transcript, and at each time one end reads and one end emits: reading is from the buffer,
from the script or from nothing, and emitting is to the buffer, to the transcript or to nothing.
Plugging another end in does not touch what the others hold.

A prepared answer may be that there is no value yet; it is used up like any other. When the
script is used up, there are no more values.
-/

namespace ReversibleTape

namespace Console

/-- From where a console reads. -/
inductive InputEnd
  | nothing
  | buffer
  | script
  deriving DecidableEq

/-- To where a console emits. -/
inductive OutputEnd
  | nothing
  | buffer
  | transcript
  deriving DecidableEq

end Console

/-- A device with exchangeable ends. -/
structure Console where
  buffer : Buffer := {}
  script : List (Option Int) := []
  transcript : String := ""
  inputEnd : Console.InputEnd := .nothing
  outputEnd : Console.OutputEnd := .nothing
  deriving DecidableEq

namespace Console

/-- Reads from and emits to the buffer. -/
def plugBuffer (c : Console) : Console := { c with inputEnd := .buffer, outputEnd := .buffer }

/-- Reads from and emits to nothing. -/
def unplug (c : Console) : Console := { c with inputEnd := .nothing, outputEnd := .nothing }

/-- Reads from a new script. -/
def plugScript (c : Console) (script : List (Option Int)) : Console :=
  { c with script, inputEnd := .script }

/-- Emits to the transcript. -/
def plugTranscript (c : Console) : Console := { c with outputEnd := .transcript }

/-- Reads from the end that is plugged in. -/
def read (c : Console) : Option Int × Console :=
  match c.inputEnd with
  | .nothing => (none, c)
  | .buffer =>
    match c.buffer.read with
    | (answer, buffer) => (answer, { c with buffer })
  | .script =>
    match c.script with
    | [] => (none, c)
    | answer :: script => (answer, { c with script })

/-- Emits to the end that is plugged in. -/
def emit (c : Console) (char : Char) : Console :=
  match c.outputEnd with
  | .nothing => c
  | .buffer => { c with buffer := c.buffer.emit char }
  | .transcript => { c with transcript := c.transcript.push char }

instance : Device Console where
  read := read
  emit := emit

end Console

end ReversibleTape
