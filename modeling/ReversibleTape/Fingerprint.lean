import ReversibleTape.Kind.Basic
import ReversibleTape.Sha256
import ReversibleTape.Tape.Basic

/-!
# Fingerprints

A fingerprint is a short number for what can be seen of a machine: the cells in a window at
the left of the tape, the pointer, and the kind of the next instruction, where the tail of a
loop counts as its head. These are written as one byte string (`Fingerprint.message`): an index
and a value for each cell in the window that is not zero, then the pointer, then the code of
the kind. The fingerprint is the first eight bytes of the SHA-256 digest of that string, as a
number with the lowest byte first.
-/

namespace ReversibleTape

/-- A short number for what can be seen of a machine. -/
structure Fingerprint where
  value : UInt64
  deriving DecidableEq

namespace Fingerprint

/-- An index in eight bytes and a cell value in four. -/
def cellBytes (cell : Nat × UInt32) : List UInt8 :=
  Bytes.littleEndian 8 cell.1 ++ Bytes.littleEndian 4 cell.2.toNat

/-- The byte string that is hashed. -/
def message (tape : Tape) (pointer : UInt64) (kind : Kind) (window : UInt64) : List UInt8 :=
  (tape.nonzeroWithin window.toNat).flatMap cellBytes
    ++ Bytes.littleEndian 8 pointer.toNat ++ [kind.loopHead.code]

/-- The fingerprint of a byte string. -/
def ofMessage (message : List UInt8) : Fingerprint where
  value := UInt64.ofNat (Bytes.ofLittleEndian ((Sha256.digest message).take 8))

/-- The fingerprint of what can be seen. -/
def compute (tape : Tape) (pointer : UInt64) (kind : Kind) (window : UInt64) : Fingerprint :=
  ofMessage (message tape pointer kind window)

/-- A fingerprint in sixteen hexadecimal digits. -/
def hex (f : Fingerprint) : String := Bytes.hex (Bytes.bigEndian 8 f.value.toNat)

end Fingerprint

end ReversibleTape
