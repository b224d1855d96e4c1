import ReversibleTape.Bytes
import ReversibleTape.Datum
import ReversibleTape.Kind.Basic

/-!
# Stored kinds

A kind is stored in two ways. In bytes it is its code in four bytes, lowest first
(`Kind.toBytes`), and whatever follows the four bytes is left alone when it is read
(`Kind.ofBytes?`). As a self-describing value it is its label, either the bare text or a
record whose only field has the label as its name and holds nothing (`Kind.ofDatum?`).
-/

namespace ReversibleTape

namespace Kind

/-- A kind in four bytes. -/
def toBytes (k : Kind) : List UInt8 := Bytes.littleEndian 4 k.code.toNat

/-- Reads a kind from the first four bytes. -/
def ofBytes? (bytes : List UInt8) : Option Kind :=
  match Bytes.field? 4 bytes with
  | some (n, _) => ofCode? n
  | none => none

/-- A stored kind is read back, whatever follows it. -/
theorem ofBytes?_toBytes_append (k : Kind) (rest : List UInt8) :
    ofBytes? (k.toBytes ++ rest) = some k := by
  have h : k.code.toNat < Bytes.capacity 4 := by cases k <;> decide
  rw [ofBytes?, toBytes, Bytes.field?_littleEndian_append h]
  exact ofCode?_code k

/-- Reads a kind from its label, bare or as the name of an empty field. -/
def ofDatum? : Datum → Option Kind
  | .text s => ofLabel? s
  | .record [(s, .null)] => ofLabel? s
  | _ => none

end Kind

end ReversibleTape
