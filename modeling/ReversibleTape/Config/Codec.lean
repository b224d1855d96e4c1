import ReversibleTape.Bytes
import ReversibleTape.Config.Basic
import ReversibleTape.Datum

/-!
# Stored configurations

A configuration is stored in three ways.

* **Bytes** (`Config.toBytes`): the cell width in four bytes, one byte for folding, the
  window in eight bytes, numbers lowest byte first. `Config.ofBytes?` leaves alone whatever
  follows and refuses a folding byte other than 0 and 1.
* **A self-describing value** (`Config.ofDatum?`): a record of named fields, in which a field
  that is missing has its standard value and a field of another name is ignored, or the list
  of the three values in order, from which values may be missing at the end. A field that is
  present has to have its own shape and range.
* **Text** (`Config.toJson`): the record of the three fields.

Reading does not validate: a stored cell width of zero is read as such.
-/

namespace ReversibleTape

namespace Config

/-! ### Bytes -/

/-- The byte that stores a truth value. -/
def truthByte (b : Bool) : UInt8 := if b then 1 else 0

/-- A configuration in thirteen bytes. -/
def toBytes (c : Config) : List UInt8 :=
  Bytes.littleEndian 4 c.cellWidth.toNat ++
    truthByte c.optimize :: Bytes.littleEndian 8 c.fingerprintWindow.toNat

/-- Reads a truth value from a number. -/
def truthOfNat? : Nat → Option Bool
  | 0 => some false
  | 1 => some true
  | _ => none

/-- Reads a configuration from the first thirteen bytes. -/
def ofBytes? (bytes : List UInt8) : Option Config := do
  let (width, bytes) ← Bytes.field? 4 bytes
  let (flag, bytes) ← Bytes.field? 1 bytes
  let optimize ← truthOfNat? flag
  let (window, _) ← Bytes.field? 8 bytes
  return {
    cellWidth := UInt32.ofNat width
    optimize
    fingerprintWindow := UInt64.ofNat window }

/-! ### Self-describing values -/

/-- Reads a cell width. -/
def widthOfDatum? (d : Datum) : Option UInt32 := (d.below? UInt32.size).map UInt32.ofNat

/-- Reads a fingerprint window. -/
def windowOfDatum? (d : Datum) : Option UInt64 := (d.below? UInt64.size).map UInt64.ofNat

/-- Reads a value that may be missing; what is missing has its standard value. -/
def orStandard {α : Type} (read : Datum → Option α) (standard : α) : Option Datum → Option α
  | none => some standard
  | some d => read d

/-- Reads a configuration from its three values, each of which may be missing. -/
def ofParts? (width optimize window : Option Datum) : Option Config := do
  let cellWidth ← orStandard widthOfDatum? standard.cellWidth width
  let optimize ← orStandard Datum.truth? standard.optimize optimize
  let fingerprintWindow ← orStandard windowOfDatum? standard.fingerprintWindow window
  return { cellWidth, optimize, fingerprintWindow }

/-- Reads a configuration from a record or from a list. -/
def ofDatum? : Datum → Option Config
  | .record fields =>
    ofParts? (Datum.fieldNamed? fields "cell_width") (Datum.fieldNamed? fields "optimize")
      (Datum.fieldNamed? fields "fingerprint_window")
  | .list items => if items.length ≤ 3 then ofParts? items[0]? items[1]? items[2]? else none
  | _ => none

/-! ### Text -/

/-- A configuration as the text of a record. -/
def toJson (c : Config) : String :=
  "\x7b\"cell_width\":" ++ Nat.repr c.cellWidth.toNat
    ++ ",\"optimize\":" ++ truthText c.optimize
    ++ ",\"fingerprint_window\":" ++ Nat.repr c.fingerprintWindow.toNat ++ "\x7d"

end Config

end ReversibleTape
