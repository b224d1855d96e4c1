/-!
# Configurations

`Config` holds what a machine is told before it loads a program: how many values a cell
takes, whether runs are folded when a source is read, and how many cells from the left a
fingerprint covers. The standard configuration has 256 values, folds, and covers 1000 cells.

Every operation on cells divides by the number of values, so a configuration is valid
exactly when that number is positive (`Config.validate_eq_ok_iff`). `Config.ofWidth` and
`Config.ofBits` build only valid ones.
-/

namespace ReversibleTape

/-- What a machine is told before it loads a program. -/
structure Config where
  /-- The number of values of a cell, which holds `0` up to one less. -/
  cellWidth : UInt32 := 256
  /-- Whether runs of additions and moves and the clearing loops are folded. -/
  optimize : Bool := true
  /-- The number of cells, counted from the left, that a fingerprint covers. -/
  fingerprintWindow : UInt64 := 1000
  deriving DecidableEq

/-- What is wrong with a configuration. -/
inductive ConfigError
  | zeroCellWidth
  | cellBitsOutOfRange (bits : UInt8)
  deriving DecidableEq

/-- The largest number of bits of a cell. -/
def Config.maxCellBits : UInt8 := 31

/-- The text of an error of configuration. -/
def ConfigError.message : ConfigError → String
  | zeroCellWidth => "cell_width must be positive"
  | cellBitsOutOfRange bits =>
    "cell bits must be in range [1, " ++ Nat.repr Config.maxCellBits.toNat ++ "], got "
      ++ Nat.repr bits.toNat

namespace Config

/-- The configuration of a machine that is told nothing. -/
def standard : Config := {}

/-- A configuration with a given number of cell values. -/
def ofWidth (cellWidth : UInt32) (optimize : Bool) : Except ConfigError Config :=
  if cellWidth = 0 then .error .zeroCellWidth else .ok { cellWidth, optimize }

/-- A folding configuration with cells of a given number of bits, at least 1 and at most
`Config.maxCellBits`. -/
def ofBits (bits : UInt8) : Except ConfigError Config :=
  if bits = 0 ∨ maxCellBits < bits then .error (.cellBitsOutOfRange bits)
  else ofWidth (1 <<< bits.toUInt32) true

/-- The same configuration with folding on or off. -/
def withOptimize (c : Config) (optimize : Bool) : Config := { c with optimize }

/-- The same configuration with another fingerprint window. -/
def withFingerprintWindow (c : Config) (cells : UInt64) : Config :=
  { c with fingerprintWindow := cells }

/-- The largest value of a cell. -/
def maxCell (c : Config) : UInt32 := c.cellWidth - 1

/-- Refuses a configuration whose cells have no value at all. -/
def validate (c : Config) : Except ConfigError Unit :=
  if c.cellWidth = 0 then .error .zeroCellWidth else .ok ()

/-- A configuration is valid exactly when its cells have a value. -/
theorem validate_eq_ok_iff (c : Config) : c.validate = .ok () ↔ 0 < c.cellWidth.toNat := by
  have hzero : c.cellWidth = 0 ↔ c.cellWidth.toNat = 0 := by
    rw [← UInt32.toNat_inj]; rfl
  rw [validate, Nat.pos_iff_ne_zero, ne_eq, ← hzero]
  by_cases h : c.cellWidth = 0 <;> simp [h]

/-- A truth value as it is written in texts. -/
def truthText (b : Bool) : String := if b then "true" else "false"

/-- A configuration in one line. -/
def describe (c : Config) : String :=
  "Config \x7b cells: 0.." ++ Nat.repr c.cellWidth.toNat
    ++ ", optimize: " ++ truthText c.optimize
    ++ ", fingerprint window: " ++ Nat.repr c.fingerprintWindow.toNat ++ " cells \x7d"

/-- A configuration with the names of its fields. -/
def describeFields (c : Config) : String :=
  "Config \x7b cell_width: " ++ Nat.repr c.cellWidth.toNat
    ++ ", optimize: " ++ truthText c.optimize
    ++ ", fingerprint_window: " ++ Nat.repr c.fingerprintWindow.toNat ++ " \x7d"

end Config

end ReversibleTape
