/-!
# Bytes and numbers

`Bytes.littleEndian n x` writes a number in `n` bytes, the lowest byte first, and
`Bytes.ofLittleEndian` reads it back; `ofLittleEndian_littleEndian` says that nothing is
lost as long as the number is below `Bytes.capacity n`, and `ofLittleEndian_inj` that byte strings
of one length have different numbers. `Bytes.bigEndian` is the same bytes in the opposite order.
`Bytes.field?` splits a field of fixed width off the front of a byte string, which is how
records of several fields are read.

`Bytes.hex` writes bytes as pairs of lower-case hexadecimal digits.
-/

namespace ReversibleTape

namespace Bytes

/-! ### Numbers as bytes -/

/-- The lowest `n` bytes of a number, lowest first. -/
def littleEndian : Nat → Nat → List UInt8
  | 0, _ => []
  | n + 1, x => UInt8.ofNat (x % 256) :: littleEndian n (x / 256)

/-- The lowest `n` bytes of a number, highest first. -/
def bigEndian (n x : Nat) : List UInt8 := (littleEndian n x).reverse

/-- The number whose bytes, lowest first, are given. -/
def ofLittleEndian (bytes : List UInt8) : Nat :=
  bytes.foldr (fun b rest => b.toNat + 256 * rest) 0

/-- The number whose bytes, highest first, are given. -/
def ofBigEndian (bytes : List UInt8) : Nat := ofLittleEndian bytes.reverse

/-- The number of values of `n` bytes. -/
def capacity : Nat → Nat
  | 0 => 1
  | n + 1 => 256 * capacity n

@[simp] theorem length_littleEndian (n x : Nat) : (littleEndian n x).length = n := by
  induction n generalizing x with
  | zero => rfl
  | succ n ih => simp [littleEndian, ih]

/-- Reading the lowest `n` bytes gives the number modulo their capacity. -/
theorem ofLittleEndian_littleEndian_mod (n x : Nat) :
    ofLittleEndian (littleEndian n x) = x % capacity n := by
  induction n generalizing x with
  | zero => simp [littleEndian, ofLittleEndian, capacity, Nat.mod_one]
  | succ n ih =>
    have h := ih (x / 256)
    simp only [ofLittleEndian] at h
    simp only [littleEndian, ofLittleEndian, List.foldr_cons, h]
    rw [capacity, Nat.mod_mul]
    simp [UInt8.toNat_ofNat']

/-- A number that fits in `n` bytes is read back. -/
theorem ofLittleEndian_littleEndian {n x : Nat} (h : x < capacity n) :
    ofLittleEndian (littleEndian n x) = x := by
  rw [ofLittleEndian_littleEndian_mod, Nat.mod_eq_of_lt h]

/-- A number that fits in `n` bytes is told by them. -/
theorem littleEndian_inj {n x y : Nat} (h : littleEndian n x = littleEndian n y)
    (hx : x < capacity n) (hy : y < capacity n) : x = y := by
  rw [← ofLittleEndian_littleEndian hx, h, ofLittleEndian_littleEndian hy]

theorem ofLittleEndian_cons (b : UInt8) (bytes : List UInt8) :
    ofLittleEndian (b :: bytes) = b.toNat + 256 * ofLittleEndian bytes := rfl

theorem ofLittleEndian_lt (bytes : List UInt8) : ofLittleEndian bytes < capacity bytes.length := by
  induction bytes with
  | nil => exact Nat.one_pos
  | cons b bytes ih =>
    have hb := b.toNat_lt
    rw [ofLittleEndian_cons, List.length_cons, capacity]
    omega

/-- Byte strings of one length are told by their numbers. -/
theorem ofLittleEndian_inj {bytes bytes' : List UInt8} (hlength : bytes.length = bytes'.length)
    (h : ofLittleEndian bytes = ofLittleEndian bytes') : bytes = bytes' := by
  induction bytes generalizing bytes' with
  | nil => exact (List.eq_nil_of_length_eq_zero hlength.symm).symm
  | cons b bytes ih =>
    cases bytes' with
    | nil => cases hlength
    | cons b' bytes' =>
      have hb := b.toNat_lt
      have hb' := b'.toNat_lt
      rw [ofLittleEndian_cons, ofLittleEndian_cons] at h
      have hfirst : b = b' := UInt8.toNat_inj.mp (by omega)
      have hrest : bytes = bytes' := ih (Nat.succ.inj hlength) (by omega)
      rw [hfirst, hrest]

/-- Splits a number of `n` bytes, lowest first, off the front of a byte string. -/
def field? (n : Nat) (bytes : List UInt8) : Option (Nat × List UInt8) :=
  if n ≤ bytes.length then some (ofLittleEndian (bytes.take n), bytes.drop n) else none

/-- A field that was written is split off again, whatever follows it. -/
theorem field?_littleEndian_append {n x : Nat} (h : x < capacity n) (rest : List UInt8) :
    field? n (littleEndian n x ++ rest) = some (x, rest) := by
  have hlen := length_littleEndian n x
  have htake : (littleEndian n x ++ rest).take n = littleEndian n x :=
    List.take_left' hlen
  have hdrop : (littleEndian n x ++ rest).drop n = rest := List.drop_left' hlen
  simp [field?, htake, hdrop, ofLittleEndian_littleEndian h]

/-! ### Hexadecimal text -/

/-- The two lower-case hexadecimal digits of a byte. -/
def hexDigits (b : UInt8) : List Char :=
  [Nat.digitChar (b.toNat / 16), Nat.digitChar (b.toNat % 16)]

/-- Bytes as text, two lower-case hexadecimal digits each. -/
def hex (bytes : List UInt8) : String := String.ofList (bytes.flatMap hexDigits)

/-- The value of a lower-case hexadecimal digit. -/
def hexValue? (c : Char) : Option Nat :=
  (List.range 16).find? fun n => Nat.digitChar n == c

/-- One digit pair more at the end of the bytes read so far, latest first, or a first digit
that waits for its second. -/
def hexStep : Option (List UInt8 × Option Nat) → Char → Option (List UInt8 × Option Nat)
  | none, _ => none
  | some (bytes, none), c => (hexValue? c).map fun n => (bytes, some n)
  | some (bytes, some high), c =>
    (hexValue? c).map fun n => (UInt8.ofNat (16 * high + n) :: bytes, none)

/-- Reads bytes from pairs of lower-case hexadecimal digits. -/
def ofHex? (text : String) : Option (List UInt8) :=
  match text.toList.foldl hexStep (some ([], none)) with
  | some (bytes, none) => some bytes.reverse
  | _ => none

end Bytes

end ReversibleTape
