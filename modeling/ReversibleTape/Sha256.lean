import ReversibleTape.Bytes

/-!
# The SHA-256 digest

The SHA-256 hash function on byte strings. A message is padded to whole blocks of 64
bytes (`pad`); each block is read as sixteen words and stretched to a schedule of sixty-four
(`schedule`), whose words drive as many rounds on eight working words (`compress`). The digest
is the eight words of the chain after the last block, in bytes.
-/

namespace ReversibleTape

namespace Sha256

/-! ### Padding -/

/-- The number of zero bytes that complete the last block of a message of `n` bytes, which is
followed by one byte of marker and eight bytes of length. -/
def zeroCount (n : Nat) : Nat := (119 - n % 64) % 64

/-- A message in whole blocks: a marker, zeros, and the length in bits. -/
def pad (message : List UInt8) : List UInt8 :=
  message ++ 0x80 :: (List.replicate (zeroCount message.length) 0
    ++ Bytes.bigEndian 8 (8 * message.length))

/-- A padded message is made of whole blocks. -/
theorem length_pad_mod (message : List UInt8) : (pad message).length % 64 = 0 := by
  simp only [pad, zeroCount, Bytes.bigEndian, List.length_append, List.length_cons,
    List.length_replicate, List.length_reverse, Bytes.length_littleEndian]
  omega

/-! ### The schedule of a block -/

/-- Rotation to the right, by fewer than 32 places. -/
def rotate (x : UInt32) (n : UInt32) : UInt32 := (x >>> n) ||| (x <<< (32 - n))

/-- Mixes the word fifteen places back. -/
def smallSigma0 (x : UInt32) : UInt32 := rotate x 7 ^^^ rotate x 18 ^^^ (x >>> 3)

/-- Mixes the word two places back. -/
def smallSigma1 (x : UInt32) : UInt32 := rotate x 17 ^^^ rotate x 19 ^^^ (x >>> 10)

/-- The word whose four bytes, highest first, start at an index. -/
def wordAt (bytes : Array UInt8) (i : Nat) : UInt32 :=
  ((bytes.getD i 0).toUInt32 <<< 24) ||| ((bytes.getD (i + 1) 0).toUInt32 <<< 16)
    ||| ((bytes.getD (i + 2) 0).toUInt32 <<< 8) ||| (bytes.getD (i + 3) 0).toUInt32

/-- One word more. -/
def extend (w : Array UInt32) : Array UInt32 :=
  let back (n : Nat) : UInt32 := w.getD (w.size - n) 0
  w.push (smallSigma1 (back 2) + back 7 + smallSigma0 (back 15) + back 16)

/-- The sixty-four words of the block that starts at an index. -/
def schedule (bytes : Array UInt8) (first : Nat) : Array UInt32 :=
  (List.range 48).foldl (fun w _ => extend w)
    (Array.ofFn fun i : Fin 16 => wordAt bytes (first + 4 * i))

/-! ### Rounds -/

/-- Eight working words. -/
structure Words where
  a : UInt32
  b : UInt32
  c : UInt32
  d : UInt32
  e : UInt32
  f : UInt32
  g : UInt32
  h : UInt32

namespace Words

/-- Adds word by word. -/
def add (x y : Words) : Words where
  a := x.a + y.a
  b := x.b + y.b
  c := x.c + y.c
  d := x.d + y.d
  e := x.e + y.e
  f := x.f + y.f
  g := x.g + y.g
  h := x.h + y.h

/-- The words in order. -/
def toList (x : Words) : List UInt32 := [x.a, x.b, x.c, x.d, x.e, x.f, x.g, x.h]

end Words

/-- The words before the first block. -/
def initial : Words where
  a := 0x6a09e667
  b := 0xbb67ae85
  c := 0x3c6ef372
  d := 0xa54ff53a
  e := 0x510e527f
  f := 0x9b05688c
  g := 0x1f83d9ab
  h := 0x5be0cd19

/-- The constants of the sixty-four rounds. -/
def roundConstants : List UInt32 :=
  [0x428a2f98, 0x71374491, 0xb5c0fbcf, 0xe9b5dba5, 0x3956c25b, 0x59f111f1, 0x923f82a4, 0xab1c5ed5,
   0xd807aa98, 0x12835b01, 0x243185be, 0x550c7dc3, 0x72be5d74, 0x80deb1fe, 0x9bdc06a7, 0xc19bf174,
   0xe49b69c1, 0xefbe4786, 0x0fc19dc6, 0x240ca1cc, 0x2de92c6f, 0x4a7484aa, 0x5cb0a9dc, 0x76f988da,
   0x983e5152, 0xa831c66d, 0xb00327c8, 0xbf597fc7, 0xc6e00bf3, 0xd5a79147, 0x06ca6351, 0x14292967,
   0x27b70a85, 0x2e1b2138, 0x4d2c6dfc, 0x53380d13, 0x650a7354, 0x766a0abb, 0x81c2c92e, 0x92722c85,
   0xa2bfe8a1, 0xa81a664b, 0xc24b8b70, 0xc76c51a3, 0xd192e819, 0xd6990624, 0xf40e3585, 0x106aa070,
   0x19a4c116, 0x1e376c08, 0x2748774c, 0x34b0bcb5, 0x391c0cb3, 0x4ed8aa4a, 0x5b9cca4f, 0x682e6ff3,
   0x748f82ee, 0x78a5636f, 0x84c87814, 0x8cc70208, 0x90befffa, 0xa4506ceb, 0xbef9a3f7, 0xc67178f2]

/-- One round with a constant and a word of the schedule. -/
def round (x : Words) (k w : UInt32) : Words :=
  let sigma1 := rotate x.e 6 ^^^ rotate x.e 11 ^^^ rotate x.e 25
  let choice := (x.e &&& x.f) ^^^ (~~~x.e &&& x.g)
  let t1 := x.h + sigma1 + choice + k + w
  let sigma0 := rotate x.a 2 ^^^ rotate x.a 13 ^^^ rotate x.a 22
  let majority := (x.a &&& x.b) ^^^ (x.a &&& x.c) ^^^ (x.b &&& x.c)
  let t2 := sigma0 + majority
  { a := t1 + t2, b := x.a, c := x.b, d := x.c, e := x.d + t1, f := x.e, g := x.f, h := x.g }

/-- Takes the block that starts at an index into the chain. -/
def compress (bytes : Array UInt8) (chain : Words) (first : Nat) : Words :=
  let rounds := roundConstants.zip (schedule bytes first).toList
  chain.add (rounds.foldl (fun x (k, w) => round x k w) chain)

/-- The digest of a message, thirty-two bytes. -/
def digest (message : List UInt8) : List UInt8 :=
  let bytes := (pad message).toArray
  let chain := (List.range (bytes.size / 64)).foldl
    (fun chain block => compress bytes chain (64 * block)) initial
  chain.toList.flatMap fun word => Bytes.bigEndian 4 word.toNat

@[simp] theorem length_digest (message : List UInt8) : (digest message).length = 32 := by
  simp [digest, Words.toList, Bytes.bigEndian]

end Sha256

end ReversibleTape
