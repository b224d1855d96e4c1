import ReversibleTape.Kind.Basic

/-!
# Tokens

A token is one instruction of a program together with the place in the source where it was
read. Which of its fields matter depends on its kind: an addition and a move have an amount,
the two ends of a loop have the index of their partner, and only what was read from a source
has an offset.

`Token.glyphs` is the source text of a token, and `Token.describe` its text in listings.

**Memory is not limited here**: an amount of any size has its text, one character for each unit
(`Token.run`). To write out the text of an amount like `2 ^ 62`, a computer would have to find room
for as many characters, and would give up instead.
-/

namespace ReversibleTape

/-- One instruction of a program. -/
structure Token where
  /-- What the instruction does. -/
  kind : Kind
  /-- The amount of an addition or of a move, and 0 for every other kind. -/
  delta : Int := 0
  /-- The index of the other end of a loop. -/
  partner : Option Nat := none
  /-- The offset in bytes of the first source character. -/
  offset : Option Nat := none
  /-- The source line, counted from 1. -/
  line : Nat := 0
  /-- The source column in characters, counted from 1. -/
  column : Nat := 0
  deriving DecidableEq

namespace Token

/-- The token that stands first in a program. -/
def start : Token := { kind := .start }

/-- The token that stands last in a program. -/
def finish : Token := { kind := .finish }

/-! ### Source text -/

/-- A signed amount as a run of one of two characters, however long. -/
def run (up down : Char) (delta : Int) : List Char :=
  List.replicate delta.natAbs (if 0 < delta then up else down)

/-- The source text of a token; the frame of a program has none. -/
def glyphs (t : Token) : List Char :=
  match t.kind with
  | .start | .finish => []
  | .add => run '+' '-' t.delta
  | .shift => run '>' '<' t.delta
  | .loopOpen => ['[']
  | .loopClose => [']']
  | .output => ['.']
  | .input => [',']
  | .zero => ['[', '-', ']']

/-! ### Listings -/

/-- An integer in decimal digits, with a minus sign if it is negative. -/
def decimal (n : Int) : String :=
  if n < 0 then "-" ++ Nat.repr n.natAbs else Nat.repr n.natAbs

/-- An integer with its sign, which is a plus sign at zero. -/
def signed (n : Int) : String :=
  if n < 0 then decimal n else "+" ++ decimal n

/-- The instruction of a token without its place. -/
def describeInstruction (t : Token) : String :=
  match t.kind with
  | .add | .shift => t.kind.name ++ "(" ++ signed t.delta ++ ")"
  | .loopOpen | .loopClose =>
    match t.partner with
    | some i => t.kind.name ++ " -> " ++ Nat.repr i
    | none => t.kind.name
  | _ => t.kind.name

/-- The text of a token in listings: the instruction, and the place of what was read from a
source. -/
def describe (t : Token) : String :=
  match t.offset with
  | some _ =>
    t.describeInstruction ++ " @ " ++ Nat.repr t.line ++ ":" ++ Nat.repr t.column
  | none => t.describeInstruction

end Token

end ReversibleTape
