import ReversibleTape.Token

/-!
# Programs

A program is a sequence of tokens framed by a `start` and a `finish`, together with the text
it was read from. The structure alone does not say that the frame is there or that the loops
are linked; that is the business of `Program.validate`. What a program writes down while it
runs is not part of it either: it never changes.

`Program.render` is the canonical source text of a program, which holds one character for
each unit of an addition or a move and no comments.
-/

namespace ReversibleTape

/-- A sequence of tokens and the text it was read from. -/
structure Program where
  tokens : Array Token
  source : String := ""
  deriving DecidableEq

namespace Program

/-- The program without instructions. -/
def empty : Program := { tokens := #[Token.start, Token.finish] }

/-- The number of tokens, the frame included. -/
def size (p : Program) : Nat := p.tokens.size

/-- Nothing stands between the frame. -/
def isEmpty (p : Program) : Bool := p.size ≤ 2

/-- The index of the last token. -/
def endIndex (p : Program) : Nat := p.size - 1

/-- The token at an index, and a `finish` beyond the end. -/
def tokenAt (p : Program) (i : Nat) : Token := p.tokens.getD i Token.finish

/-- The kind of the token at an index, and `finish` beyond the end. -/
def kindAt (p : Program) (i : Nat) : Kind := (p.tokenAt i).kind

/-- The number of tokens of a kind. -/
def count (p : Program) (kind : Kind) : Nat := p.tokens.countP fun t => t.kind == kind

/-- The number of loops. -/
def loopSites (p : Program) : Nat := p.count .loopOpen

/-- The characters of the canonical source. -/
def glyphs (p : Program) : List Char := p.tokens.toList.flatMap Token.glyphs

/-- The canonical source. -/
def render (p : Program) : String := String.ofList p.glyphs

@[simp] theorem toList_render (p : Program) : p.render.toList = p.glyphs :=
  String.toList_ofList

theorem render_empty : empty.render = "" := rfl

end Program

end ReversibleTape
