import ReversibleTape.Source.Lexeme
import ReversibleTape.Token

/-!
# Folding

`Token.ofLexemes` turns the lexemes of a source into tokens, with no frame and no links yet.
Without folding, each instruction character is a token of its own. With folding:

* **Runs**: consecutive additions are one addition of the sum, and consecutive moves are one
  move. A run whose sum reaches zero vanishes and takes the tokens before it out of reach: what
  follows starts a run of its own, so that `>+-<` is two moves.
* **Clearing loops**: a loop whose body is a single addition of one, up or down, clears the
  current cell, and becomes a `zero`.

A folded token stands at the place of its first character. Tokens are collected in a `Folder`,
latest first, which also knows whether the latest token may still absorb a run.
-/

namespace ReversibleTape

/-- The tokens read so far, latest first. -/
structure Folder where
  tokens : List Token := []
  /-- Whether the latest token may absorb a run of its kind. -/
  absorbing : Bool := false

namespace Folder

/-- Adds a token that is never merged with another. -/
def plain (f : Folder) (t : Token) : Folder := { tokens := t :: f.tokens }

/-- Adds an addition or a move, merged into the latest token if that may absorb it. -/
def run (optimize : Bool) (f : Folder) (t : Token) : Folder :=
  match f.absorbing, f.tokens with
  | true, last :: rest =>
    if last.kind = t.kind then
      if last.delta + t.delta = 0 then { tokens := rest }
      else { tokens := { last with delta := last.delta + t.delta } :: rest, absorbing := true }
    else { tokens := t :: last :: rest, absorbing := optimize }
  | _, tokens => { tokens := t :: tokens, absorbing := optimize }

/-- Adds the tail of a loop, or turns the loop into a `zero` if it only clears the cell. -/
def close (optimize : Bool) (f : Folder) (t : Token) : Folder :=
  match optimize, f.tokens with
  | true, body :: head :: rest =>
    if head.kind = .loopOpen ∧ body.kind = .add ∧ body.delta.natAbs = 1 then
      { tokens := { head with kind := .zero } :: rest }
    else f.plain t
  | _, _ => f.plain t

end Folder

/-- A token read at a place. -/
def Token.readAt (p : Position) (kind : Kind) (delta : Int) : Token :=
  { kind, delta, offset := some p.offset, line := p.line, column := p.column }

namespace Folder

/-- Adds one lexeme. -/
def read (optimize : Bool) (f : Folder) (l : Lexeme) : Folder :=
  match l.symbol with
  | .increment => f.run optimize (.readAt l.position .add 1)
  | .decrement => f.run optimize (.readAt l.position .add (-1))
  | .right => f.run optimize (.readAt l.position .shift 1)
  | .left => f.run optimize (.readAt l.position .shift (-1))
  | .loopOpen => f.plain (.readAt l.position .loopOpen 0)
  | .loopClose => f.close optimize (.readAt l.position .loopClose 0)
  | .output => f.plain (.readAt l.position .output 0)
  | .input => f.plain (.readAt l.position .input 0)
  | .newline => f

end Folder

/-- The tokens of the lexemes of a source, without frame and links. -/
def Token.ofLexemes (optimize : Bool) (lexemes : List Lexeme) : List Token :=
  (lexemes.foldl (Folder.read optimize) {}).tokens.reverse

end ReversibleTape
