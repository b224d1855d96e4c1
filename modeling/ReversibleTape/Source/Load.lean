import ReversibleTape.Program.Defect
import ReversibleTape.Source.Bracket
import ReversibleTape.Source.Folding
import ReversibleTape.Source.Link

/-!
# Programs from sources

`Program.ofSource` reads a program from a source text, with or without folding. The only way
in which a text can be refused is by its brackets: they are checked on the lexemes, before
anything is folded, so the answer does not depend on folding.
-/

namespace ReversibleTape

/-- Why a source is refused. -/
inductive LoadError
  | unmatchedBracket (marker : Char) (position : Position)
  | setup (error : SetupError)
  deriving DecidableEq

namespace LoadError

/-- The text of an error of loading. -/
def message : LoadError → String
  | unmatchedBracket marker position =>
    "Unmatched '" ++ String.singleton marker ++ "' at line " ++ Nat.repr position.line
      ++ ", column " ++ Nat.repr position.column
      ++ " (byte " ++ Nat.repr position.offset ++ ")"
  | setup error => error.message

/-- The offset of the character to blame. -/
def offset? : LoadError → Option Nat
  | unmatchedBracket _ position => some position.offset
  | setup _ => none

end LoadError

/-- The program that a source text describes. -/
def Program.ofSource (source : String) (optimize : Bool) : Except LoadError Program :=
  let lexemes := Lexeme.scan source
  match Lexeme.unmatched? lexemes with
  | some l => .error (.unmatchedBracket l.symbol.char l.position)
  | none =>
    match Program.ofTokens (Token.link (Token.ofLexemes optimize lexemes)) source with
    | .error e => .error (.setup e)
    | .ok p => .ok p

end ReversibleTape
