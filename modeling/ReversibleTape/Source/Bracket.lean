import ReversibleTape.Source.Lexeme

/-!
# Matching of brackets

The brackets of a source match when every `]` closes the latest `[` that is still open and
every `[` is closed in the end. `Lexeme.unmatched?` finds the bracket to report otherwise: the
first `]` that closes nothing, and if there is none, the leftmost `[` that is never closed.
-/

namespace ReversibleTape

namespace Lexeme

/-- The unmatched bracket to report, given the open brackets before the lexemes, latest
first. -/
def unmatchedFrom? : List Lexeme → List Lexeme → Option Lexeme
  | opened, [] => opened.getLast?
  | opened, l :: rest =>
    match l.symbol, opened with
    | .loopOpen, _ => unmatchedFrom? (l :: opened) rest
    | .loopClose, [] => some l
    | .loopClose, _ :: opened => unmatchedFrom? opened rest
    | _, _ => unmatchedFrom? opened rest

/-- The unmatched bracket to report. -/
def unmatched? (lexemes : List Lexeme) : Option Lexeme := unmatchedFrom? [] lexemes

end Lexeme

end ReversibleTape
