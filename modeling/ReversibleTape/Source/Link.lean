import ReversibleTape.Token

/-!
# Linking

`Token.link` puts the frame around a sequence of tokens and gives the two ends of each loop
the index of each other. It goes through the tokens once and keeps the indices of the loop
heads that are still open; the tail of a loop belongs to the latest of them.
-/

namespace ReversibleTape

/-- The framed tokens so far and the indices of the open loop heads, latest first. -/
structure Linker where
  tokens : Array Token := #[Token.start]
  heads : List Nat := []

namespace Linker

/-- Adds one token, and links the tail of a loop to its head. -/
def push (l : Linker) (t : Token) : Linker :=
  let here := l.tokens.size
  match t.kind, l.heads with
  | .loopOpen, heads => { tokens := l.tokens.push t, heads := here :: heads }
  | .loopClose, head :: heads =>
    let tokens := l.tokens.modify head fun t => { t with partner := some here }
    { tokens := tokens.push { t with partner := some head }, heads }
  | _, heads => { tokens := l.tokens.push t, heads }

end Linker

/-- Frames a sequence of tokens and links its loops. -/
def Token.link (tokens : List Token) : Array Token :=
  (tokens.foldl Linker.push {}).tokens.push Token.finish

end ReversibleTape
