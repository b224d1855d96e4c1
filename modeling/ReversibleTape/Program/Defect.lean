import ReversibleTape.Config.Basic
import ReversibleTape.Program.Basic

/-!
# Defects of programs

`Program.validate` accepts a program whose frame is in place, whose additions and moves have
an amount, and whose loops are linked in properly nested pairs. Otherwise it answers with the
first token at which something is wrong and with what is wrong there (`Defect`). The frame is
checked before anything else; then the tokens are checked from left to right against the heads
of the loops that are still open.

`SetupError` is the error of everything that prepares a machine before it reads a source: an
invalid configuration or a malformed program.
-/

namespace ReversibleTape

/-- What is wrong with a token of a program. -/
inductive Defect
  | missingSentinels
  | firstNotStart
  | lastNotFinish
  | innerSentinel
  | zeroDelta
  | unlinkedLoop
  | partnerOutOfBounds
  | partnerMismatch
  | partnerNotMutual
  | crossingLoops
  /-- A defect found by other means, in the words of the finder. -/
  | described (reason : String)
  deriving DecidableEq

/-- The text of a defect. -/
def Defect.reason : Defect → String
  | missingSentinels => "program must hold both sentinels"
  | firstNotStart => "first token must be start"
  | lastNotFinish => "last token must be end"
  | innerSentinel => "sentinel inside program"
  | zeroDelta => "zero delta"
  | unlinkedLoop => "unlinked loop token"
  | partnerOutOfBounds => "partner out of bounds"
  | partnerMismatch => "partner is not a matching bracket"
  | partnerNotMutual => "partner link is not mutual"
  | crossingLoops => "loop pairs cross"
  | described reason => reason

/-- Why a machine cannot be prepared. -/
inductive SetupError
  | invalidConfig (error : ConfigError)
  | malformedProgram (index : Nat) (defect : Defect)
  deriving DecidableEq

/-- The text of an error of preparation. -/
def SetupError.message : SetupError → String
  | invalidConfig error => "Invalid configuration: " ++ error.message
  | malformedProgram index defect =>
    "Malformed program at token " ++ Nat.repr index ++ ": " ++ defect.reason

namespace Program

/-! ### One token -/

/-- The partner of the loop token `t` at index `i`, if the link is right: it leads to the
other end of a loop, on the proper side, and back again. -/
def checkLink (p : Program) (i : Nat) (t : Token) : Except Defect Nat :=
  match t.partner with
  | none => .error .unlinkedLoop
  | some j =>
    match p.tokens[j]? with
    | none => .error .partnerOutOfBounds
    | some mate =>
      let fits :=
        if t.kind = .loopOpen then mate.kind == .loopClose && i < j
        else mate.kind == .loopOpen && j < i
      if !fits then .error .partnerMismatch
      else if mate.partner ≠ some i then .error .partnerNotMutual
      else .ok j

/-- Checks the token `t` at index `i` against the heads of the open loops, innermost first,
and answers with the heads that are open behind it. -/
def checkToken (p : Program) (heads : List Nat) (i : Nat) (t : Token) :
    Except Defect (List Nat) :=
  match t.kind with
  | .start | .finish =>
    if i ≠ 0 ∧ i ≠ p.endIndex then .error .innerSentinel else .ok heads
  | .add | .shift => if t.delta = 0 then .error .zeroDelta else .ok heads
  | .loopOpen =>
    match p.checkLink i t with
    | .error d => .error d
    | .ok _ => .ok (i :: heads)
  | .loopClose =>
    match p.checkLink i t, heads with
    | .error d, _ => .error d
    | .ok j, head :: heads => if head = j then .ok heads else .error .crossingLoops
    | .ok _, [] => .error .crossingLoops
  | .output | .input | .zero => .ok heads

/-! ### All tokens -/

/-- Checks the tokens from index `i` on, the first defect first. -/
def checkFrom (p : Program) : List Token → Nat → List Nat → Except SetupError Unit
  | [], _, _ => .ok ()
  | t :: rest, i, heads =>
    match p.checkToken heads i t with
    | .error d => .error (.malformedProgram i d)
    | .ok heads => checkFrom p rest (i + 1) heads

/-- Checks the frame, the amounts and the links of a program. -/
def validate (p : Program) : Except SetupError Unit :=
  if p.size < 2 then .error (.malformedProgram 0 .missingSentinels)
  else if p.kindAt 0 ≠ .start then .error (.malformedProgram 0 .firstNotStart)
  else if p.kindAt p.endIndex ≠ .finish then
    .error (.malformedProgram p.endIndex .lastNotFinish)
  else p.checkFrom p.tokens.toList 0 []

/-- A program is well formed when it passes all checks. -/
def WellFormed (p : Program) : Prop := p.validate = .ok ()

/-- The program of a framed sequence of tokens, if it is well formed. -/
def ofTokens (tokens : Array Token) (source : String) : Except SetupError Program :=
  match validate { tokens, source } with
  | .error e => .error e
  | .ok () => .ok { tokens, source }

/-- A program built from tokens is well formed and holds them. -/
theorem ofTokens_eq_ok_iff {tokens : Array Token} {source : String} {p : Program} :
    ofTokens tokens source = .ok p ↔ p = { tokens, source } ∧ p.WellFormed := by
  unfold ofTokens WellFormed
  constructor
  · intro h
    split at h
    · cases h
    · cases h; exact ⟨rfl, by assumption⟩
  · rintro ⟨rfl, h⟩
    simp [h]

end Program

end ReversibleTape
