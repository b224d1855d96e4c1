/-!
# Lexemes

A source text holds nine significant characters: eight instructions and the end of a line.
Every other character is a comment. `Lexeme.scan` lists the significant characters of a text
in order, each with its position.

A `Position` counts the bytes before a character and its line and column; columns count
characters, not bytes. It is threaded through the text one character at a time, so positions
need no second look at what was passed. `Lexeme.scan_eq_scanFrom` is the recursive form of
the scan, which follows the text from the left.
-/

namespace ReversibleTape

/-! ### Significant characters -/

/-- A significant character of a source text. -/
inductive Symbol
  | increment
  | decrement
  | right
  | left
  | loopOpen
  | loopClose
  | output
  | input
  | newline
  deriving DecidableEq

namespace Symbol

/-- The source character of a symbol. -/
def char : Symbol → Char
  | increment => '+'
  | decrement => '-'
  | right => '>'
  | left => '<'
  | loopOpen => '['
  | loopClose => ']'
  | output => '.'
  | input => ','
  | newline => '\n'

/-- The symbol that a character is, if it is significant. -/
def ofChar? (c : Char) : Option Symbol :=
  if c = '+' then some increment
  else if c = '-' then some decrement
  else if c = '>' then some right
  else if c = '<' then some left
  else if c = '[' then some loopOpen
  else if c = ']' then some loopClose
  else if c = '.' then some output
  else if c = ',' then some input
  else if c = '\n' then some newline
  else none

@[simp] theorem ofChar?_char (s : Symbol) : ofChar? s.char = some s := by
  cases s <;> rfl

/-- Only the source character of a symbol is read as that symbol. -/
theorem ofChar?_eq_some_iff {c : Char} {s : Symbol} : ofChar? c = some s ↔ c = s.char := by
  refine ⟨fun h => ?_, fun h => h ▸ ofChar?_char s⟩
  cases s <;> grind [ofChar?, char]

end Symbol

/-! ### Positions -/

/-- A place in a source text. -/
structure Position where
  /-- The number of bytes before the place. -/
  offset : Nat := 0
  /-- The line, counted from 1. -/
  line : Nat := 1
  /-- The column in characters, counted from 1. -/
  column : Nat := 1
  deriving DecidableEq

/-- The place behind a character. -/
def Position.advance (p : Position) (c : Char) : Position :=
  if c = '\n' then { offset := p.offset + c.utf8Size, line := p.line + 1, column := 1 }
  else { p with offset := p.offset + c.utf8Size, column := p.column + 1 }

/-! ### Scanning -/

/-- A significant character at its place. -/
structure Lexeme where
  symbol : Symbol
  position : Position
  deriving DecidableEq

namespace Lexeme

/-- The offset of the byte behind a lexeme; every significant character is one byte long. -/
def endOffset (l : Lexeme) : Nat := l.position.offset + l.symbol.char.utf8Size

/-- The place that a scan has reached, and the lexemes before it, latest first. -/
structure Scanner where
  position : Position := {}
  lexemes : List Lexeme := []

/-- Passes one character. -/
def Scanner.pass (s : Scanner) (c : Char) : Scanner where
  position := s.position.advance c
  lexemes :=
    match Symbol.ofChar? c with
    | some symbol => { symbol, position := s.position } :: s.lexemes
    | none => s.lexemes

/-- The significant characters of a text, in order. -/
def scan (text : String) : List Lexeme :=
  (text.toList.foldl Scanner.pass {}).lexemes.reverse

/-- The significant characters of a text that stands at a given place. -/
def scanFrom : Position → List Char → List Lexeme
  | _, [] => []
  | p, c :: rest =>
    match Symbol.ofChar? c with
    | some symbol => { symbol, position := p } :: scanFrom (p.advance c) rest
    | none => scanFrom (p.advance c) rest

theorem foldl_pass_eq (cs : List Char) (s : Scanner) :
    (cs.foldl Scanner.pass s).lexemes.reverse = s.lexemes.reverse ++ scanFrom s.position cs := by
  induction cs generalizing s with
  | nil => simp [scanFrom]
  | cons c cs ih =>
    rw [List.foldl_cons, ih, scanFrom, Scanner.pass]
    cases Symbol.ofChar? c <;> simp

/-- A scan follows the text from the left, starting at the first line and column. -/
theorem scan_eq_scanFrom (text : String) : scan text = scanFrom {} text.toList := by
  simp [scan, foldl_pass_eq]

end Lexeme

end ReversibleTape
