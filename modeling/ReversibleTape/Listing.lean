import ReversibleTape.Record
import ReversibleTape.Token

/-!
# Listings

An entry of a listing is a token and the record that belongs to it. Entries are written by
hand as a kind and the fields that differ from the usual ones of that kind
(`Entry.ofKind`), and a listing that exists is changed by an `Amendment`, which names the
fields to overwrite and their new values.
-/

namespace ReversibleTape

/-- A token and its record. -/
structure Entry where
  token : Token
  record : Record := Record.blank
  deriving DecidableEq

/-- The fields of an entry to overwrite. A partner and an offset may be overwritten with
nothing. -/
structure Amendment where
  kind : Option Kind := none
  delta : Option Int := none
  partner : Option (Option Nat) := none
  offset : Option (Option Nat) := none
  line : Option Nat := none
  column : Option Nat := none
  undo : Option (List UInt32) := none
  passes : Option (List Nat) := none
  inProgress : Option Bool := none

namespace Entry

/-- The usual entry of a kind: a frame has no place in the source, and every other kind
stands at the beginning of the text. -/
def ofKind (kind : Kind) : Entry :=
  if kind.isSentinel then { token := { kind } }
  else { token := { kind, offset := some 0, line := 1, column := 1 } }

/-- Overwrites the named fields. -/
def amend (e : Entry) (a : Amendment) : Entry where
  token := {
    kind := a.kind.getD e.token.kind
    delta := a.delta.getD e.token.delta
    partner := a.partner.getD e.token.partner
    offset := a.offset.getD e.token.offset
    line := a.line.getD e.token.line
    column := a.column.getD e.token.column }
  record := {
    undo := a.undo.getD e.record.undo
    passes := a.passes.getD e.record.passes
    inProgress := a.inProgress.getD e.record.inProgress }

/-- An amendment that names no field changes nothing. -/
theorem amend_nothing (e : Entry) : e.amend {} = e := rfl

/-- The entry with a blank record. -/
def reset (e : Entry) : Entry := { e with record := Record.blank }

end Entry

/-- The entries of a program, by index. -/
abbrev Listing := Array Entry

namespace Listing

/-- The listing of tokens that never ran. -/
def ofTokens (tokens : Array Token) : Listing := tokens.map fun token => { token }

/-- The tokens of a listing. -/
def tokens (l : Listing) : Array Token := l.map Entry.token

/-- The records of a listing. -/
def ledger (l : Listing) : Ledger := l.map Entry.record

/-- Amends a listing entry by entry; an amendment beyond its end is ignored. -/
def amend (l : Listing) (amendments : List (Nat × Amendment)) : Listing :=
  amendments.foldl (fun l (i, a) => l.modify i (·.amend a)) l

/-- The same tokens with blank records. -/
def reset (l : Listing) : Listing := l.map Entry.reset

@[simp] theorem tokens_ofTokens (tokens : Array Token) : (ofTokens tokens).tokens = tokens := by
  simp [ofTokens, Listing.tokens, Function.comp_def]

@[simp] theorem tokens_reset (l : Listing) : l.reset.tokens = l.tokens := by
  simp [reset, tokens, Entry.reset, Function.comp_def]

end Listing

end ReversibleTape
