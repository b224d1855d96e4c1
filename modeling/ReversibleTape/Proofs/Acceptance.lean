import Mathlib.Data.List.Induction
import ReversibleTape.Proofs.Brackets
import ReversibleTape.Proofs.FoldedSource

/-!
# Which sources are accepted

A source is accepted exactly if its brackets are balanced. Otherwise the error names the bracket to
blame: the first `]` that has too many of its kind up to it, and if there is none, the leftmost `[`
that matches nothing (`Brackets.Blamed`). `Program.ofSource_verdict` states this for the characters
of the text, with or without folding, together with **the place of the bracket**, counted from the
text in front of it (`Position.behind`).

The search for an unmatched bracket keeps a stack of those that are open. A balanced part of the
text leaves this stack as it was (`Lexeme.unmatchedFrom?_append`), and behind an opening bracket
that nothing closes the stack never gets down to it (`Lexeme.exists_unmatchedFrom?_eq`). That a
source with balanced brackets is never refused for another reason, although folding takes tokens
away again and moves the ends of loops, rests on `Program.exists_pair`.
-/

namespace ReversibleTape

open Bracketed (bracket?)
open Brackets (Balanced Blamed Rising)

/-- The two brackets among the characters. -/
instance : Bracketed Char where
  bracket? c := if c = '[' then some .opening else if c = ']' then some .closing else none

theorem Char.bracket?_eq_opening_iff {c : Char} : bracket? c = some .opening ↔ c = '[' := by
  simp only [bracket?]
  split
  · simp [*]
  · split <;> simp [*]

theorem Char.bracket?_eq_closing_iff {c : Char} : bracket? c = some .closing ↔ c = ']' := by
  simp only [bracket?]
  split
  · simp [*]
  · split <;> simp [*]

/-! ### Places -/

/-- **The place behind a text**: the bytes of all its characters, one more than its line ends, and
one more than the characters behind the last line end. -/
def Position.behind (text : List Char) : Position where
  offset := (String.ofList text).utf8ByteSize
  line := 1 + text.count '\n'
  column := 1 + (text.reverse.takeWhile (· ≠ '\n')).length

/-- Places are counted one character at a time. -/
theorem Position.foldl_advance (text : List Char) :
    text.foldl Position.advance {} = Position.behind text := by
  induction text using List.reverseRecOn with
  | nil => rfl
  | append_singleton text c ih =>
    rw [List.foldl_append, ih, List.foldl_cons, List.foldl_nil, advance]
    have hbytes : (String.ofList (text ++ [c])).utf8ByteSize =
        (String.ofList text).utf8ByteSize + c.utf8Size := by simp
    simp only [behind, hbytes]
    by_cases hc : c = '\n'
    · simp [hc, Nat.add_assoc]
    · have hcount : [c].count '\n' = 0 := List.count_eq_zero.mpr (by simp [Ne.symm hc])
      simp [hc, hcount, Nat.add_assoc, Nat.add_comm 1]

namespace Lexeme

variable {opened : List Lexeme} {pos : Position} {c : Char} {u v : List Char}

/-! ### One character -/

theorem unmatchedFrom?_letter (h : bracket? c = none) :
    unmatchedFrom? opened (scanFrom pos (c :: v)) =
      unmatchedFrom? opened (scanFrom (pos.advance c) v) := by
  rw [scanFrom]
  cases hsymbol : Symbol.ofChar? c with
  | none => rfl
  | some symbol =>
    have hc := Symbol.ofChar?_eq_some_iff.mp hsymbol
    subst hc
    cases symbol with
    | loopOpen => cases h
    | loopClose => cases h
    | increment | decrement | right | left | output | input | newline => rfl

theorem unmatchedFrom?_opening :
    unmatchedFrom? opened (scanFrom pos ('[' :: v)) =
      unmatchedFrom? ({ symbol := .loopOpen, position := pos } :: opened)
        (scanFrom (pos.advance '[') v) := rfl

theorem unmatchedFrom?_closing (l : Lexeme) :
    unmatchedFrom? (l :: opened) (scanFrom pos (']' :: v)) =
      unmatchedFrom? opened (scanFrom (pos.advance ']') v) := rfl

/-! ### Parts of a text -/

/-- **A balanced part of a text** leaves the open brackets as they were. -/
theorem unmatchedFrom?_append (h : Balanced u) :
    unmatchedFrom? opened (scanFrom pos (u ++ v)) =
      unmatchedFrom? opened (scanFrom (u.foldl Position.advance pos) v) := by
  induction h using Balanced.induction generalizing opened pos v with
  | nil => rfl
  | letter c w hc _ ih => rw [List.cons_append, unmatchedFrom?_letter hc, ih, List.foldl_cons]
  | pair c w d x hc hd _ _ ihw ihx =>
    obtain rfl := Char.bracket?_eq_opening_iff.mp hc
    obtain rfl := Char.bracket?_eq_closing_iff.mp hd
    rw [List.cons_append, unmatchedFrom?_opening, List.append_assoc, ihw, List.cons_append,
      unmatchedFrom?_closing, ihx, List.foldl_cons, List.foldl_append, List.foldl_cons]

/-- A text that closes no bracket from before it leaves those where they are, under some more. -/
theorem exists_unmatchedFrom?_eq (inner opened : List Lexeme) (pos : Position)
    (h : Rising inner.length v) :
    ∃ rest, unmatchedFrom? (inner ++ opened) (scanFrom pos v) = (rest ++ opened).getLast? := by
  induction v generalizing inner pos with
  | nil => exact ⟨inner, rfl⟩
  | cons c v ih =>
    rw [Brackets.rising_cons_iff] at h
    cases hc : bracket? c with
    | none =>
      rw [hc] at h
      rw [unmatchedFrom?_letter hc]
      exact ih inner _ h
    | some bracket =>
      cases bracket with
      | opening =>
        rw [hc] at h
        obtain rfl := Char.bracket?_eq_opening_iff.mp hc
        exact ih (_ :: inner) _ h
      | closing =>
        rw [hc] at h
        obtain rfl := Char.bracket?_eq_closing_iff.mp hc
        cases inner with
        | nil => exact absurd h.1 (Nat.lt_irrefl 0)
        | cons l inner => exact ih inner _ h.2

/-! ### Whole texts -/

theorem unmatched?_scan (text : String) :
    unmatched? (scan text) = unmatchedFrom? [] (scanFrom {} text.toList) := by
  rw [unmatched?, scan_eq_scanFrom]

theorem unmatched?_of_balanced {text : String} (h : Balanced text.toList) :
    unmatched? (scan text) = none := by
  rw [unmatched?_scan, ← List.append_nil text.toList, unmatchedFrom?_append h]
  rfl

/-- **The bracket that is found is the one to blame**, at its place in the text. -/
theorem exists_unmatched?_of_not_balanced {text : String} (h : ¬Balanced text.toList) :
    ∃ i l, unmatched? (scan text) = some l ∧ Blamed text.toList i ∧
      text.toList[i]? = some l.symbol.char ∧ l.position = .behind (text.toList.take i) := by
  rw [unmatched?_scan]
  have hplace : ∀ {u v : List Char}, (u ++ v).take u.length = u := by simp
  rcases Brackets.balanced_or text.toList with hbalanced | ⟨u, c, v, heq, hc, hu⟩ |
    ⟨u, c, v, heq, hc, hu, hv⟩
  · exact absurd hbalanced h
  · obtain rfl := Char.bracket?_eq_closing_iff.mp hc
    rw [heq, unmatchedFrom?_append hu]
    refine ⟨u.length, _, rfl, Brackets.blamed_closing hu hc v, by simp [Symbol.char], ?_⟩
    rw [hplace, Position.foldl_advance]
  · obtain rfl := Char.bracket?_eq_opening_iff.mp hc
    rw [heq, unmatchedFrom?_append hu, unmatchedFrom?_opening, Position.foldl_advance]
    obtain ⟨rest, hrest⟩ := exists_unmatchedFrom?_eq []
      [{ symbol := .loopOpen, position := .behind u }] ((Position.behind u).advance '[') hv
    refine ⟨u.length, { symbol := .loopOpen, position := .behind u }, ?_,
      Brackets.blamed_opening hu hc hv, by simp [Symbol.char], by rw [hplace]⟩
    rw [List.nil_append] at hrest
    rw [hrest, List.getLast?_concat]

end Lexeme

namespace Program

variable {source : String}

/-- A source with balanced brackets is accepted, with and without folding. -/
theorem exists_ofSource_of_balanced (h : Balanced source.toList) (optimize : Bool) :
    ∃ p, ofSource source optimize = .ok p := by
  have hw : (0 : UInt32) < 1 := by decide
  obtain ⟨p, q, -, -, hp, hq, -⟩ := exists_pair hw (Lexeme.unmatched?_of_balanced h)
  cases optimize with
  | false => exact ⟨p, hp⟩
  | true => exact ⟨q, hq⟩

/-- Other sources are refused for the bracket to blame. -/
theorem exists_ofSource_of_not_balanced (h : ¬Balanced source.toList) (optimize : Bool) :
    ∃ i c, Blamed source.toList i ∧ source.toList[i]? = some c ∧
      ofSource source optimize =
        .error (.unmatchedBracket c (.behind (source.toList.take i))) := by
  obtain ⟨i, l, hunmatched, hblamed, hget, hplace⟩ := Lexeme.exists_unmatched?_of_not_balanced h
  refine ⟨i, _, hblamed, hget, ?_⟩
  simp only [ofSource, hunmatched, hplace]

/-- **The verdict on a source**, with folding or without. It is accepted exactly if its brackets are
balanced, and refused only for the bracket to blame, with this character and with its place. -/
theorem ofSource_verdict (source : String) (optimize : Bool) :
    ((∃ p, ofSource source optimize = .ok p) ↔ Balanced source.toList) ∧
      ∀ e, ofSource source optimize = .error e ↔
        ∃ i c, Blamed source.toList i ∧ source.toList[i]? = some c ∧
          e = .unmatchedBracket c (.behind (source.toList.take i)) := by
  by_cases h : Balanced source.toList
  · obtain ⟨p, hp⟩ := exists_ofSource_of_balanced h optimize
    refine ⟨iff_of_true ⟨p, hp⟩ h, fun e => iff_of_false ?_ ?_⟩
    · simp [hp]
    · rintro ⟨i, c, hblamed, -⟩
      exact h.not_blamed i hblamed
  · obtain ⟨i, c, hblamed, hget, herror⟩ := exists_ofSource_of_not_balanced h optimize
    refine ⟨iff_of_false ?_ h, fun e => ⟨fun he => ⟨i, c, hblamed, hget, ?_⟩, ?_⟩⟩
    · rintro ⟨p, hp⟩
      simp [hp] at herror
    · exact Except.error.inj (he.symm.trans herror)
    · rintro ⟨j, d, hblamed', hget', rfl⟩
      obtain rfl := hblamed.unique hblamed'
      obtain rfl := Option.some.inj (hget.symm.trans hget')
      exact herror

end Program

end ReversibleTape
