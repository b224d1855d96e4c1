import ReversibleTape.Proofs.Shape

/-!
# Reading in one pass

`Program.ofSource` goes through a source four times: it finds the lexemes with their places, looks
for an unmatched bracket, folds, and links what is left. Told differently, reading is one loop over
the significant characters, of which only the offsets are known (`Span`):

* **Places** are counted on demand. The loop remembers a place that it has been at in the current
  line, and the column of the next character follows from the number of characters in between
  (`Position.meet?`).
* **Tokens** go straight into the framed array (`Reader`). A run is added to the token at the index
  where folding may go on, a head waits with its index on a stack until its tail links both of
  them, and a clearing loop is cut off again. A tail that finds no head ends the loop at once.

Here a token is fetched by its index and a text is cut at offsets, and the reading gets lost where
an index has no token and where an offset is inside of a character or behind the end.

**Both accounts agree** on every source, with folding or without (`Program.readOnce_eq`), so the
reading is never lost. The argument has two parts. The remembered place is always in the current
line (`Position.Trails`), which makes the loop one over lexemes (`Pass.foldlM_read`). The reader
then holds at any time what the linker makes of the tokens of the folder (`Reader.Follows`): a
linker never looks ahead, and all that folding takes back stands at the end.
-/

namespace ReversibleTape

open List (Forall₂)

/-! ### Spans and slices -/

/-- A significant character and the offset of its first byte. -/
structure Span where
  symbol : Symbol
  offset : Nat

namespace Span

/-- The offset behind a significant character. -/
def endOffset (s : Span) : Nat := s.offset + s.symbol.char.utf8Size

/-- The significant characters of a text that begins at an offset. -/
def allFrom : Nat → List Char → List Span
  | _, [] => []
  | offset, c :: text =>
    match Symbol.ofChar? c with
    | some symbol => { symbol, offset } :: allFrom (offset + c.utf8Size) text
    | none => allFrom (offset + c.utf8Size) text

end Span

/-- Cuts a text behind a number of bytes, if that is between two characters. -/
def splitBytes? : Nat → List Char → Option (List Char × List Char)
  | 0, text => some ([], text)
  | _ + 1, [] => none
  | n + 1, c :: text =>
    if c.utf8Size ≤ n + 1 then
      (splitBytes? (n + 1 - c.utf8Size) text).map fun (u, v) => (c :: u, v)
    else none

/-- The part of a text between two offsets. -/
def slice? (text : List Char) (i j : Nat) : Option (List Char) :=
  if i ≤ j then do
    let (_, rest) ← splitBytes? i text
    let (part, _) ← splitBytes? (j - i) rest
    return part
  else none

/-! ### The loop -/

/-- The place of a span in the same line, as seen from a place before it. -/
def Position.meet? (text : List Char) (p : Position) (s : Span) : Option Position := do
  let passed ← slice? text p.offset s.offset
  return { offset := s.offset, line := p.line, column := p.column + passed.length }

/-- The place behind a line end. -/
def Position.nextLine (p : Position) (s : Span) : Position :=
  { offset := s.endOffset, line := p.line + 1, column := 1 }

/-- The framed tokens so far, whose closed loops are linked. -/
structure Reader where
  tokens : Array Token := #[Token.start]
  /-- The indices of the heads that wait for their tails, latest first. -/
  pending : List Nat := []
  /-- The index of the token that may absorb a run of its kind. -/
  target : Option Nat := none

namespace Reader

/-- The token at an index. The reading gets lost if there is none. -/
def fetch (r : Reader) (i : Nat) : ExceptT LoadError Option Token := ExceptT.lift r.tokens[i]?

/-- Adds a token that is never merged with another. -/
def plain (r : Reader) (t : Token) : Reader :=
  { r with tokens := r.tokens.push t, target := none }

/-- Adds a token that may absorb others if there is folding. -/
def beginRun (optimize : Bool) (r : Reader) (t : Token) : Reader :=
  { r with tokens := r.tokens.push t, target := if optimize then some r.tokens.size else none }

/-- Adds an addition or a move, merged into the token at the target if that is of its kind. -/
def run (optimize : Bool) (r : Reader) (t : Token) : ExceptT LoadError Option Reader := do
  let some i := r.target | return r.beginRun optimize t
  let last ← r.fetch i
  if last.kind = t.kind then
    let tokens := r.tokens.modify i fun u => { u with delta := u.delta + t.delta }
    if last.delta + t.delta = 0 then return { r with tokens := tokens.pop, target := none }
    else return { r with tokens }
  else return r.beginRun optimize t

/-- All that stands behind the head of a loop is one addition of one. -/
def clears (r : Reader) (head : Nat) : Bool :=
  r.tokens.size == head + 2 &&
    r.tokens[head + 1]?.any fun body => body.kind == .add && body.delta.natAbs == 1

/-- Adds the tail of a loop and links it, or cuts the loop off and adds a `zero` in its place. -/
def close (optimize : Bool) (r : Reader) (p : Position) : ExceptT LoadError Option Reader := do
  let head :: pending := r.pending | throw (.unmatchedBracket ']' p)
  let t ← r.fetch head
  if optimize && r.clears head then
    return plain { r with tokens := r.tokens.take head, pending }
      { kind := .zero, offset := t.offset, line := t.line, column := t.column }
  else
    let tokens := r.tokens.modify head fun u => { u with partner := some r.tokens.size }
    return plain { r with tokens, pending }
      { Token.readAt p .loopClose 0 with partner := some head }

/-- Adds one lexeme. -/
def push (optimize : Bool) (r : Reader) (l : Lexeme) : ExceptT LoadError Option Reader :=
  match l.symbol with
  | .increment => r.run optimize (.readAt l.position .add 1)
  | .decrement => r.run optimize (.readAt l.position .add (-1))
  | .right => r.run optimize (.readAt l.position .shift 1)
  | .left => r.run optimize (.readAt l.position .shift (-1))
  | .loopOpen =>
    return plain { r with pending := r.tokens.size :: r.pending } (.readAt l.position .loopOpen 0)
  | .loopClose => r.close optimize l.position
  | .output => return r.plain (.readAt l.position .output 0)
  | .input => return r.plain (.readAt l.position .input 0)
  | .newline => return r

/-- The tokens with the whole frame, if no head waits for its tail. The earliest head is to blame
otherwise. -/
def finish (r : Reader) : ExceptT LoadError Option (Array Token) := do
  let some head := r.pending.getLast? | return r.tokens.push Token.finish
  let t ← r.fetch head
  throw (.unmatchedBracket '[' { offset := t.offset.getD 0, line := t.line, column := t.column })

end Reader

/-- A place in the current line, and what was read before. -/
structure Pass where
  position : Position := {}
  reader : Reader := {}

/-- Goes on to the next significant character. -/
def Pass.read (optimize : Bool) (text : List Char) (s : Pass) (span : Span) :
    ExceptT LoadError Option Pass := do
  if span.symbol = .newline then return { s with position := s.position.nextLine span }
  else
    let position ← ExceptT.lift (s.position.meet? text span)
    let reader ← s.reader.push optimize { symbol := span.symbol, position }
    return { position, reader }

/-- The program that a source text describes, read in one pass. There is no answer if the reading
got lost. -/
def Program.readOnce (source : String) (optimize : Bool) : Option (Except LoadError Program) :=
  ExceptT.run do
    let pass ← (Span.allFrom 0 source.toList).foldlM (Pass.read optimize source.toList) {}
    let tokens ← pass.reader.finish
    match ofTokens tokens source with
    | .error e => throw (.setup e)
    | .ok p => return p

/-! ### Places -/

namespace Position

theorem behind_nil : behind [] = {} := rfl

theorem behind_concat (u : List Char) (c : Char) : behind (u ++ [c]) = (behind u).advance c := by
  rw [← foldl_advance, ← foldl_advance, List.foldl_append, List.foldl_cons, List.foldl_nil]

theorem offset_behind_cons (c : Char) (u : List Char) :
    (behind (c :: u)).offset = c.utf8Size + (behind u).offset := by
  simp [behind]

theorem offset_behind_append (u v : List Char) :
    (behind (u ++ v)).offset = (behind u).offset + (behind v).offset := by
  simp [behind]

theorem line_behind_append {v : List Char} (h : '\n' ∉ v) (u : List Char) :
    (behind (u ++ v)).line = (behind u).line := by
  simp [behind, List.count_eq_zero.mpr h]

theorem column_behind_append {v : List Char} (h : '\n' ∉ v) (u : List Char) :
    (behind (u ++ v)).column = (behind u).column + v.length := by
  have hall : ∀ c ∈ v.reverse, decide (c ≠ '\n') = true := by
    intro c hc
    simpa using ne_of_mem_of_not_mem (List.mem_reverse.mp hc) h
  simp only [behind, List.reverse_append, List.takeWhile_append_of_pos hall, List.length_append,
    List.length_reverse]
  omega

end Position

theorem splitBytes?_append (u v : List Char) :
    splitBytes? (Position.behind u).offset (u ++ v) = some (u, v) := by
  induction u with
  | nil => simp [Position.behind, splitBytes?]
  | cons c u ih =>
    have hpos := c.utf8Size_pos
    obtain ⟨n, hn⟩ : ∃ n, c.utf8Size + (Position.behind u).offset = n + 1 :=
      Nat.exists_eq_add_one.mpr (by omega)
    have hrest : n + 1 - c.utf8Size = (Position.behind u).offset := by omega
    rw [Position.offset_behind_cons, hn, List.cons_append, splitBytes?, if_pos (by omega), hrest,
      ih]
    rfl

/-- A text is cut out again where it was put in. -/
theorem slice?_append (u v w : List Char) :
    slice? (u ++ (v ++ w)) (Position.behind u).offset (Position.behind (u ++ v)).offset =
      some v := by
  simp [slice?, splitBytes?_append, Position.offset_behind_append]

/-- Reading the text has come through the place, and the line has not ended since. -/
def Position.Trails (p : Position) (text : List Char) : Prop :=
  ∃ before passed, text = before ++ passed ∧ '\n' ∉ passed ∧ p = .behind before

namespace Position.Trails

variable {p : Position} {u : List Char}

theorem refl (u : List Char) : (behind u).Trails u := ⟨u, [], by simp, by simp, rfl⟩

theorem concat (h : p.Trails u) {c : Char} (hc : c ≠ '\n') : p.Trails (u ++ [c]) := by
  obtain ⟨before, passed, rfl, hpassed, rfl⟩ := h
  exact ⟨before, passed ++ [c], by simp, by simp [hpassed, Ne.symm hc], rfl⟩

/-- **Counting from a place in the same line** gives the place behind the text. -/
theorem meet?_eq (h : p.Trails u) (v : List Char) (symbol : Symbol) :
    p.meet? (u ++ v) { symbol, offset := (behind u).offset } = some (behind u) := by
  obtain ⟨before, passed, rfl, hpassed, rfl⟩ := h
  rw [meet?, List.append_assoc, slice?_append]
  simp only [Option.bind_eq_bind, Option.bind_some, Option.pure_def, Option.some.injEq]
  rw [← line_behind_append hpassed before, ← column_behind_append hpassed before]

/-- The next line begins behind the line end. -/
theorem nextLine_eq (h : p.Trails u) :
    p.nextLine { symbol := .newline, offset := (behind u).offset } = behind (u ++ ['\n']) := by
  obtain ⟨before, passed, rfl, hpassed, rfl⟩ := h
  rw [nextLine, behind_concat, advance, if_pos rfl, line_behind_append hpassed]
  rfl

end Position.Trails

namespace Pass

variable {p : Position} {u : List Char} {symbol : Symbol}

theorem read_newline (h : p.Trails u) (optimize : Bool) (text : List Char) (r : Reader) :
    read optimize text { position := p, reader := r }
        { symbol := .newline, offset := (Position.behind u).offset } =
      pure { position := .behind (u ++ ['\n']), reader := r } := by
  rw [read, if_pos rfl, h.nextLine_eq]

theorem read_of_ne_newline (h : p.Trails u) (hsymbol : symbol ≠ .newline) (optimize : Bool)
    (v : List Char) (r : Reader) :
    read optimize (u ++ v) { position := p, reader := r }
        { symbol, offset := (Position.behind u).offset } = (do
      let reader ← r.push optimize { symbol, position := .behind u }
      return { position := .behind u, reader }) := by
  rw [read, if_neg hsymbol, h.meet?_eq]
  rfl

/-- **The loop over spans is one over lexemes.** -/
theorem foldlM_read (optimize : Bool) (h : p.Trails u) (v : List Char) (r : Reader) :
    reader <$> (Span.allFrom (Position.behind u).offset v).foldlM (read optimize (u ++ v))
        { position := p, reader := r } =
      (Lexeme.scanFrom (.behind u) v).foldlM (Reader.push optimize) r := by
  induction v generalizing p u r with
  | nil => rfl
  | cons c v ih =>
    -- the character `c` goes over from the text in front to the text that was passed
    have htext : u ++ c :: v = u ++ [c] ++ v := List.append_cons u c v
    rw [htext, Span.allFrom, Lexeme.scanFrom, ← Position.offset_advance, ← Position.behind_concat]
    cases hsymbol : Symbol.ofChar? c with
    | none =>
      refine ih (h.concat ?_) r
      rintro rfl
      cases hsymbol
    | some symbol =>
      obtain rfl := Symbol.ofChar?_eq_some_iff.mp hsymbol
      simp only [List.foldlM_cons]
      by_cases hline : symbol = .newline
      · subst hline
        have hpush : r.push optimize { symbol := .newline, position := .behind u } = pure r := rfl
        rw [read_newline h, hpush, pure_bind, pure_bind]
        exact ih (.refl _) r
      · have hchar : symbol.char ≠ '\n' := fun hchar =>
          hline (Option.some.inj (hsymbol.symm.trans (congrArg Symbol.ofChar? hchar)))
        rw [List.append_assoc, read_of_ne_newline h hline, bind_assoc, map_bind,
          ← List.append_assoc]
        refine bind_congr fun r' => ?_
        rw [pure_bind]
        exact ih ((Position.Trails.refl u).concat hchar) r'

end Pass

/-! ### Tokens -/

theorem Kind.isLoop_of_isFoldable {k : Kind} (h : k.isFoldable = true) : k.isLoop = false := by
  revert h
  cases k <;> decide

theorem modify_size_push {α : Type} (xs : Array α) (x : α) (g : α → α) :
    (xs.push x).modify xs.size g = xs.push (g x) := by
  refine Array.ext_getElem? fun i => ?_
  simp only [Array.getElem?_modify, Array.getElem?_push]
  grind

namespace Linker

variable {t : Token} {ts : List Token}

/-- The linker behind tokens that come latest first. -/
def of (ts : List Token) : Linker := ts.foldr (fun t l => l.push t) {}

theorem of_cons (t : Token) (ts : List Token) : of (t :: ts) = (of ts).push t := rfl

theorem link_reverse (ts : List Token) :
    Token.link ts.reverse = (of ts).tokens.push Token.finish := by
  rw [Token.link, List.foldl_reverse, of]

theorem push_of_not_isLoop (h : t.kind.isLoop = false) (l : Linker) :
    l.push t = { tokens := l.tokens.push t, heads := l.heads } := by
  rw [push]
  split
  · simp_all [Kind.isLoop]
  · simp_all [Kind.isLoop]
  · rfl

theorem push_of_loopOpen (h : t.kind = .loopOpen) (l : Linker) :
    l.push t = { tokens := l.tokens.push t, heads := l.tokens.size :: l.heads } := by
  rw [push, h]

/-- One token is added, which is the latest one apart from its link. -/
theorem exists_push_tokens_eq (l : Linker) (t : Token) :
    ∃ (before : Array Token) (last : Token), (l.push t).tokens = before.push last ∧
      before.size = l.tokens.size ∧ last.kind = t.kind ∧ last.delta = t.delta := by
  rw [push]
  split
  · exact ⟨_, _, rfl, rfl, rfl, rfl⟩
  · exact ⟨_, _, rfl, Array.size_modify, rfl, rfl⟩
  · exact ⟨_, _, rfl, rfl, rfl, rfl⟩

theorem lt_size_of_mem_heads {i : Nat} (h : i ∈ (of ts).heads) : i < (of ts).tokens.size := by
  induction ts with
  | nil => cases h
  | cons t ts ih =>
    obtain ⟨before, last, htokens, hsize, -⟩ := exists_push_tokens_eq (of ts) t
    rw [of_cons] at h ⊢
    rw [htokens, Array.size_push, hsize]
    rw [push] at h
    split at h
    · rcases List.mem_cons.mp h with rfl | hmem
      · exact Nat.lt_succ_self _
      · exact Nat.lt_succ_of_lt (ih hmem)
    · rename_i hheads
      exact Nat.lt_succ_of_lt (ih (hheads ▸ List.mem_cons_of_mem _ h))
    · exact Nat.lt_succ_of_lt (ih h)

end Linker

/-- The head of a loop has nothing but its place to pass on to a `zero`. -/
theorem Folder.DrawnFrom.zero_eq {f : Folder} {ls : List Lexeme} {t : Token} (h : f.DrawnFrom ls)
    (ht : t ∈ f.tokens) (hkind : t.kind = .loopOpen) :
    { t with kind := .zero } =
      ({ kind := .zero, offset := t.offset, line := t.line, column := t.column } : Token) := by
  obtain ⟨l, hread⟩ := h.exists_readFrom ht
  rw [hread.partner_eq, hread.delta_eq (by rw [hkind]; rfl)]

/-- At the index there is the head of a loop, at the place of the lexeme. -/
def Token.OpensAt (tokens : Array Token) (i : Nat) (l : Lexeme) : Prop :=
  l.symbol = .loopOpen ∧ ∃ t, tokens[i]? = some t ∧ t.kind = .loopOpen ∧ t.StandsAt l.position

namespace Token.OpensAt

variable {tokens : Array Token} {i : Nat} {l : Lexeme} {t : Token}

theorem push (h : OpensAt tokens i l) (t : Token) : OpensAt (tokens.push t) i l := by
  obtain ⟨hl, u, hget, hu⟩ := h
  obtain ⟨hlt, -⟩ := Array.getElem?_eq_some_iff.mp hget
  exact ⟨hl, u, by rw [Array.getElem?_push, if_neg (Nat.ne_of_lt hlt), hget], hu⟩

theorem of_push (h : OpensAt (tokens.push t) i l) (hi : i ≠ tokens.size) : OpensAt tokens i l := by
  obtain ⟨hl, u, hget, hu⟩ := h
  rw [Array.getElem?_push, if_neg hi] at hget
  exact ⟨hl, u, hget, hu⟩

theorem modify (h : OpensAt tokens i l) (head : Nat) (partner : Option Nat) :
    OpensAt (tokens.modify head fun t => { t with partner }) i l := by
  obtain ⟨hl, u, hget, hkind, hplace⟩ := h
  refine ⟨hl, if head = i then { u with partner } else u, ?_, ?_, ?_⟩
  · rw [Array.getElem?_modify, hget]
    split <;> rfl
  · split <;> exact hkind
  · split
    · exact ⟨hplace.offset_eq, hplace.line_eq, hplace.column_eq⟩
    · exact hplace

end Token.OpensAt

namespace Reader

/-- **What a reader has in common with a folder** that read the same lexemes. Its tokens are those
of the folder, framed and linked, and both agree on whether the latest of them may absorb a run. The
heads that wait for their tails stand at the places of the brackets that are open. -/
structure Follows (r : Reader) (f : Folder) (opened : List Lexeme) : Prop where
  linked : Linker.of f.tokens = { tokens := r.tokens, heads := r.pending }
  target_eq : r.target = if f.absorbing then some (r.tokens.size - 1) else none
  exists_latest : f.absorbing = true →
    ∃ last rest, f.tokens = last :: rest ∧ last.kind.isFoldable = true
  opened : Forall₂ (Token.OpensAt r.tokens) r.pending opened

theorem fetch_eq {r : Reader} {i : Nat} {t : Token} (h : r.tokens[i]? = some t) :
    r.fetch i = pure t := by
  rw [fetch, h]
  rfl

namespace Follows

variable {r : Reader} {f : Folder} {opened : List Lexeme} {t last : Token} {rest : List Token}
  {l : Lexeme} {head : Nat} {pending : List Nat}

/-! ### Tokens that come and go -/

/-- A token that is put behind the others and is not an end of a loop. -/
theorem push_tokens (h : r.Follows f opened) (ht : t.kind.isLoop = false) :
    Linker.of (t :: f.tokens) = { tokens := r.tokens.push t, heads := r.pending } ∧
      Forall₂ (Token.OpensAt (r.tokens.push t)) r.pending opened := by
  refine ⟨?_, h.opened.imp fun i l hl => hl.push t⟩
  rw [Linker.of_cons, h.linked, Linker.push_of_not_isLoop ht]

theorem plain (h : r.Follows f opened) (ht : t.kind.isLoop = false) :
    (r.plain t).Follows (f.plain t) opened := by
  obtain ⟨hlinked, hopened⟩ := h.push_tokens ht
  exact ⟨hlinked, rfl, by simp [Folder.plain], hopened⟩

theorem beginRun (h : r.Follows f opened) (ht : t.kind.isFoldable = true) (optimize : Bool) :
    (r.beginRun optimize t).Follows { tokens := t :: f.tokens, absorbing := optimize } opened := by
  obtain ⟨hlinked, hopened⟩ := h.push_tokens (Kind.isLoop_of_isFoldable ht)
  refine ⟨hlinked, ?_, fun _ => ⟨t, f.tokens, rfl, ht⟩, hopened⟩
  simp [Reader.beginRun]

/-- The latest token is the last of the array if it is not an end of a loop, and without it, the
reader follows the tokens before. -/
theorem exists_before (h : r.Follows f opened) (htokens : f.tokens = last :: rest)
    (hlast : last.kind.isLoop = false) :
    ∃ before, r.tokens = before.push last ∧
      Follows { tokens := before, pending := r.pending } { tokens := rest } opened := by
  obtain ⟨hlinked, -, -, hopened⟩ := h
  rw [htokens, Linker.of_cons, Linker.push_of_not_isLoop hlast, Linker.mk.injEq] at hlinked
  obtain ⟨hpushed, hheads⟩ := hlinked
  refine ⟨_, hpushed.symm, by rw [← hheads], rfl, by simp, hopened.imp fun i l hl => ?_⟩
  -- the last token is not the head of a loop, so none of the heads is lost with it
  rw [← hpushed] at hl
  refine hl.of_push fun hi => ?_
  obtain ⟨-, u, hget, hu, -⟩ := hl
  rw [hi, Array.getElem?_push_size] at hget
  obtain rfl := Option.some.inj hget
  simp [hu, Kind.isLoop] at hlast

/-- If the latest token is the head of a loop, it is the latest of those that wait. -/
theorem exists_before_head (h : r.Follows f opened) (htokens : f.tokens = last :: rest)
    (hlast : last.kind = .loopOpen) :
    ∃ before pending l opened', r.tokens = before.push last ∧ r.pending = before.size :: pending ∧
      opened = l :: opened' ∧ Follows { tokens := before, pending } { tokens := rest } opened' := by
  obtain ⟨hlinked, -, -, hopened⟩ := h
  rw [htokens, Linker.of_cons, Linker.push_of_loopOpen hlast, Linker.mk.injEq] at hlinked
  obtain ⟨hpushed, hheads⟩ := hlinked
  rw [← hpushed, ← hheads] at hopened
  obtain ⟨l, opened', -, hrest, rfl⟩ := List.forall₂_cons_left_iff.mp hopened
  refine ⟨_, _, l, opened', hpushed.symm, hheads.symm, rfl, rfl, rfl, by simp, ?_⟩
  have hlt : ∀ i ∈ (Linker.of rest).heads, i < (Linker.of rest).tokens.size :=
    fun i hi => Linker.lt_size_of_mem_heads hi
  refine ((List.forall₂_and_left _ _).mpr ⟨hlt, hrest⟩).imp fun i l ⟨hi, hl⟩ => ?_
  exact hl.of_push (Nat.ne_of_lt hi)

/-- The last token is the latest one apart from its link, also if it is an end of a loop. -/
theorem exists_last (h : r.Follows f opened) (htokens : f.tokens = last :: rest) :
    ∃ u, r.tokens[r.tokens.size - 1]? = some u ∧ u.kind = last.kind ∧ u.delta = last.delta := by
  have hlinked := h.linked
  obtain ⟨before, u, hpushed, -, hu⟩ := Linker.exists_push_tokens_eq (.of rest) last
  rw [htokens, Linker.of_cons] at hlinked
  rw [hlinked] at hpushed
  simp only at hpushed
  exact ⟨u, by simp [hpushed], hu⟩

/-- While a head waits there are tokens. -/
theorem exists_cons (h : r.Follows f opened) (hpending : r.pending = head :: pending) :
    ∃ last rest, f.tokens = last :: rest := by
  refine List.exists_cons_of_ne_nil fun hnil => ?_
  have hlinked := h.linked
  rw [hnil, hpending] at hlinked
  exact absurd (congrArg Linker.heads hlinked) (by simp [Linker.of])

/-- The latest of the heads that wait is the last token exactly if the latest token is a head. -/
theorem size_eq_iff (h : r.Follows f opened) (hpending : r.pending = head :: pending) :
    r.tokens.size = head + 1 ↔ ∃ last rest, f.tokens = last :: rest ∧ last.kind = .loopOpen := by
  constructor
  · intro hsize
    obtain ⟨last, rest, htokens⟩ := h.exists_cons hpending
    obtain ⟨u, hlast, hkind, -⟩ := h.exists_last htokens
    have hopened := h.opened
    rw [hpending] at hopened
    obtain ⟨l, -, ⟨-, v, hget, hopen, -⟩, -, -⟩ := List.forall₂_cons_left_iff.mp hopened
    rw [hsize, Nat.add_sub_cancel, hget] at hlast
    exact ⟨last, rest, htokens, by rw [← hkind, ← Option.some.inj hlast, hopen]⟩
  · rintro ⟨last, rest, htokens, hlast⟩
    obtain ⟨before, pending', -, -, hpushed, hpending', -, -⟩ := h.exists_before_head htokens hlast
    rw [hpending] at hpending'
    rw [hpushed, Array.size_push, (List.cons.inj hpending').1]

/-! ### Lexemes -/

/-- **Runs.** What absorbs a token and what is dropped stands at the end of the array. -/
theorem run (h : r.Follows f opened) (ht : t.kind.isFoldable = true) (optimize : Bool) :
    ∃ r', r.run optimize t = pure r' ∧ r'.Follows (f.run optimize t) opened := by
  have htarget := h.target_eq
  cases habsorbing : f.absorbing with
  | false =>
    rw [habsorbing] at htarget
    have hrun : r.run optimize t = pure (r.beginRun optimize t) := by
      rw [Reader.run, htarget]
      rfl
    have hfolded : f.run optimize t = { tokens := t :: f.tokens, absorbing := optimize } := by
      simp [Folder.run, habsorbing]
    rw [hrun, hfolded]
    exact ⟨_, rfl, h.beginRun ht optimize⟩
  | true =>
    obtain ⟨last, rest, htokens, hlast⟩ := h.exists_latest habsorbing
    obtain ⟨before, hpushed, hbefore⟩ :=
      h.exists_before htokens (Kind.isLoop_of_isFoldable hlast)
    have hfetch : r.fetch before.size = pure last := fetch_eq (by simp [hpushed])
    rw [habsorbing, hpushed, Array.size_push, if_pos rfl, Nat.add_sub_cancel] at htarget
    rw [Reader.run, htarget]
    simp only [hfetch, pure_bind, Folder.run, habsorbing, htokens]
    split
    · rw [hpushed, modify_size_push, Array.pop_push]
      split
      · exact ⟨_, rfl, hbefore⟩
      · -- the merged token begins a run behind the tokens before
        let merged := { last with delta := last.delta + t.delta }
        exact ⟨_, rfl, hbefore.beginRun (t := merged) hlast true⟩
    · exact ⟨_, rfl, htokens ▸ h.beginRun ht optimize⟩

/-- **Heads** wait with their index. -/
theorem openLoop (h : r.Follows f opened) (hl : l.symbol = .loopOpen) :
    (Reader.plain { r with pending := r.tokens.size :: r.pending }
      (.readAt l.position .loopOpen 0)).Follows (f.plain (.readAt l.position .loopOpen 0))
      (l :: opened) := by
  refine ⟨?_, rfl, by simp [Folder.plain], .cons ?_ (h.opened.imp fun i l hl => hl.push _)⟩
  · rw [Folder.plain, Linker.of_cons, h.linked, Linker.push_of_loopOpen rfl]
    rfl
  · exact ⟨hl, .readAt l.position .loopOpen 0, by simp [Reader.plain], rfl, rfl, rfl, rfl⟩

/-- A clearing loop is seen in the array as it is seen among the tokens. -/
theorem clears_iff (h : r.Follows f opened) (hpending : r.pending = head :: pending) :
    r.clears head = true ↔ ∃ body first rest, f.tokens = body :: first :: rest ∧
      first.kind = .loopOpen ∧ body.kind = .add ∧ body.delta.natAbs = 1 := by
  have hclears : r.clears head = true ↔ r.tokens.size = head + 2 ∧
      ∃ u, r.tokens[head + 1]? = some u ∧ u.kind = .add ∧ u.delta.natAbs = 1 := by
    simp [clears, Option.any_eq_true]
  rw [hclears]
  constructor
  · rintro ⟨hsize, u, hget, hadd, hone⟩
    obtain ⟨body, ts, htokens⟩ := h.exists_cons hpending
    obtain ⟨v, hlast, hkind, hdelta⟩ := h.exists_last htokens
    rw [hsize, Nat.add_succ_sub_one, hget] at hlast
    obtain rfl : u = v := Option.some.inj hlast
    rw [hadd] at hkind
    obtain ⟨before, hpushed, hbefore⟩ := h.exists_before htokens (by rw [← hkind]; rfl)
    rw [hpushed, Array.size_push] at hsize
    obtain ⟨first, rest, rfl, hfirst⟩ := (hbefore.size_eq_iff hpending).mp (Nat.succ.inj hsize)
    exact ⟨body, first, rest, htokens, hfirst, hkind.symm, hdelta ▸ hone⟩
  · rintro ⟨body, first, rest, htokens, hfirst, hbody, hone⟩
    obtain ⟨before, hpushed, hbefore⟩ := h.exists_before htokens (by rw [hbody]; rfl)
    have hsize : before.size = head + 1 :=
      (hbefore.size_eq_iff hpending).mpr ⟨first, rest, rfl, hfirst⟩
    exact ⟨by simp [hpushed, hsize], body, by simp [hpushed, ← hsize], hbody, hone⟩

/-- What is left when a loop with one token is cut off. -/
theorem cutOff (h : r.Follows f (l :: opened)) (hpending : r.pending = head :: pending)
    {body first : Token} (htokens : f.tokens = body :: first :: rest)
    (hbody : body.kind.isLoop = false) (hfirst : first.kind = .loopOpen) :
    r.tokens[head]? = some first ∧
      Follows { tokens := r.tokens.take head, pending } { tokens := rest } opened := by
  obtain ⟨before, hpushed, hbefore⟩ := h.exists_before htokens hbody
  obtain ⟨before, pending', l', opened', rfl, hpending', hopened', hbefore⟩ :=
    hbefore.exists_before_head rfl hfirst
  obtain ⟨rfl, rfl⟩ := List.cons.inj (hpending.symm.trans hpending')
  obtain ⟨rfl, rfl⟩ := List.cons.inj hopened'
  have htake : r.tokens.take before.size = before := by simp [hpushed]
  refine ⟨?_, by rwa [htake]⟩
  rw [hpushed, Array.getElem?_push, if_neg (by simp), Array.getElem?_push_size]

/-- What a tail does that is linked with its head. -/
theorem link (h : r.Follows f (l :: opened)) (hpending : r.pending = head :: pending)
    (ht : t.kind = .loopClose) :
    (Reader.plain
      { r with
        tokens := r.tokens.modify head fun u => { u with partner := some r.tokens.size }
        pending }
      { t with partner := some head }).Follows (f.plain t) opened := by
  have hopened := h.opened
  rw [hpending] at hopened
  refine ⟨?_, rfl, by simp [Folder.plain], (List.forall₂_cons.mp hopened).2.imp fun i l hl => ?_⟩
  · rw [Folder.plain, Linker.of_cons, h.linked, hpending, Linker.push, ht]
    rfl
  · exact (hl.modify head _).push _

/-- **Tails** are linked with the head that waits, or the loop is cut off. -/
theorem close (h : r.Follows f (l :: opened)) {ls : List Lexeme} (hdrawn : f.DrawnFrom ls)
    (optimize : Bool) (p : Position) :
    ∃ r', r.close optimize p = pure r' ∧
      r'.Follows (f.close optimize (.readAt p .loopClose 0)) opened := by
  obtain ⟨head, pending, ⟨-, u, hget, -⟩, -, hpending⟩ := List.forall₂_cons_right_iff.mp h.opened
  have hclears := h.clears_iff hpending
  rw [Reader.close, hpending]
  simp only [fetch_eq hget, pure_bind]
  by_cases hclear : (optimize && r.clears head) = true
  · rw [if_pos hclear]
    obtain ⟨rfl, hclear⟩ := Bool.and_eq_true_iff.mp hclear
    obtain ⟨body, first, rest, htokens, hfirst, hbody, hone⟩ := hclears.mp hclear
    obtain ⟨hget', hbefore⟩ := h.cutOff hpending htokens (by rw [hbody]; rfl) hfirst
    obtain rfl : u = first := Option.some.inj (hget.symm.trans hget')
    have hfolded : f.close true (.readAt p .loopClose 0) =
        Folder.plain { tokens := rest } { u with kind := .zero } := by
      simp [Folder.close, htokens, hfirst, hbody, hone, Folder.plain]
    rw [hfolded, hdrawn.zero_eq (by simp [htokens]) hfirst]
    exact ⟨_, rfl, hbefore.plain rfl⟩
  · rw [if_neg hclear]
    have hfolded : f.close optimize (.readAt p .loopClose 0) =
        f.plain (.readAt p .loopClose 0) := by
      unfold Folder.close
      split
      · rename_i body first rest htokens
        refine if_neg fun hcond => hclear ?_
        simpa using hclears.mpr ⟨body, first, rest, htokens, hcond⟩
      · rfl
    rw [hfolded]
    exact ⟨_, rfl, h.link hpending rfl⟩

/-- **One lexeme.** A tail without a head ends the reading with an error. Otherwise the reader goes
on together with the folder, and with the search for an unmatched bracket. -/
theorem push (h : r.Follows f opened) {ls : List Lexeme} (hdrawn : f.DrawnFrom ls)
    (optimize : Bool) (l : Lexeme) :
    (l.symbol = .loopClose ∧ opened = [] ∧
        r.push optimize l = throw (.unmatchedBracket ']' l.position)) ∨
      ∃ r' opened', r.push optimize l = pure r' ∧ r'.Follows (f.read optimize l) opened' ∧
        ∀ rest, Lexeme.unmatchedFrom? opened (l :: rest) = Lexeme.unmatchedFrom? opened' rest := by
  have hrun (kind : Kind) (delta : Int) (hkind : kind.isFoldable = true) :=
    h.run (t := .readAt l.position kind delta) hkind optimize
  cases hsymbol : l.symbol with
  | increment | decrement =>
    simp only [Reader.push, Folder.read, Lexeme.unmatchedFrom?, hsymbol]
    obtain ⟨r', hpush, hfollows⟩ := hrun .add _ rfl
    exact .inr ⟨r', opened, hpush, hfollows, fun _ => rfl⟩
  | right | left =>
    simp only [Reader.push, Folder.read, Lexeme.unmatchedFrom?, hsymbol]
    obtain ⟨r', hpush, hfollows⟩ := hrun .shift _ rfl
    exact .inr ⟨r', opened, hpush, hfollows, fun _ => rfl⟩
  | output | input =>
    simp only [Reader.push, Folder.read, Lexeme.unmatchedFrom?, hsymbol]
    exact .inr ⟨_, opened, rfl, h.plain rfl, fun _ => rfl⟩
  | newline =>
    simp only [Reader.push, Folder.read, Lexeme.unmatchedFrom?, hsymbol]
    exact .inr ⟨r, opened, rfl, h, fun _ => rfl⟩
  | loopOpen =>
    simp only [Reader.push, Folder.read, Lexeme.unmatchedFrom?, hsymbol]
    exact .inr ⟨_, l :: opened, rfl, h.openLoop hsymbol, fun _ => rfl⟩
  | loopClose =>
    simp only [Reader.push, Folder.read, hsymbol]
    rcases opened with _ | ⟨l', opened⟩
    · have hpending : r.pending = [] := List.forall₂_nil_right_iff.mp h.opened
      refine .inl ⟨trivial, rfl, ?_⟩
      rw [Reader.close, hpending]
    · obtain ⟨r', hpush, hfollows⟩ := h.close hdrawn optimize l.position
      refine .inr ⟨r', opened, hpush, hfollows, fun rest => ?_⟩
      simp only [Lexeme.unmatchedFrom?, hsymbol]

/-- **At the end**, the earliest head that still waits is to blame. -/
theorem finish_eq (h : r.Follows f opened) :
    r.finish =
      match opened.getLast? with
      | some l => throw (.unmatchedBracket l.symbol.char l.position)
      | none => pure (Token.link f.tokens.reverse) := by
  have hreverse := List.forall₂_reverse_iff.mpr h.opened
  rw [Reader.finish, ← List.head?_reverse, ← List.head?_reverse]
  generalize r.pending.reverse = heads at hreverse
  generalize opened.reverse = brackets at hreverse
  cases hreverse with
  | nil =>
    rw [Linker.link_reverse, h.linked]
    rfl
  | cons hopens _ =>
    obtain ⟨hsymbol, t, hget, -, hoffset, hline, hcolumn⟩ := hopens
    simp only [List.head?_cons, fetch_eq hget, pure_bind, hsymbol, hoffset, hline, hcolumn]
    rfl

/-- **All lexemes.** -/
theorem foldlM_push (h : r.Follows f opened) {ls : List Lexeme} (hdrawn : f.DrawnFrom ls)
    (optimize : Bool) (ms : List Lexeme) :
    (ms.foldlM (Reader.push optimize) r >>= Reader.finish) =
      match Lexeme.unmatchedFrom? opened ms with
      | some l => throw (.unmatchedBracket l.symbol.char l.position)
      | none => pure (Token.link (ms.foldl (Folder.read optimize) f).tokens.reverse) := by
  induction ms generalizing r f opened ls with
  | nil =>
    rw [List.foldlM_nil, pure_bind]
    exact h.finish_eq
  | cons m ms ih =>
    rw [List.foldlM_cons, List.foldl_cons]
    rcases h.push hdrawn optimize m with ⟨hsymbol, rfl, hpush⟩ | ⟨r', opened', hpush, hnext, hrest⟩
    · simp only [Lexeme.unmatchedFrom?, hsymbol, hpush]
      rfl
    · rw [hpush, pure_bind, hrest]
      exact ih hnext (hdrawn.read optimize m)

end Follows

end Reader

/-- **Reading in one pass** comes to the same answer for every source, with folding or without. -/
theorem Program.readOnce_eq (source : String) (optimize : Bool) :
    readOnce source optimize = some (ofSource source optimize) := by
  have hstart : Reader.Follows {} {} [] := ⟨rfl, rfl, by simp, .nil⟩
  have hempty : Folder.DrawnFrom {} [] := ⟨[], .nil, .slnil⟩
  have hread : (do
      let pass ← (Span.allFrom 0 source.toList).foldlM (Pass.read optimize source.toList) {}
      pass.reader.finish) =
      (Lexeme.scan source).foldlM (Reader.push optimize) {} >>= Reader.finish := by
    have hlexemes := Pass.foldlM_read optimize (.refl []) source.toList {}
    rw [List.nil_append, Position.behind_nil, ← Lexeme.scan_eq_scanFrom] at hlexemes
    rw [← hlexemes, bind_map_left]
  rw [readOnce, ← bind_assoc, hread, hstart.foldlM_push hempty, ofSource, Lexeme.unmatched?,
    Token.ofLexemes]
  cases Lexeme.unmatchedFrom? [] (Lexeme.scan source) with
  | some l => rfl
  | none =>
    simp only [pure_bind]
    cases ofTokens _ source <;> rfl

-- the loop in the first line is cleared and cut off again, and then a tail finds no head
example : Program.readOnce "é+-[ü-]\n ]+[" true =
    some (.error (.unmatchedBracket ']' { offset := 11, line := 2, column := 2 })) := by
  decide +kernel

end ReversibleTape
