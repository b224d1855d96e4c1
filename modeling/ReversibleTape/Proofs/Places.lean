import Mathlib.Data.List.Forall2
import ReversibleTape.Proofs.Acceptance
import ReversibleTape.Proofs.Runs
import ReversibleTape.Proofs.Validation

/-!
# Places of tokens

A token that was read from a source stands at the place of one of its characters, and the tokens of
a program stand in the order of the text. With folding, a token may stand for many characters, and
for characters that are gone: tokens are merged, dropped and turned into others. **None of this
makes up a place.** At any time, the tokens of a folder are read from a sublist of the lexemes, one
lexeme each (`Folder.DrawnFrom`): a merged token keeps its lexeme, a dropped one gives it up, and a
`zero` has the lexeme of its head. A sublist is in the order of the text, and so are the tokens.

Linking changes the partners of tokens and nothing else (`Token.map_unlinked_link`), so the places
are those of the program. `Program.ofSource_places` says so for every source, and that the bracket
in an error has its place by the same law (`Position.behind`).
-/

namespace ReversibleTape

open List (Forall₂)

/-- The characters that a token of a kind is read from; the frame of a program is not read. -/
def Kind.chars : Kind → List Char
  | .add => ['+', '-']
  | .shift => ['<', '>']
  | .loopOpen | .zero => ['[']
  | .loopClose => [']']
  | .output => ['.']
  | .input => [',']
  | .start | .finish => []

/-! ### Lexemes -/

@[simp] theorem Position.offset_advance (pos : Position) (c : Char) :
    (pos.advance c).offset = pos.offset + c.utf8Size := by
  rw [advance]
  split <;> rfl

theorem Position.offset_le_foldl (pos : Position) (text : List Char) :
    pos.offset ≤ (text.foldl Position.advance pos).offset := by
  induction text generalizing pos with
  | nil => exact Nat.le_refl _
  | cons c text ih =>
    rw [List.foldl_cons]
    exact Nat.le_trans (by simp) (ih (pos.advance c))

namespace Lexeme

variable {l : Lexeme} {pos : Position} {text : List Char}

/-- A lexeme is a character of the text, at the place to which the text before it leads. -/
theorem exists_split_of_mem_scanFrom (h : l ∈ scanFrom pos text) :
    ∃ u v, text = u ++ l.symbol.char :: v ∧ l.position = u.foldl Position.advance pos := by
  induction text generalizing pos with
  | nil => cases h
  | cons c text ih =>
    have hlater : l ∈ scanFrom (pos.advance c) text → ∃ u v,
        c :: text = u ++ l.symbol.char :: v ∧ l.position = u.foldl Position.advance pos := by
      intro hmem
      obtain ⟨u, v, rfl, hposition⟩ := ih hmem
      exact ⟨c :: u, v, rfl, hposition⟩
    rw [scanFrom] at h
    cases hsymbol : Symbol.ofChar? c with
    | none =>
      rw [hsymbol] at h
      exact hlater h
    | some symbol =>
      rw [hsymbol] at h
      rcases List.mem_cons.mp h with rfl | hmem
      · exact ⟨[], text, by rw [Symbol.ofChar?_eq_some_iff.mp hsymbol]; rfl, rfl⟩
      · exact hlater hmem

/-- The lexemes of a text follow each other. -/
theorem pairwise_scanFrom (pos : Position) (text : List Char) :
    (scanFrom pos text).Pairwise fun l m => l.position.offset < m.position.offset := by
  induction text generalizing pos with
  | nil => exact .nil
  | cons c text ih =>
    rw [scanFrom]
    cases Symbol.ofChar? c with
    | none => exact ih _
    | some symbol =>
      refine .cons (fun m hm => ?_) (ih _)
      obtain ⟨u, -, -, hposition⟩ := exists_split_of_mem_scanFrom hm
      have hle := Position.offset_le_foldl (pos.advance c) u
      have hpos := c.utf8Size_pos
      rw [← hposition, Position.offset_advance] at hle
      simp only
      omega

/-- A lexeme of a whole text stands behind the text before it. -/
theorem exists_getElem?_of_mem_scan {source : String} (h : l ∈ scan source) :
    ∃ k, source.toList[k]? = some l.symbol.char ∧
      l.position = .behind (source.toList.take k) := by
  rw [scan_eq_scanFrom] at h
  obtain ⟨u, v, htext, hposition⟩ := exists_split_of_mem_scanFrom h
  refine ⟨u.length, by simp [htext], ?_⟩
  rw [hposition, Position.foldl_advance, htext, List.take_left]

end Lexeme

/-! ### Folding -/

/-- A token stands at a place. -/
structure Token.StandsAt (t : Token) (pos : Position) : Prop where
  offset_eq : t.offset = some pos.offset
  line_eq : t.line = pos.line
  column_eq : t.column = pos.column

/-- A token stands at the place of a lexeme from which tokens of its kind are read. It has no link
yet, and an amount only if its kind has one. -/
structure Token.ReadFrom (t : Token) (l : Lexeme) : Prop where
  mem_chars : l.symbol.char ∈ t.kind.chars
  standsAt : t.StandsAt l.position
  partner_eq : t.partner = none
  delta_eq : t.kind.isFoldable = false → t.delta = 0

theorem Token.readFrom_readAt {l : Lexeme} {kind : Kind} {delta : Int}
    (h : l.symbol.char ∈ kind.chars) (hdelta : kind.isFoldable = false → delta = 0) :
    (Token.readAt l.position kind delta).ReadFrom l :=
  ⟨h, ⟨rfl, rfl, rfl⟩, rfl, hdelta⟩

namespace Folder

/-- The tokens are read from some of the lexemes, which come latest first as the tokens do. -/
def DrawnFrom (f : Folder) (ls : List Lexeme) : Prop :=
  ∃ sub, Forall₂ Token.ReadFrom f.tokens sub ∧ sub.Sublist ls

namespace DrawnFrom

variable {f : Folder} {t : Token} {l : Lexeme} {ls : List Lexeme}

theorem exists_readFrom (h : f.DrawnFrom ls) (ht : t ∈ f.tokens) : ∃ l, t.ReadFrom l := by
  obtain ⟨sub, hread, -⟩ := h
  obtain ⟨i, hi, rfl⟩ := List.mem_iff_getElem.mp ht
  exact ⟨_, hread.get hi (hread.length_eq ▸ hi)⟩

theorem plain (h : f.DrawnFrom ls) (ht : t.ReadFrom l) : (f.plain t).DrawnFrom (l :: ls) := by
  obtain ⟨sub, hread, hsub⟩ := h
  exact ⟨l :: sub, .cons ht hread, hsub.cons_cons l⟩

theorem run (h : f.DrawnFrom ls) (ht : t.ReadFrom l) (optimize : Bool) :
    (f.run optimize t).DrawnFrom (l :: ls) := by
  have hadded : DrawnFrom { tokens := t :: f.tokens, absorbing := optimize } (l :: ls) :=
    h.plain ht
  rw [Folder.run]
  split
  · rename_i last rest _ htokens
    obtain ⟨sub, hread, hsub⟩ := h
    rw [htokens] at hread hadded
    cases hread with
    | @cons _ k _ sub hlast hrest =>
      split
      · rename_i hsame
        split
        · exact ⟨sub, hrest, (List.sublist_of_cons_sublist hsub).cons l⟩
        · have hplace := hlast.standsAt
          have hkept : Token.ReadFrom { last with delta := last.delta + t.delta } k := by
            refine ⟨hlast.mem_chars, ⟨hplace.offset_eq, hplace.line_eq, hplace.column_eq⟩,
              hlast.partner_eq, fun hkind => ?_⟩
            have hdelta := ht.delta_eq (hsame ▸ hkind)
            simpa [hdelta] using hlast.delta_eq hkind
          exact ⟨k :: sub, .cons hkept hrest, hsub.cons l⟩
      · exact hadded
  · exact hadded

theorem close (h : f.DrawnFrom ls) (ht : t.ReadFrom l) (optimize : Bool) :
    (f.close optimize t).DrawnFrom (l :: ls) := by
  unfold Folder.close
  split
  · rename_i body head rest htokens
    split
    · rename_i hclear
      obtain ⟨sub, hread, hsub⟩ := h
      rw [htokens] at hread
      cases hread with
      | @cons _ k _ _ hbody hread =>
        cases hread with
        | @cons _ m _ sub hhead hrest =>
          have hmem : m.symbol.char ∈ Kind.loopOpen.chars := hclear.1 ▸ hhead.mem_chars
          have hplace := hhead.standsAt
          have hzero : Token.ReadFrom { head with kind := .zero } m :=
            ⟨hmem, ⟨hplace.offset_eq, hplace.line_eq, hplace.column_eq⟩, hhead.partner_eq,
              fun _ => hhead.delta_eq (hclear.1 ▸ rfl)⟩
          exact ⟨m :: sub, .cons hzero hrest, (List.sublist_of_cons_sublist hsub).cons l⟩
    · exact h.plain ht
  · exact h.plain ht

/-- **One lexeme**, with folding or without. -/
theorem read (h : f.DrawnFrom ls) (optimize : Bool) (l : Lexeme) :
    (f.read optimize l).DrawnFrom (l :: ls) := by
  have hread : ∀ {kind : Kind} {delta : Int}, l.symbol.char ∈ kind.chars →
      (kind.isFoldable = false → delta = 0) → (Token.readAt l.position kind delta).ReadFrom l :=
    Token.readFrom_readAt
  rw [Folder.read]
  cases hsymbol : l.symbol with
  | increment | decrement | right | left =>
    exact h.run (hread (by rw [hsymbol]; decide) (by simp [Kind.isFoldable])) optimize
  | loopOpen | output | input =>
    exact h.plain (hread (by rw [hsymbol]; decide) fun _ => rfl)
  | loopClose => exact h.close (hread (by rw [hsymbol]; decide) fun _ => rfl) optimize
  | newline =>
    obtain ⟨sub, hforall, hsub⟩ := h
    exact ⟨sub, hforall, hsub.cons l⟩

theorem foldl_read (h : f.DrawnFrom ls) (optimize : Bool) (ms : List Lexeme) :
    (ms.foldl (Folder.read optimize) f).DrawnFrom (ms.reverse ++ ls) := by
  induction ms generalizing f ls with
  | nil => exact h
  | cons m ms ih =>
    rw [List.foldl_cons, List.reverse_cons, List.append_assoc]
    exact ih (h.read optimize m)

end DrawnFrom

end Folder

/-- **Tokens are read from a sublist of the lexemes**, one lexeme each. -/
theorem Token.exists_sublist_readFrom (optimize : Bool) (ls : List Lexeme) :
    ∃ sub, Forall₂ ReadFrom (ofLexemes optimize ls) sub ∧ sub.Sublist ls := by
  have hempty : Folder.DrawnFrom {} [] := ⟨[], .nil, .slnil⟩
  obtain ⟨sub, hread, hsub⟩ := hempty.foldl_read optimize ls
  rw [List.append_nil] at hsub
  exact ⟨sub.reverse, List.forall₂_reverse_iff.mpr hread, List.reverse_sublist.mp (by simpa)⟩

/-! ### Linking -/

/-- A token before it is linked. -/
def Token.unlinked (t : Token) : Token := { t with partner := none }

theorem Linker.map_unlinked_push (l : Linker) (t : Token) :
    (l.push t).tokens.toList.map Token.unlinked =
      l.tokens.toList.map Token.unlinked ++ [t.unlinked] := by
  have hmodify : ∀ (head : Nat) (partner : Option Nat),
      (l.tokens.modify head fun t => { t with partner }).toList.map Token.unlinked =
        l.tokens.toList.map Token.unlinked := by
    intro head partner
    refine List.ext_getElem? fun i => ?_
    simp only [List.getElem?_map, Array.getElem?_toList, Array.getElem?_modify]
    split
    · rw [Option.map_map]
      rfl
    · rfl
  rw [push]
  split
  · simp
  · simp only [Array.toList_push, List.map_append, hmodify]
    rfl
  · simp

/-- **Linking changes partners only.** -/
theorem Token.map_unlinked_link (ts : List Token) :
    (Token.link ts).toList.map unlinked = .start :: (ts.map unlinked ++ [.finish]) := by
  have hfold : ∀ l : Linker, (ts.foldl Linker.push l).tokens.toList.map unlinked =
      l.tokens.toList.map unlinked ++ ts.map unlinked := by
    induction ts with
    | nil => simp
    | cons t ts ih =>
      intro l
      rw [List.foldl_cons, ih, Linker.map_unlinked_push, List.append_assoc]
      rfl
  rw [link, Array.toList_push, List.map_append, hfold]
  rfl

namespace Program

variable {p : Program} {source : String} {optimize : Bool} {i j : Nat}

/-- The tokens of a source, framed and linked. -/
theorem tokens_of_ofSource (h : ofSource source optimize = .ok p) :
    p.tokens = Token.link (Token.ofLexemes optimize (Lexeme.scan source)) := by
  have hmatch := unmatched?_of_ofSource h
  simp only [ofSource, hmatch] at h
  split at h
  · cases h
  · rename_i htokens
    cases h
    rw [(ofTokens_eq_ok_iff.mp htokens).1]

theorem unlinked_tokenAt (p : Program) (i : Nat) :
    (p.tokenAt i).unlinked = (p.tokens.toList.map Token.unlinked)[i]?.getD .finish := by
  rw [tokenAt, Array.getD_eq_getD_getElem?, List.getElem?_map, Array.getElem?_toList]
  cases p.tokens[i]? <;> rfl

theorem unlinked_tokenAt_zero (h : ofSource source optimize = .ok p) :
    (p.tokenAt 0).unlinked = .start := by
  rw [unlinked_tokenAt, tokens_of_ofSource h, Token.map_unlinked_link]
  rfl

/-- Behind the first token stand the tokens that were read, and then the end of the frame. -/
theorem unlinked_tokenAt_succ (h : ofSource source optimize = .ok p) (k : Nat) :
    (p.tokenAt (k + 1)).unlinked =
      ((Token.ofLexemes optimize (Lexeme.scan source)).map Token.unlinked)[k]?.getD .finish := by
  rw [unlinked_tokenAt, tokens_of_ofSource h, Token.map_unlinked_link, List.getElem?_cons_succ,
    List.getElem?_append]
  split
  · rfl
  · rename_i hlast
    rw [List.getElem?_eq_none (Nat.le_of_not_lt hlast), List.getElem?_singleton]
    split <;> rfl

/-! ### Whole programs -/

/-- **Exact places** in a text. -/
structure Placed (p : Program) (text : List Char) : Prop where
  /-- Inside of the frame, a token stands at a character of its kind. -/
  exists_char : ∀ i, (p.kindAt i).isSentinel = false →
    ∃ k c, text[k]? = some c ∧ c ∈ (p.kindAt i).chars ∧
      (p.tokenAt i).StandsAt (.behind (text.take k))
  /-- The tokens stand in the order of the text. -/
  offset_lt : ∀ i j m n, i < j → (p.tokenAt i).offset = some m → (p.tokenAt j).offset = some n →
    m < n

/-- A token of a source is of the frame, or read from its own lexeme in a sublist of them. -/
theorem exists_sublist_of_ofSource (h : ofSource source optimize = .ok p) :
    ∃ sub : List Lexeme, sub.Sublist (Lexeme.scan source) ∧ ∀ i,
      ((p.kindAt i).isSentinel = true ∧ (p.tokenAt i).offset = none) ∨
        ∃ k l, i = k + 1 ∧ sub[k]? = some l ∧ (p.tokenAt i).unlinked.ReadFrom l := by
  obtain ⟨sub, hread, hsub⟩ := Token.exists_sublist_readFrom optimize (Lexeme.scan source)
  refine ⟨sub, hsub, fun i => ?_⟩
  have hframe : ∀ t : Token, t.kind.isSentinel = true → t.offset = none →
      (p.tokenAt i).unlinked = t →
      (p.kindAt i).isSentinel = true ∧ (p.tokenAt i).offset = none := by
    rintro t hkind hoffset rfl
    exact ⟨hkind, hoffset⟩
  cases i with
  | zero => exact .inl (hframe .start rfl rfl (unlinked_tokenAt_zero h))
  | succ k =>
    have htoken := unlinked_tokenAt_succ h k
    rw [List.getElem?_map] at htoken
    generalize Token.ofLexemes optimize (Lexeme.scan source) = ts at hread htoken
    by_cases hk : k < sub.length
    · have hk' := hread.length_eq.symm ▸ hk
      obtain ⟨hmem, ⟨hoffset, hline, hcolumn⟩, -, hdelta⟩ := hread.get hk' hk
      rw [List.getElem?_eq_getElem hk'] at htoken
      refine .inr ⟨k, sub[k], rfl, List.getElem?_eq_getElem hk, ?_⟩
      rw [htoken]
      exact ⟨hmem, ⟨hoffset, hline, hcolumn⟩, rfl, hdelta⟩
    · rw [List.getElem?_eq_none (Nat.le_of_not_lt (hread.length_eq ▸ hk))] at htoken
      exact .inl (hframe .finish rfl rfl htoken)

theorem placed_of_ofSource (h : ofSource source optimize = .ok p) : p.Placed source.toList := by
  obtain ⟨sub, hsub, htokens⟩ := exists_sublist_of_ofSource h
  refine ⟨fun i hkind => ?_, fun i j m n hlt hm hn => ?_⟩
  · rcases htokens i with ⟨hframe, -⟩ | ⟨k, l, -, hget, hread⟩
    · exact absurd (hframe.symm.trans hkind) (by decide)
    · have hmem : l ∈ Lexeme.scan source := hsub.subset (List.mem_of_getElem? hget)
      obtain ⟨k, hchar, hposition⟩ := Lexeme.exists_getElem?_of_mem_scan hmem
      have hplace := hposition ▸ hread.standsAt
      exact ⟨k, _, hchar, hread.mem_chars, hplace.offset_eq, hplace.line_eq, hplace.column_eq⟩
  · have hlexeme : ∀ {i m}, (p.tokenAt i).offset = some m →
        ∃ k l, i = k + 1 ∧ sub[k]? = some l ∧ l.position.offset = m := by
      intro i m hm
      rcases htokens i with ⟨-, hnone⟩ | ⟨k, l, hi, hget, hread⟩
      · exact absurd (hnone.symm.trans hm) (by simp)
      · exact ⟨k, l, hi, hget, Option.some.inj (hread.standsAt.offset_eq.symm.trans hm)⟩
    obtain ⟨k, l, rfl, hk, rfl⟩ := hlexeme hm
    obtain ⟨k', l', rfl, hk', rfl⟩ := hlexeme hn
    have hsorted : sub.Pairwise fun l m => l.position.offset < m.position.offset := by
      refine .sublist hsub ?_
      rw [Lexeme.scan_eq_scanFrom]
      exact Lexeme.pairwise_scanFrom {} source.toList
    obtain ⟨hlength, rfl⟩ := List.getElem?_eq_some_iff.mp hk
    obtain ⟨hlength', rfl⟩ := List.getElem?_eq_some_iff.mp hk'
    exact List.pairwise_iff_getElem.mp hsorted k k' hlength hlength' (by omega)

/-- **Places are exact**, with folding or without. In a program that is read from a source, every
token inside of the frame stands at a character of its kind, at the place behind the text before
this character, and the offsets grow along the tokens. The bracket of an error is a character of the
text, too, and its place is found in the same way. -/
theorem ofSource_places (source : String) (optimize : Bool) :
    (∀ p, ofSource source optimize = .ok p → p.Placed source.toList) ∧
      ∀ marker pos, ofSource source optimize = .error (.unmatchedBracket marker pos) →
        ∃ k, source.toList[k]? = some marker ∧ pos = .behind (source.toList.take k) := by
  refine ⟨fun p h => placed_of_ofSource h, fun marker pos h => ?_⟩
  by_cases hbalanced : Brackets.Balanced source.toList
  · obtain ⟨p, hp⟩ := exists_ofSource_of_balanced hbalanced optimize
    rw [hp] at h
    cases h
  · obtain ⟨k, c, -, hget, herror⟩ := exists_ofSource_of_not_balanced hbalanced optimize
    rw [herror] at h
    cases h
    exact ⟨k, hget, rfl⟩

/-- A source with characters of several bytes, in which a run is cancelled before it goes on behind
a line end, and a loop clears a cell. -/
def scattered : String := "é+-\nλ + [ü-] >"

theorem ofSource_places_scattered :
    (∃ p, ofSource scattered true = .ok p ∧ p.Placed scattered.toList ∧
      p.kinds = [.start, .add, .zero, .shift, .finish] ∧
      (p.tokenAt 1).StandsAt { offset := 8, line := 2, column := 3 } ∧
      (p.tokenAt 2).StandsAt { offset := 10, line := 2, column := 5 }) ∧
    ∃ pos : Position, ofSource "λ\né]" false = .error (.unmatchedBracket ']' pos) ∧
      (∃ k, "λ\né]".toList[k]? = some ']' ∧ pos = .behind ("λ\né]".toList.take k)) ∧
      pos = { offset := 5, line := 2, column := 2 } := by
  have hload : ofSource scattered true = .ok
      { tokens := #[.start, .readAt ⟨8, 2, 3⟩ .add 1, .readAt ⟨10, 2, 5⟩ .zero 0,
          .readAt ⟨16, 2, 10⟩ .shift 1, .finish],
        source := scattered } := by decide +kernel
  have herror : ofSource "λ\né]" false = .error (.unmatchedBracket ']' ⟨5, 2, 2⟩) := by
    decide +kernel
  refine ⟨⟨_, hload, (ofSource_places scattered true).1 _ hload, rfl, ⟨rfl, rfl, rfl⟩,
    ⟨rfl, rfl, rfl⟩⟩, _, herror, (ofSource_places _ false).2 _ _ herror, rfl⟩

end Program

end ReversibleTape
