import ReversibleTape.Proofs.Places

/-!
# Shapes of programs

The shape of a program is the sequence of its kinds, amounts and partners, without the places at
which it was read. Half of it is decided by the other half: **the links of a source are those of its
brackets**. The partner of a token is the index of the bracket that matches it among the kinds, and
a token that is no bracket has none (`Program.partner_eq_some_iff`). So it is enough to know the
kinds and the amounts, which are the marks of the tokens (`Mark`), to know the shape
(`Program.shape_eq_of_marks_eq`), and these are the marks of the tokens that were read, inside of
the frame (`Program.marks_of_ofSource`).

That no other token is linked is not what well-formed means, which says nothing on the partners of
instructions. It holds because the linker goes back to the heads of loops only
(`Linker.Tidy`).
-/

namespace ReversibleTape

open Brackets (Mates)

/-- What a token is, apart from its place and its link. -/
structure Mark where
  kind : Kind
  amount : Int := 0
  deriving DecidableEq

/-- The frame of a program around the marks of its instructions. -/
def Mark.framed (ms : List Mark) : List Mark := { kind := .start } :: (ms ++ [{ kind := .finish }])

/-- The kind and the amount of a token. -/
def Token.mark (t : Token) : Mark where
  kind := t.kind
  amount := t.delta

/-! ### Links of the linker -/

/-- The open heads are heads of loops, and nothing but an end of a loop is linked. -/
structure Linker.Tidy (l : Linker) : Prop where
  kind_head : ∀ h ∈ l.heads, ∃ t : Token, l.tokens[h]? = some t ∧ t.kind = .loopOpen
  partner_eq : ∀ (i : Nat) (t : Token),
    l.tokens[i]? = some t → t.kind.isLoop = false → t.partner = none

namespace Linker.Tidy

variable {l : Linker} {t : Token}

/-- A token that is put behind the others, while the heads stay where they are. -/
theorem push_tokens (hl : l.Tidy) (ht : t.kind.isLoop = false → t.partner = none) :
    Tidy { tokens := l.tokens.push t, heads := l.heads } := by
  refine ⟨fun h hmem => ?_, fun i s hget hkind => ?_⟩
  · obtain ⟨s, hget, hkind⟩ := hl.kind_head h hmem
    obtain ⟨hlt, -⟩ := Array.getElem?_eq_some_iff.mp hget
    refine ⟨s, ?_, hkind⟩
    rw [Array.getElem?_push, if_neg (Nat.ne_of_lt hlt), hget]
  · rw [Array.getElem?_push] at hget
    split at hget
    · cases hget
      exact ht hkind
    · exact hl.partner_eq i s hget hkind

/-- A link at one of the open heads. -/
theorem modify_tokens (hl : l.Tidy) {head : Nat} (hmem : head ∈ l.heads) (partner : Option Nat) :
    Tidy { tokens := l.tokens.modify head fun t => { t with partner }, heads := l.heads } := by
  refine ⟨fun h hmem' => ?_, fun i s hget hkind => ?_⟩
  · obtain ⟨s, hget, hkind⟩ := hl.kind_head h hmem'
    refine ⟨if head = h then { s with partner } else s, ?_, by split <;> exact hkind⟩
    rw [Array.getElem?_modify, hget]
    split <;> rfl
  · rw [Array.getElem?_modify] at hget
    split at hget
    · -- the token at the head is an end of a loop, so there is nothing to show for it
      rename_i heq
      obtain ⟨s', hget', hkind'⟩ := hl.kind_head head hmem
      rw [← heq, hget'] at hget
      cases hget
      rw [hkind'] at hkind
      cases hkind
    · exact hl.partner_eq i s hget hkind

theorem of_heads {heads : List Nat} (hl : l.Tidy)
    (h : ∀ h ∈ heads, ∃ t : Token, l.tokens[h]? = some t ∧ t.kind = .loopOpen) :
    Tidy { tokens := l.tokens, heads } :=
  ⟨h, hl.partner_eq⟩

/-- **One token** that is not linked yet. -/
theorem push (hl : l.Tidy) (ht : t.partner = none) : (l.push t).Tidy := by
  rw [Linker.push]
  split
  · rename_i hkind
    have hpushed := hl.push_tokens (t := t) fun _ => ht
    refine hpushed.of_heads fun h hmem => ?_
    rcases List.mem_cons.mp hmem with rfl | hmem
    · exact ⟨t, by simp, hkind⟩
    · exact hpushed.kind_head h hmem
  · rename_i head heads hkind hheads
    have hmem : head ∈ l.heads := by simp [hheads]
    have hmodified := hl.modify_tokens hmem (some l.tokens.size)
    have hpushed := hmodified.push_tokens (t := { t with partner := some head })
      (by simp [hkind, Kind.isLoop])
    refine hpushed.of_heads fun h hmem => hpushed.kind_head h ?_
    rw [hheads]
    exact List.mem_cons_of_mem head hmem
  · exact hl.push_tokens fun _ => ht

theorem foldl_push {ts : List Token} (hl : l.Tidy) (hts : ∀ t ∈ ts, t.partner = none) :
    (ts.foldl Linker.push l).Tidy := by
  induction ts generalizing l with
  | nil => exact hl
  | cons t ts ih =>
    refine ih (hl.push (hts t List.mem_cons_self)) fun s hs => hts s (List.mem_cons_of_mem t hs)

end Linker.Tidy

/-- The tokens that are read have no links. -/
theorem Token.partner_of_mem_ofLexemes {optimize : Bool} {ls : List Lexeme} {t : Token}
    (h : t ∈ ofLexemes optimize ls) : t.partner = none := by
  obtain ⟨sub, hread, -⟩ := exists_sublist_readFrom optimize ls
  exact ((List.forall₂_and_left _ _).mp (hread.imp fun _ _ hl => ⟨hl.partner_eq, hl⟩)).1 t h

namespace Program

variable {p q : Program} {source source' : String} {optimize optimize' : Bool} {i j : Nat}

/-- In the program of a source, nothing but an end of a loop is linked. -/
theorem partner_of_ofSource (h : ofSource source optimize = .ok p)
    (hkind : (p.kindAt i).isLoop = false) : (p.tokenAt i).partner = none := by
  have hempty : Linker.Tidy {} := by
    refine ⟨by simp, fun i t hget _ => ?_⟩
    obtain rfl : Token.start = t := by
      cases i with
      | zero => exact Option.some.inj hget
      | succ i => simp at hget
    rfl
  have htidy := hempty.foldl_push fun t (ht : t ∈ Token.ofLexemes optimize (Lexeme.scan source)) =>
    Token.partner_of_mem_ofLexemes ht
  by_cases hi : i < p.size
  · have hget := tokens_getElem? hi
    rw [tokens_of_ofSource h, Token.link, Array.getElem?_push] at hget
    split at hget
    · rw [← Option.some.inj hget]
      rfl
    · exact htidy.partner_eq i _ hget hkind
  · rw [tokenAt, Array.getD_eq_getD_getElem?, Array.getElem?_eq_none (Nat.le_of_not_lt hi)]
    rfl

/-- **The links of a source are those of its brackets.** -/
theorem partner_eq_some_iff (h : ofSource source optimize = .ok p) :
    (p.tokenAt i).partner = some j ↔ Mates p.kinds i j := by
  have hp := wellFormed_of_ofSource h
  constructor
  · intro hpartner
    cases hkind : (p.kindAt i).isLoop with
    | true =>
      obtain ⟨j', hmates, hpartner'⟩ := hp.exists_mates hkind
      obtain rfl : j' = j := Option.some.inj (hpartner'.symm.trans hpartner)
      exact hmates
    | false =>
      rw [partner_of_ofSource h hkind] at hpartner
      cases hpartner
  · intro hmates
    refine hp.proper.partner_eq_of_mates hmates (Kind.isLoop_iff.mpr ?_)
    rw [kindAt_eq_getD]
    rcases hmates with hmatch | hmatch
    · obtain ⟨k, hget, hbracket⟩ := hmatch.opening
      exact ⟨_, by rwa [hget]⟩
    · obtain ⟨k, hget, hbracket⟩ := hmatch.closing
      exact ⟨_, by rwa [hget]⟩

/-- The kinds and the amounts of the tokens. -/
def marks (p : Program) : List Mark := p.tokens.toList.map Token.mark

/-- The kinds, the amounts and the partners of the tokens. -/
def shape (p : Program) : List (Mark × Option Nat) :=
  p.tokens.toList.map fun t => (t.mark, t.partner)

theorem map_kind_marks (p : Program) : p.marks.map Mark.kind = p.kinds := by
  rw [marks, List.map_map]
  rfl

theorem map_fst_shape (p : Program) : p.shape.map Prod.fst = p.marks := by
  rw [shape, List.map_map]
  rfl

/-- **The marks of a source** are those of the tokens that were read, inside of the frame. -/
theorem marks_of_ofSource (h : ofSource source optimize = .ok p) :
    p.marks = Mark.framed ((Token.ofLexemes optimize (Lexeme.scan source)).map Token.mark) := by
  have hmarks : ∀ ts : List Token, (ts.map Token.unlinked).map Token.mark = ts.map Token.mark := by
    intro ts
    rw [List.map_map]
    rfl
  rw [marks, ← hmarks, tokens_of_ofSource h, Token.map_unlinked_link, List.map_cons,
    List.map_append, hmarks]
  rfl

/-- **Marks decide over the shape.** -/
theorem shape_eq_of_marks_eq (h : ofSource source optimize = .ok p)
    (h' : ofSource source' optimize' = .ok q) (hmarks : q.marks = p.marks) : q.shape = p.shape := by
  have hkinds : q.kinds = p.kinds := by rw [← map_kind_marks, hmarks, map_kind_marks]
  have hsize : q.size = p.size := by rw [← length_kinds, hkinds, length_kinds]
  have hpartner : ∀ i, (q.tokenAt i).partner = (p.tokenAt i).partner := by
    intro i
    refine Option.ext fun j => ?_
    rw [partner_eq_some_iff h, partner_eq_some_iff h', hkinds]
  refine List.ext_getElem? fun i => ?_
  by_cases hi : i < p.size
  · have hmark := congrArg (·[i]?) hmarks
    simp only [marks, shape, List.getElem?_map, Array.getElem?_toList, tokens_getElem? hi,
      tokens_getElem? (hsize ▸ hi), Option.map_some, Option.some.injEq] at hmark ⊢
    rw [hmark, hpartner]
  · have hlength : ∀ r : Program, r.shape.length = r.size := by simp [shape, size]
    rw [List.getElem?_eq_none, List.getElem?_eq_none] <;> rw [hlength] <;> omega

end Program

end ReversibleTape
