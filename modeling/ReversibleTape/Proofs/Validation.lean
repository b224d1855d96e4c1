import ReversibleTape.Proofs.Brackets
import ReversibleTape.Proofs.Code

/-!
# What the check of a program accepts

`Program.Proper` says what a program has to be without a word on how that is checked: the frame
stands at the two ends and nowhere else, additions and moves have an amount, **the kinds are a
balanced word of brackets**, and the partner of each end of a loop is the index of the bracket that
matches it in this word. `Program.validate_eq_ok_iff_proper` shows that these are exactly the
programs that pass. Since a bracket has one mate at most, the links of a program that passes are
determined by its kinds.

Structured code stands between the two. The tokens of code are a balanced word
(`Program.Spells.exists_word`), and a balanced word between the frame spells code as soon as the
links are those of the word (`Program.Proper.exists_spells`). That `Program.validate` ignores the
heads which are still open at the end is no exception: a head passes only if its link leads to a
tail further on.
-/

namespace ReversibleTape

open Bracketed (bracket?)
open Brackets (Balanced Matches Mates)

/-- The kinds of the two ends of a loop are brackets. -/
instance : Bracketed Kind where
  bracket?
    | .loopOpen => some .opening
    | .loopClose => some .closing
    | .start | .add | .shift | .output | .input | .zero | .finish => none

theorem Kind.bracket?_eq_opening_iff {k : Kind} : bracket? k = some .opening ↔ k = .loopOpen := by
  cases k <;> decide

theorem Kind.bracket?_eq_closing_iff {k : Kind} : bracket? k = some .closing ↔ k = .loopClose := by
  cases k <;> decide

theorem Kind.isLoop_iff {k : Kind} : k.isLoop = true ↔ ∃ bracket, bracket? k = some bracket := by
  cases k <;> simp [isLoop, bracket?]

/-- A token that is neither of the frame nor of a loop is an instruction, if it has an amount where
it needs one. -/
theorem Token.exists_instr? {t : Token} (hframe : t.kind.isSentinel = false)
    (hletter : bracket? t.kind = none) (hdelta : t.kind.isFoldable = true → t.delta ≠ 0) :
    ∃ x, t.instr? = some x := by
  cases hkind : t.kind <;>
    simp_all [instr?, Kind.isSentinel, Kind.isFoldable, bracket?]

namespace Program

variable {p q : Program} {code : Code} {w : List Kind} {k : Kind} {i j o c : Nat}

/-- The kinds of the tokens. -/
def kinds (p : Program) : List Kind := p.tokens.toList.map Token.kind

@[simp] theorem length_kinds (p : Program) : p.kinds.length = p.size := by
  simp [kinds, size]

theorem kinds_getElem? (h : i < p.size) : p.kinds[i]? = some (p.kindAt i) := by
  rw [kinds, List.getElem?_map, Array.getElem?_toList, tokens_getElem? h]
  rfl

/-- The kind of a token can be read off the kinds. -/
theorem kindAt_eq_getD (p : Program) (i : Nat) : p.kindAt i = p.kinds[i]?.getD .finish := by
  by_cases h : i < p.size
  · rw [kinds_getElem? h, Option.getD_some]
  · rw [List.getElem?_eq_none (by rw [length_kinds]; omega), kindAt_of_size_le (by omega),
      Option.getD_none]

/-- The kinds from an index on begin with the kind at that index. -/
theorem drop_kinds (h : i < p.size) :
    p.kinds.drop i = p.kindAt i :: p.kinds.drop (i + 1) := by
  rw [kinds, ← List.map_drop, drop_tokens_eq_cons h, List.map_cons, List.map_drop]
  rfl

theorem drop_kinds_eq_cons_iff :
    p.kinds.drop i = k :: w ↔ i < p.size ∧ p.kindAt i = k ∧ p.kinds.drop (i + 1) = w := by
  constructor
  · intro h
    have hlt : i < p.size := by
      rw [← length_kinds]
      refine Nat.lt_of_not_le fun hle => ?_
      rw [List.drop_eq_nil_of_le hle] at h
      cases h
    rw [drop_kinds hlt] at h
    exact ⟨hlt, List.cons.inj h⟩
  · rintro ⟨hlt, rfl, rfl⟩
    exact drop_kinds hlt

/-- A frame holds no brackets, so the kinds are balanced if those between the frame are. -/
theorem balanced_kinds_iff (hsize : 2 ≤ p.size) (hstart : p.kindAt 0 = .start)
    (hfinish : p.kindAt p.endIndex = .finish)
    (hw : p.kinds.drop 1 = w ++ p.kinds.drop p.endIndex) : Balanced p.kinds ↔ Balanced w := by
  have hlast : p.kinds.drop (p.endIndex + 1) = [] :=
    List.drop_eq_nil_of_le (by rw [length_kinds, endIndex]; omega)
  have hframe : Balanced [Kind.finish] := (Brackets.balanced_cons_iff rfl).mpr Brackets.balanced_nil
  rw [← List.drop_zero (l := p.kinds), drop_kinds (by omega), hw,
    drop_kinds (by rw [endIndex]; omega), hlast, hstart, hfinish, Brackets.balanced_cons_iff rfl]
  exact ⟨fun h => h.of_append hframe, fun h => h.append_iff.mpr hframe⟩

/-- **Well-formed programs, told without a check.** -/
structure Proper (p : Program) : Prop where
  two_le_size : 2 ≤ p.size
  kindAt_zero : p.kindAt 0 = .start
  kindAt_endIndex : p.kindAt p.endIndex = .finish
  /-- No other token is of the frame. -/
  kindAt_inner : ∀ i, 0 < i → i < p.endIndex → (p.kindAt i).isSentinel = false
  /-- Additions and moves have an amount. -/
  delta_ne_zero : ∀ i, (p.kindAt i).isFoldable = true → (p.tokenAt i).delta ≠ 0
  /-- The two ends of loops are balanced brackets. -/
  balanced : Balanced p.kinds
  /-- Each end of a loop is linked to the bracket that matches it. -/
  partner_eq : ∀ i, (p.kindAt i).isLoop = true →
    ∃ j, Mates p.kinds i j ∧ (p.tokenAt i).partner = some j

/-! ### From code to brackets -/

/-- **Code is a balanced word.** -/
theorem Spells.exists_word (h : p.Spells i code j) :
    ∃ w, p.kinds.drop i = w ++ p.kinds.drop j ∧ i + w.length = j ∧ Balanced w := by
  induction h with
  | skip i => exact ⟨[], rfl, rfl, Brackets.balanced_nil⟩
  | @instr i x token =>
    obtain ⟨-, hhead, htail, hfinish⟩ := kindAt_of_instr? token
    have hletter : bracket? (p.kindAt i) = none := by
      cases hbracket : bracket? (p.kindAt i) with
      | none => rfl
      | some bracket =>
        cases bracket with
        | opening => exact absurd (Kind.bracket?_eq_opening_iff.mp hbracket) hhead
        | closing => exact absurd (Kind.bracket?_eq_closing_iff.mp hbracket) htail
    refine ⟨[p.kindAt i], drop_kinds (lt_size_of_kindAt hfinish), rfl, ?_⟩
    exact (Brackets.balanced_cons_iff hletter).mpr Brackets.balanced_nil
  | seq _ _ ih₁ ih₂ =>
    obtain ⟨u, hu, hlength, hbalanced⟩ := ih₁
    obtain ⟨v, hv, hlength', hbalanced'⟩ := ih₂
    refine ⟨u ++ v, by rw [hu, hv, List.append_assoc], ?_, hbalanced.append_iff.mpr hbalanced'⟩
    rw [List.length_append]
    omega
  | @loop o c body link inner ih =>
    obtain ⟨w, hw, hlength, hbalanced⟩ := ih
    have hc : c < p.size := lt_size_of_kindAt (by simp [link.kind_tail])
    have ho : o < p.size := Nat.lt_trans link.lt hc
    refine ⟨p.kindAt o :: (w ++ [p.kindAt c]), ?_, ?_, ?_⟩
    · rw [drop_kinds ho, hw, drop_kinds hc, List.cons_append, List.append_assoc]
      rfl
    · rw [List.length_cons, List.length_append, List.length_singleton]
      omega
    · refine (Balanced.pair_iff ?_ ?_ hbalanced).mpr Brackets.balanced_nil
      · exact Kind.bracket?_eq_opening_iff.mpr link.kind_head
      · exact Kind.bracket?_eq_closing_iff.mpr link.kind_tail

namespace WellFormed

/-- The kinds of a well-formed program are balanced. -/
theorem balanced_kinds (hp : p.WellFormed) : Balanced p.kinds := by
  obtain ⟨hsize, hstart, hfinish, -⟩ := wellFormed_iff.mp hp
  obtain ⟨w, hw, -, hbalanced⟩ := hp.spells_code.exists_word
  exact (balanced_kinds_iff hsize hstart hfinish hw).mpr hbalanced

/-- The two ends of a loop match. -/
theorem matches_of_link (hp : p.WellFormed) (h : p.Link o c) : Matches p.kinds o c := by
  have htail := hp.tail_lt_endIndex h
  have hc : c < p.size := Nat.lt_trans htail hp.endIndex_lt_size
  have ho : o < p.size := Nat.lt_trans h.lt hc
  obtain ⟨w, hw, hlength, hbalanced⟩ := (hp.spells_codeBetween (Nat.succ_pos o) h.lt
    (Nat.le_of_lt htail) (hp.closed_body h)).exists_word
  have htake : o = (p.kinds.take o).length := by
    rw [List.length_take, length_kinds]
    omega
  refine ⟨p.kinds.take o, p.kindAt o, w, p.kindAt c, p.kinds.drop (c + 1), ?_, htake, by omega,
    Kind.bracket?_eq_opening_iff.mpr h.kind_head, Kind.bracket?_eq_closing_iff.mpr h.kind_tail,
    hbalanced⟩
  rw [← drop_kinds hc, ← hw, ← drop_kinds ho, List.take_append_drop]

/-- An end of a loop is linked to its mate. -/
theorem exists_mates (hp : p.WellFormed) (h : (p.kindAt i).isLoop = true) :
    ∃ j, Mates p.kinds i j ∧ (p.tokenAt i).partner = some j := by
  obtain ⟨bracket, hbracket⟩ := Kind.isLoop_iff.mp h
  cases bracket with
  | opening =>
    obtain ⟨c, hlink, -⟩ := hp.link_of_head (Kind.bracket?_eq_opening_iff.mp hbracket)
    exact ⟨c, .inl (hp.matches_of_link hlink), hlink.partner_head⟩
  | closing =>
    obtain ⟨o, hlink, -⟩ := hp.link_of_tail (Kind.bracket?_eq_closing_iff.mp hbracket)
    exact ⟨o, .inr (hp.matches_of_link hlink), hlink.partner_tail⟩

theorem proper (hp : p.WellFormed) : p.Proper where
  two_le_size := (wellFormed_iff.mp hp).1
  kindAt_zero := hp.kindAt_zero
  kindAt_endIndex := hp.kindAt_endIndex
  kindAt_inner := by
    intro i hpos hlt
    obtain ⟨hstart, hfinish⟩ := hp.kindAt_inner hpos hlt
    simp [Kind.isSentinel, hstart, hfinish]
  delta_ne_zero := by
    intro i hkind
    exact hp.delta_ne_zero (by simpa [Kind.isFoldable] using hkind)
  balanced := hp.balanced_kinds
  partner_eq := fun _ => hp.exists_mates

end WellFormed

/-! ### From brackets to code -/

namespace Proper

/-- An end of a loop is linked to the bracket that matches it. -/
theorem partner_eq_of_mates (hp : p.Proper) (h : Mates p.kinds i j)
    (hkind : (p.kindAt i).isLoop = true) : (p.tokenAt i).partner = some j := by
  obtain ⟨j', hmates, hpartner⟩ := hp.partner_eq i hkind
  rw [hpartner, hmates.unique h]

/-- Matching brackets are linked to each other. -/
theorem link_of_matches (hp : p.Proper) (hhead : p.kindAt o = .loopOpen)
    (htail : p.kindAt c = .loopClose) (h : Matches p.kinds o c) : p.Link o c where
  kind_head := hhead
  kind_tail := htail
  partner_head := hp.partner_eq_of_mates (.inl h) (by rw [hhead]; rfl)
  partner_tail := hp.partner_eq_of_mates (.inr h) (by rw [htail]; rfl)
  lt := h.lt

/-- **A balanced word between the frame spells code.** -/
theorem exists_spells (hp : p.Proper) (hw : Balanced w) (hpos : 0 < i) (hj : j ≤ p.endIndex)
    (hlength : i + w.length = j) (hword : p.kinds.drop i = w ++ p.kinds.drop j) :
    ∃ code, p.Spells i code j := by
  induction hw using Balanced.induction generalizing i j with
  | nil =>
    obtain rfl : i = j := hlength
    exact ⟨.skip, .skip i⟩
  | letter k w hk _ ih =>
    obtain ⟨-, rfl, hrest⟩ := drop_kinds_eq_cons_iff.mp hword
    rw [List.length_cons] at hlength
    obtain ⟨x, hx⟩ := Token.exists_instr? (hp.kindAt_inner i hpos (by omega)) hk
      (hp.delta_ne_zero i)
    obtain ⟨code, hspells⟩ := ih (Nat.succ_pos i) hj (by omega) hrest
    exact ⟨_, .seq (.instr hx) hspells⟩
  | pair k u l v hk hl hu _ ihu ihv =>
    rw [List.cons_append, List.append_assoc, List.cons_append] at hword
    obtain ⟨hlt, hkind, hbody⟩ := drop_kinds_eq_cons_iff.mp hword
    rw [List.length_cons, List.length_append, List.length_cons] at hlength
    have htail : p.kinds.drop (i + 1 + u.length) = l :: (v ++ p.kinds.drop j) := by
      rw [← List.drop_drop, hbody, List.drop_left]
    obtain ⟨-, hkind', hrest⟩ := drop_kinds_eq_cons_iff.mp htail
    rw [← htail] at hbody
    -- the bracket found in the word is the one to which the head is linked
    have hmatch : Matches p.kinds i (i + 1 + u.length) := by
      have htake : i = (p.kinds.take i).length := by
        rw [List.length_take, length_kinds]
        omega
      refine ⟨p.kinds.take i, k, u, l, v ++ p.kinds.drop j, ?_, htake, by omega, hk, hl, hu⟩
      rw [← hword, List.take_append_drop]
    have hlink : p.Link i (i + 1 + u.length) := by
      refine hp.link_of_matches ?_ ?_ hmatch
      · rw [hkind, ← Kind.bracket?_eq_opening_iff, hk]
      · rw [hkind', ← Kind.bracket?_eq_closing_iff, hl]
    obtain ⟨body, hinner⟩ := ihu (Nat.succ_pos i) (by omega) rfl hbody
    obtain ⟨rest, hafter⟩ := ihv (Nat.succ_pos _) hj (by omega) hrest
    exact ⟨_, .seq (.loop hlink hinner) hafter⟩

theorem wellFormed (hp : p.Proper) : p.WellFormed := by
  obtain ⟨w, hw, hlength⟩ : ∃ w, p.kinds.drop 1 = w ++ p.kinds.drop p.endIndex ∧
      1 + w.length = p.endIndex := by
    have hsize := hp.two_le_size
    refine ⟨(p.kinds.drop 1).take (p.endIndex - 1), ?_, ?_⟩
    · have hdrop : (p.kinds.drop 1).drop (p.endIndex - 1) = p.kinds.drop p.endIndex := by
        rw [List.drop_drop, endIndex, show 1 + (p.size - 1 - 1) = p.size - 1 by omega]
      rw [← hdrop, List.take_append_drop]
    · rw [List.length_take, List.length_drop, length_kinds, endIndex]
      omega
  have hbalanced : Balanced w :=
    (balanced_kinds_iff hp.two_le_size hp.kindAt_zero hp.kindAt_endIndex hw).mp hp.balanced
  obtain ⟨code, hspells⟩ := hp.exists_spells hbalanced Nat.one_pos (Nat.le_refl _) hlength hw
  exact wellFormed_of_spells hp.kindAt_zero hp.kindAt_endIndex hspells

end Proper

/-- **What the check accepts.** A program passes exactly if it is proper, and two programs that pass
and have the same kinds have the same links. -/
theorem validate_eq_ok_iff_proper (p : Program) :
    (p.validate = .ok () ↔ p.Proper) ∧
      ∀ q : Program, p.validate = .ok () → q.validate = .ok () → q.kinds = p.kinds →
        ∀ i, (p.kindAt i).isLoop = true → (q.tokenAt i).partner = (p.tokenAt i).partner := by
  refine ⟨⟨WellFormed.proper, Proper.wellFormed⟩, fun q hp hq hkinds i hloop => ?_⟩
  obtain ⟨j, hmates, hpartner⟩ := WellFormed.exists_mates hp hloop
  have hloop' : (q.kindAt i).isLoop = true := by
    rwa [kindAt_eq_getD, hkinds, ← kindAt_eq_getD]
  rw [hpartner, (WellFormed.proper hq).partner_eq_of_mates (hkinds ▸ hmates) hloop']

/-- Two loops, one inside the other. -/
def nested : Program where
  tokens := #[.start, { kind := .loopOpen, partner := some 4 },
    { kind := .loopOpen, partner := some 3 }, { kind := .loopClose, partner := some 2 },
    { kind := .loopClose, partner := some 1 }, .finish]

/-- The same kinds, but the links cross each other. -/
def crossed : Program where
  tokens := #[.start, { kind := .loopOpen, partner := some 3 },
    { kind := .loopOpen, partner := some 4 }, { kind := .loopClose, partner := some 1 },
    { kind := .loopClose, partner := some 2 }, .finish]

theorem validate_eq_ok_iff_proper_nested :
    nested.Proper ∧ crossed.kinds = nested.kinds ∧ ¬crossed.Proper ∧
      ∀ q : Program, q.validate = .ok () → q.kinds = nested.kinds →
        (q.tokenAt 1).partner = some 4 := by
  have hnested : nested.validate = .ok () := rfl
  have hcrossed : crossed.validate = .error (.malformedProgram 3 .crossingLoops) := rfl
  obtain ⟨hiff, hlinks⟩ := validate_eq_ok_iff_proper nested
  refine ⟨hiff.mp hnested, rfl, fun hproper => ?_, fun q hq hkinds => ?_⟩
  · have haccepted := (validate_eq_ok_iff_proper crossed).1.mpr hproper
    rw [hcrossed] at haccepted
    cases haccepted
  · exact hlinks q hnested hq hkinds 1 rfl

end Program

end ReversibleTape
