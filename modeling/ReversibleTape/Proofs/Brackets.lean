import Mathlib.Order.Bounds.Basic

/-!
# Words with brackets

Tokens, lexemes and characters are letters of which some are brackets (`Bracketed`), and what a
loop is depends on nothing else. A word of such letters is **balanced** when it holds as many
closing brackets as opening ones and none of its beginnings holds more of them
(`Brackets.Balanced`). Two brackets **match** when the word between them is balanced
(`Brackets.Matches`). Both notions count; they know neither stacks nor links.

* `Brackets.Balanced.induction`: a balanced word is empty, or a letter and a balanced word, or a
  pair of brackets around a balanced word, and a balanced word behind it.
* `Brackets.Matches.closing_unique`, `Brackets.Matches.opening_unique`: a bracket matches one other
  bracket at most, and in a balanced word it does match one (`Brackets.Balanced.exists_mates`).
* `Brackets.balanced_or`: a word that is not balanced has a beginning that is, followed by a closing
  bracket, or by an opening one that nothing behind it closes.

The bracket to blame for a word that is not balanced (`Brackets.Blamed`) is the first closing one
with too many of its kind up to it. If there is none, it is the first opening one that matches
nothing.
-/

namespace ReversibleTape

/-- The two brackets. -/
inductive Bracket
  | opening
  | closing
  deriving DecidableEq

/-- Letters of which some are brackets. -/
class Bracketed (α : Type) where
  /-- The bracket that a letter is, if it is one. -/
  bracket? : α → Option Bracket

namespace Brackets

open Bracketed (bracket?)

variable {α : Type} [Bracketed α] {a b : α} {u v w : List α} {depth i j o c : Nat}

/-! ### Counting -/

/-- The number of opening brackets. -/
def opens (w : List α) : Nat := w.countP fun a => bracket? a = some .opening

/-- The number of closing brackets. -/
def closes (w : List α) : Nat := w.countP fun a => bracket? a = some .closing

@[simp] theorem opens_nil : opens ([] : List α) = 0 := rfl

@[simp] theorem closes_nil : closes ([] : List α) = 0 := rfl

theorem opens_cons_letter (ha : bracket? a = none) : opens (a :: w) = opens w := by
  simp [opens, ha]

theorem closes_cons_letter (ha : bracket? a = none) : closes (a :: w) = closes w := by
  simp [closes, ha]

theorem opens_cons_opening (ha : bracket? a = some .opening) : opens (a :: w) = opens w + 1 := by
  simp [opens, ha]

theorem closes_cons_opening (ha : bracket? a = some .opening) : closes (a :: w) = closes w := by
  simp [closes, ha]

theorem opens_cons_closing (ha : bracket? a = some .closing) : opens (a :: w) = opens w := by
  simp [opens, ha]

theorem closes_cons_closing (ha : bracket? a = some .closing) :
    closes (a :: w) = closes w + 1 := by
  simp [closes, ha]

@[simp] theorem opens_append (u v : List α) : opens (u ++ v) = opens u + opens v :=
  List.countP_append

@[simp] theorem closes_append (u v : List α) : closes (u ++ v) = closes u + closes v :=
  List.countP_append

/-- Behind `depth` brackets that are open, the word never closes more brackets than there are. -/
def Rising (depth : Nat) (w : List α) : Prop := ∀ u, u <+: w → closes u ≤ depth + opens u

/-- **Balanced words** close what they open and nothing else. -/
structure Balanced (w : List α) : Prop where
  rising : Rising 0 w
  closes_eq : closes w = opens w

/-- **Matching brackets**: between them stands a balanced word. -/
structure Matches (w : List α) (o c : Nat) : Prop where
  exists_split : ∃ u a inner b v, w = u ++ a :: (inner ++ b :: v) ∧ o = u.length ∧
    c = u.length + 1 + inner.length ∧ bracket? a = some .opening ∧
    bracket? b = some .closing ∧ Balanced inner

/-- Two brackets match, in either order. -/
def Mates (w : List α) (i j : Nat) : Prop := Matches w i j ∨ Matches w j i

/-! ### Beginnings of words -/

theorem rising_nil (depth : Nat) : Rising depth ([] : List α) := by
  intro u hu
  simp [List.prefix_nil.mp hu]

/-- What a letter does to the number of open brackets. -/
theorem rising_cons_iff : Rising depth (a :: w) ↔
    match bracket? a with
    | none => Rising depth w
    | some .opening => Rising (depth + 1) w
    | some .closing => 0 < depth ∧ Rising (depth - 1) w := by
  have hcons : Rising depth (a :: w) ↔
      ∀ u, u <+: w → closes (a :: u) ≤ depth + opens (a :: u) := by
    constructor
    · exact fun h u hu => h _ ((List.prefix_cons_inj a).mpr hu)
    · intro h u hu
      rcases List.prefix_cons_iff.mp hu with rfl | ⟨t, rfl, ht⟩
      · simp
      · exact h t ht
  rw [hcons]
  cases ha : bracket? a with
  | none =>
    refine forall₂_congr fun u _ => ?_
    rw [opens_cons_letter ha, closes_cons_letter ha]
  | some bracket =>
    cases bracket with
    | opening =>
      refine forall₂_congr fun u _ => ?_
      rw [opens_cons_opening ha, closes_cons_opening ha]
      omega
    | closing =>
      simp only [opens_cons_closing ha, closes_cons_closing ha]
      constructor
      · intro h
        have hfirst : 0 + 1 ≤ depth + 0 := h [] List.nil_prefix
        refine ⟨by omega, fun u hu => ?_⟩
        have hle := h u hu
        omega
      · rintro ⟨hpos, h⟩ u hu
        have hle := h u hu
        omega

/-- The second part of a word starts with the brackets that the first part leaves open. -/
theorem rising_append_iff :
    Rising depth (u ++ v) ↔ Rising depth u ∧ Rising (depth + opens u - closes u) v := by
  constructor
  · refine fun h => ⟨fun x hx => h x (hx.trans (List.prefix_append u v)), fun x hx => ?_⟩
    have hle := h (u ++ x) ((List.prefix_append_right_inj u).mpr hx)
    rw [opens_append, closes_append] at hle
    omega
  · rintro ⟨hu, hv⟩ x hx
    rcases List.prefix_or_prefix_of_prefix hx (List.prefix_append u v) with hx' | ⟨y, rfl⟩
    · exact hu x hx'
    · have hle := hv y ((List.prefix_append_right_inj u).mp hx)
      have hle' := hu u (List.prefix_refl u)
      rw [opens_append, closes_append]
      omega

/-- **The first fall**: a word that closes too many brackets has a first letter that does, and the
word before it closes all that are open. -/
theorem exists_fall (h : ¬Rising depth w) :
    ∃ u a v, w = u ++ a :: v ∧ bracket? a = some .closing ∧ Rising depth u ∧
      closes u = depth + opens u := by
  induction w generalizing depth with
  | nil => exact absurd (rising_nil depth) h
  | cons a w ih =>
    rw [rising_cons_iff] at h
    -- a letter that is not the one we look for goes to the front of the word before it
    have hstep : ∀ depth' : Nat, ¬Rising depth' w →
        (∀ u, Rising depth' u → closes u = depth' + opens u →
          Rising depth (a :: u) ∧ closes (a :: u) = depth + opens (a :: u)) →
        ∃ u b v, a :: w = u ++ b :: v ∧ bracket? b = some .closing ∧ Rising depth u ∧
          closes u = depth + opens u := by
      intro depth' hfall hcons
      obtain ⟨u, b, v, rfl, hb, hu, hcount⟩ := ih hfall
      exact ⟨a :: u, b, v, rfl, hb, hcons u hu hcount⟩
    cases ha : bracket? a with
    | none =>
      refine hstep _ (by simpa [ha] using h) fun u hu hcount => ⟨?_, ?_⟩
      · rw [rising_cons_iff, ha]
        exact hu
      · rwa [opens_cons_letter ha, closes_cons_letter ha]
    | some bracket =>
      cases bracket with
      | opening =>
        refine hstep _ (by simpa [ha] using h) fun u hu hcount => ⟨?_, ?_⟩
        · rw [rising_cons_iff, ha]
          exact hu
        · rw [opens_cons_opening ha, closes_cons_opening ha]
          omega
      | closing =>
        rcases Nat.eq_zero_or_pos depth with rfl | hpos
        · exact ⟨[], a, w, rfl, ha, rising_nil 0, rfl⟩
        · refine hstep (depth - 1) (by simpa [ha, hpos] using h)
            fun u hu hcount => ⟨?_, ?_⟩
          · rw [rising_cons_iff, ha]
            exact ⟨hpos, hu⟩
          · rw [opens_cons_closing ha, closes_cons_closing ha]
            omega

/-! ### Balanced words -/

theorem balanced_nil : Balanced ([] : List α) := ⟨rising_nil 0, rfl⟩

theorem balanced_cons_iff (ha : bracket? a = none) : Balanced (a :: w) ↔ Balanced w := by
  constructor
  · rintro ⟨hrising, hcount⟩
    rw [rising_cons_iff, ha] at hrising
    exact ⟨hrising, by rwa [opens_cons_letter ha, closes_cons_letter ha] at hcount⟩
  · rintro ⟨hrising, hcount⟩
    refine ⟨?_, by rwa [opens_cons_letter ha, closes_cons_letter ha]⟩
    rw [rising_cons_iff, ha]
    exact hrising

/-- A word behind a balanced one is on its own. -/
theorem Balanced.rising_append_iff (hu : Balanced u) : Rising 0 (u ++ v) ↔ Rising 0 v := by
  have hdepth : 0 + opens u - closes u = 0 := by
    rw [hu.closes_eq]
    omega
  rw [Brackets.rising_append_iff, hdepth, and_iff_right hu.rising]

theorem Balanced.append_iff (hu : Balanced u) : Balanced (u ++ v) ↔ Balanced v := by
  have hcount := hu.closes_eq
  constructor
  · rintro ⟨hrising, hboth⟩
    rw [opens_append, closes_append] at hboth
    exact ⟨hu.rising_append_iff.mp hrising, by omega⟩
  · rintro ⟨hrising, hv⟩
    refine ⟨hu.rising_append_iff.mpr hrising, ?_⟩
    rw [opens_append, closes_append]
    omega

/-- A word in front of a balanced one is on its own. -/
theorem Balanced.of_append (h : Balanced (u ++ v)) (hv : Balanced v) : Balanced u := by
  have hcount := h.closes_eq
  have hcount' := hv.closes_eq
  rw [opens_append, closes_append] at hcount
  exact ⟨(Brackets.rising_append_iff.mp h.rising).1, by omega⟩

/-- The word behind an opening bracket and its partner is on its own. -/
theorem Balanced.rising_pair_iff (ha : bracket? a = some .opening) (hb : bracket? b = some .closing)
    (hu : Balanced u) : Rising 0 (a :: (u ++ b :: v)) ↔ Rising 0 v := by
  have hrising : Rising 1 u := fun x hx => Nat.le_trans (hu.rising x hx) (by omega)
  have hdepth : 0 + 1 + opens u - closes u = 1 := by
    rw [hu.closes_eq]
    omega
  rw [rising_cons_iff, ha]
  simp only
  rw [Brackets.rising_append_iff, hdepth, rising_cons_iff, hb]
  exact ⟨fun h => h.2.2, fun h => ⟨hrising, Nat.one_pos, h⟩⟩

theorem Balanced.pair_iff (ha : bracket? a = some .opening) (hb : bracket? b = some .closing)
    (hu : Balanced u) : Balanced (a :: (u ++ b :: v)) ↔ Balanced v := by
  have hcount := hu.closes_eq
  have hcounts : closes (a :: (u ++ b :: v)) = opens (a :: (u ++ b :: v)) ↔
      closes v = opens v := by
    rw [opens_cons_opening ha, closes_cons_opening ha, opens_append, closes_append,
      opens_cons_closing hb, closes_cons_closing hb]
    omega
  constructor
  · exact fun h => ⟨(rising_pair_iff ha hb hu).mp h.rising, hcounts.mp h.closes_eq⟩
  · exact fun h => ⟨(rising_pair_iff ha hb hu).mpr h.rising, hcounts.mpr h.closes_eq⟩

/-- An opening bracket at the beginning of a balanced word is closed in it. -/
theorem Balanced.exists_pair (ha : bracket? a = some .opening) (h : Balanced (a :: w)) :
    ∃ u b v, w = u ++ b :: v ∧ bracket? b = some .closing ∧ Balanced u ∧ Balanced v := by
  have hfall : ¬Rising 0 w := by
    intro hrising
    have hle := hrising w (List.prefix_refl w)
    have hcount := h.closes_eq
    rw [opens_cons_opening ha, closes_cons_opening ha] at hcount
    omega
  obtain ⟨u, b, v, rfl, hb, hrising, hcount⟩ := exists_fall hfall
  have hu : Balanced u := ⟨hrising, by omega⟩
  exact ⟨u, b, v, rfl, hb, hu, (pair_iff ha hb hu).mp h⟩

/-- **Induction over balanced words.** -/
@[elab_as_elim]
theorem Balanced.induction {motive : (w : List α) → Balanced w → Prop}
    (nil : motive [] balanced_nil)
    (letter : ∀ a w (ha : bracket? a = none) (hw : Balanced w), motive w hw →
      motive (a :: w) ((balanced_cons_iff ha).mpr hw))
    (pair : ∀ a u b v (ha : bracket? a = some .opening) (hb : bracket? b = some .closing)
      (hu : Balanced u) (hv : Balanced v), motive u hu → motive v hv →
      motive (a :: (u ++ b :: v)) ((pair_iff ha hb hu).mpr hv))
    {w : List α} (h : Balanced w) : motive w h := by
  -- a pair splits the word in two shorter ones, so the induction is on the length
  induction hn : w.length using Nat.strongRecOn generalizing w with
  | ind n ih =>
    cases w with
    | nil => exact nil
    | cons a w =>
      rw [List.length_cons] at hn
      cases ha : bracket? a with
      | none =>
        have hw := (balanced_cons_iff ha).mp h
        exact letter a w ha hw (ih w.length (by omega) hw rfl)
      | some bracket =>
        cases bracket with
        | opening =>
          obtain ⟨u, b, v, rfl, hb, hu, hv⟩ := h.exists_pair ha
          rw [List.length_append, List.length_cons] at hn
          exact pair a u b v ha hb hu hv (ih u.length (by omega) hu rfl)
            (ih v.length (by omega) hv rfl)
        | closing =>
          have hrising := h.rising
          rw [rising_cons_iff, ha] at hrising
          exact absurd hrising.1 (Nat.lt_irrefl 0)

/-! ### Matching brackets -/

theorem Matches.lt (h : Matches w o c) : o < c := by
  obtain ⟨u, a, inner, b, v, -, rfl, rfl, -⟩ := h
  omega

theorem Matches.opening (h : Matches w o c) : ∃ a, w[o]? = some a ∧ bracket? a = some .opening := by
  obtain ⟨u, a, inner, b, v, rfl, rfl, rfl, ha, -⟩ := h
  exact ⟨a, by simp, ha⟩

theorem Matches.closing (h : Matches w o c) : ∃ b, w[c]? = some b ∧ bracket? b = some .closing := by
  obtain ⟨u, a, inner, b, v, rfl, rfl, rfl, -, hb, -⟩ := h
  refine ⟨b, ?_, hb⟩
  rw [List.getElem?_append_right (by omega), show u.length + 1 + inner.length - u.length =
    inner.length + 1 by omega]
  simp

/-- Brackets that match still do in a longer word. -/
theorem Matches.within (h : Matches w o c) (u v : List α) :
    Matches (u ++ (w ++ v)) (u.length + o) (u.length + c) := by
  obtain ⟨x, a, inner, b, y, rfl, rfl, rfl, ha, hb, hinner⟩ := h
  refine ⟨u ++ x, a, inner, b, y ++ v, by simp, by simp, ?_, ha, hb, hinner⟩
  rw [List.length_append]
  omega

/-- No balanced word is a balanced word that goes on with a closing bracket. -/
theorem Balanced.not_append_closing (hu : Balanced u) (hb : bracket? b = some .closing) :
    ¬Balanced (u ++ b :: v) := by
  intro h
  have hrising := ((hu.append_iff).mp h).rising
  rw [rising_cons_iff, hb] at hrising
  exact Nat.lt_irrefl 0 hrising.1

/-- No balanced word is a balanced word that begins with an opening bracket before it. -/
theorem Balanced.not_append_opening (hv : Balanced v) (ha : bracket? a = some .opening) :
    ¬Balanced (u ++ a :: v) := by
  intro h
  have hle := h.rising u (List.prefix_append u _)
  have hcount := h.closes_eq
  have hcount' := hv.closes_eq
  rw [opens_append, closes_append, opens_cons_opening ha, closes_cons_opening ha] at hcount
  omega

/-- An opening bracket matches one closing bracket at most. -/
theorem Matches.closing_unique (h : Matches w o c) (h' : Matches w o i) : c = i := by
  obtain ⟨u, a, x, b, v, rfl, rfl, rfl, -, hb, hx⟩ := h
  obtain ⟨u', a', y, b', v', heq, hlength, rfl, -, hb', hy⟩ := h'
  obtain ⟨rfl, hrest⟩ := List.append_inj heq hlength
  obtain ⟨-, hrest⟩ := List.cons.inj hrest
  -- if one of the inner words were longer, it would go on with the bracket that closes the other
  rcases List.append_eq_append_iff.mp hrest with ⟨z, rfl, hz⟩ | ⟨z, rfl, hz⟩
  · cases z with
    | nil => simp
    | cons d z =>
      obtain ⟨rfl, -⟩ := List.cons.inj hz
      exact absurd hy (hx.not_append_closing hb)
  · cases z with
    | nil => simp
    | cons d z =>
      obtain ⟨rfl, -⟩ := List.cons.inj hz
      exact absurd hx (hy.not_append_closing hb')

/-- A closing bracket matches one opening bracket at most. -/
theorem Matches.opening_unique (h : Matches w o c) (h' : Matches w i c) : o = i := by
  obtain ⟨u, a, x, b, v, rfl, rfl, rfl, ha, -, hx⟩ := h
  obtain ⟨u', a', y, b', v', heq, rfl, hlength, ha', -, hy⟩ := h'
  have hbefore : (u ++ a :: x).length = (u' ++ a' :: y).length := by
    simp only [List.length_append, List.length_cons]
    omega
  have heq' : (u ++ a :: x) ++ b :: v = (u' ++ a' :: y) ++ b' :: v' := by simpa using heq
  obtain ⟨hword, -⟩ := List.append_inj heq' hbefore
  rcases List.append_eq_append_iff.mp hword with ⟨z, rfl, hz⟩ | ⟨z, rfl, hz⟩
  · cases z with
    | nil => simp
    | cons d z =>
      obtain ⟨rfl, rfl⟩ := List.cons.inj hz
      exact absurd hx (hy.not_append_opening ha')
  · cases z with
    | nil => simp
    | cons d z =>
      obtain ⟨rfl, rfl⟩ := List.cons.inj hz
      exact absurd hy (hx.not_append_opening ha)

/-- A bracket has one mate at most. -/
theorem Mates.unique (h : Mates w i j) (h' : Mates w i o) : j = o := by
  have hdisjoint : ∀ {k l}, Matches w i k → ¬Matches w l i := by
    intro k l hopening hclosing
    obtain ⟨a, hget, ha⟩ := hopening.opening
    obtain ⟨b, hget', hb⟩ := hclosing.closing
    obtain rfl : a = b := Option.some.inj (hget.symm.trans hget')
    exact absurd (ha.symm.trans hb) (by decide)
  rcases h with h | h <;> rcases h' with h' | h'
  · exact h.closing_unique h'
  · exact absurd h' (hdisjoint h)
  · exact absurd h (hdisjoint h')
  · exact h.opening_unique h'

/-- In a balanced word every bracket has a mate. -/
theorem Balanced.exists_mates (h : Balanced w) {bracket : Bracket} (hget : w[i]? = some a)
    (ha : bracket? a = some bracket) : ∃ j, Mates w i j := by
  induction h using Balanced.induction generalizing i with
  | nil => simp at hget
  | letter x w hx _ ih =>
    cases i with
    | zero =>
      rw [List.getElem?_cons_zero, Option.some.injEq] at hget
      subst hget
      simp [hx] at ha
    | succ i =>
      obtain ⟨j, hmates⟩ := ih hget
      have hword : x :: w = [x] ++ (w ++ []) := by simp
      rw [hword, Nat.add_comm i 1]
      exact ⟨1 + j, hmates.imp (·.within [x] []) (·.within [x] [])⟩
  | pair x u y v hx hy hu _ ihu ihv =>
    have hpair : Matches (x :: (u ++ y :: v)) 0 (1 + u.length) :=
      ⟨[], x, u, y, v, rfl, rfl, by simp, hx, hy, hu⟩
    rcases Nat.lt_trichotomy i (1 + u.length) with hlt | rfl | hgt
    · cases i with
      | zero => exact ⟨_, .inl hpair⟩
      | succ i =>
        rw [List.getElem?_cons_succ, List.getElem?_append_left (by omega)] at hget
        obtain ⟨j, hmates⟩ := ihu hget
        rw [Nat.add_comm i 1]
        exact ⟨1 + j, hmates.imp (·.within [x] (y :: v)) (·.within [x] (y :: v))⟩
    · exact ⟨0, .inr hpair⟩
    · obtain ⟨k, rfl⟩ : ∃ k, i = u.length + 2 + k := ⟨i - (u.length + 2), by omega⟩
      have hword : x :: (u ++ y :: v) = (x :: u ++ [y]) ++ (v ++ []) := by simp
      have hlength : (x :: u ++ [y]).length = u.length + 2 := by simp
      rw [hword, ← hlength, List.getElem?_append_right (by omega), List.append_nil,
        Nat.add_sub_cancel_left] at hget
      obtain ⟨j, hmates⟩ := ihv hget
      rw [hword, ← hlength]
      exact ⟨_, hmates.imp (·.within _ []) (·.within _ [])⟩

/-! ### Words that are not balanced -/

/-- A word that never closes too many brackets is balanced, or it leaves a bracket open behind a
balanced beginning. -/
theorem Rising.balanced_or (h : Rising 0 w) :
    Balanced w ∨ ∃ u a v, w = u ++ a :: v ∧ bracket? a = some .opening ∧ Balanced u ∧
      Rising 0 v := by
  induction hn : w.length using Nat.strongRecOn generalizing w with
  | ind n ih =>
    cases w with
    | nil => exact .inl balanced_nil
    | cons a w =>
      rw [List.length_cons] at hn
      cases ha : bracket? a with
      | none =>
        have hw : Rising 0 w := by rwa [rising_cons_iff, ha] at h
        rcases ih w.length (by omega) hw rfl with hbalanced | ⟨u, b, v, rfl, hb, hu, hv⟩
        · exact .inl ((balanced_cons_iff ha).mpr hbalanced)
        · exact .inr ⟨a :: u, b, v, rfl, hb, (balanced_cons_iff ha).mpr hu, hv⟩
      | some bracket =>
        cases bracket with
        | opening =>
          by_cases hw : Rising 0 w
          · exact .inr ⟨[], a, w, rfl, ha, balanced_nil, hw⟩
          · -- the bracket is closed, and the argument goes on behind the one that closes it
            obtain ⟨u, b, v, rfl, hb, hrising, hcount⟩ := exists_fall hw
            have hu : Balanced u := ⟨hrising, by omega⟩
            have hv := (Balanced.rising_pair_iff ha hb hu).mp h
            rw [List.length_append, List.length_cons] at hn
            rcases ih v.length (by omega) hv rfl with hbalanced | ⟨x, d, y, rfl, hd, hx, hy⟩
            · exact .inl ((Balanced.pair_iff ha hb hu).mpr hbalanced)
            · exact .inr ⟨a :: (u ++ b :: x), d, y, by simp, hd,
                (Balanced.pair_iff ha hb hu).mpr hx, hy⟩
        | closing =>
          rw [rising_cons_iff, ha] at h
          exact absurd h.1 (Nat.lt_irrefl 0)

/-- **Three kinds of words.** A word is balanced, or behind a balanced beginning it goes on with a
closing bracket, or with an opening one that is never closed. -/
theorem balanced_or (w : List α) :
    Balanced w ∨
      (∃ u a v, w = u ++ a :: v ∧ bracket? a = some .closing ∧ Balanced u) ∨
      ∃ u a v, w = u ++ a :: v ∧ bracket? a = some .opening ∧ Balanced u ∧ Rising 0 v := by
  by_cases h : Rising 0 w
  · rcases h.balanced_or with hbalanced | hopen
    · exact .inl hbalanced
    · exact .inr (.inr hopen)
  · obtain ⟨u, a, v, rfl, ha, hrising, hcount⟩ := exists_fall h
    exact .inr (.inl ⟨u, a, v, rfl, ha, hrising, by omega⟩)

/-! ### The bracket to blame -/

/-- A closing bracket such that there are more of its kind than opening ones up to it. -/
def Exceeds (w : List α) (i : Nat) : Prop :=
  (∃ a, w[i]? = some a ∧ bracket? a = some .closing) ∧
    opens (w.take (i + 1)) < closes (w.take (i + 1))

/-- An opening bracket that matches nothing. -/
def Dangles (w : List α) (i : Nat) : Prop :=
  (∃ a, w[i]? = some a ∧ bracket? a = some .opening) ∧ ∀ c, ¬Matches w i c

/-- **The bracket to blame**: the first one that closes too much, or else the first one that is
never closed. -/
def Blamed (w : List α) (i : Nat) : Prop :=
  IsLeast {j | Exceeds w j} i ∨ (∀ j, ¬Exceeds w j) ∧ IsLeast {j | Dangles w j} i

theorem not_exceeds (h : Rising 0 w) (i : Nat) : ¬Exceeds w i := by
  rintro ⟨-, hlt⟩
  have hle := h (w.take (i + 1)) (List.take_prefix _ w)
  omega

theorem Blamed.unique (h : Blamed w i) (h' : Blamed w j) : i = j := by
  rcases h with h | ⟨hnone, h⟩ <;> rcases h' with h' | ⟨hnone', h'⟩
  · exact h.unique h'
  · exact absurd h.1 (hnone' i)
  · exact absurd h'.1 (hnone j)
  · exact h.unique h'

/-- Nothing is to blame in a balanced word. -/
theorem Balanced.not_blamed (h : Balanced w) (i : Nat) : ¬Blamed w i := by
  rintro (⟨hexceeds, -⟩ | ⟨-, ⟨⟨a, hget, ha⟩, hnone⟩, -⟩)
  · exact not_exceeds h.rising i hexceeds
  · obtain ⟨j, hmatch | hmatch⟩ := h.exists_mates hget ha
    · exact hnone j hmatch
    · obtain ⟨b, hget', hb⟩ := hmatch.closing
      obtain rfl : a = b := Option.some.inj (hget.symm.trans hget')
      exact absurd (ha.symm.trans hb) (by decide)

/-- A closing bracket behind a balanced beginning is to blame. -/
theorem blamed_closing (hu : Balanced u) (ha : bracket? a = some .closing) (v : List α) :
    Blamed (u ++ a :: v) u.length := by
  refine .inl ⟨⟨⟨a, by simp, ha⟩, ?_⟩, fun j hj => Nat.le_of_not_lt fun hlt => ?_⟩
  · have htake : (u ++ a :: v).take (u.length + 1) = u ++ [a] := by
      rw [List.take_length_add_append]
      rfl
    have hcount := hu.closes_eq
    rw [htake, opens_append, closes_append, opens_cons_closing ha, closes_cons_closing ha,
      opens_nil, closes_nil]
    omega
  · have htake : (u ++ a :: v).take (j + 1) = u.take (j + 1) :=
      List.take_append_of_le_length (by omega)
    have hlt' := hj.2
    rw [htake] at hlt'
    have hle := hu.rising _ (List.take_prefix (j + 1) u)
    omega

/-- An opening bracket behind a balanced beginning is to blame if what follows closes nothing that
was open before. -/
theorem blamed_opening (hu : Balanced u) (ha : bracket? a = some .opening) (hv : Rising 0 v) :
    Blamed (u ++ a :: v) u.length := by
  have hrising : Rising 0 (u ++ a :: v) := by
    rw [hu.rising_append_iff, rising_cons_iff, ha]
    exact fun x hx => Nat.le_trans (hv x hx) (by omega)
  refine .inr ⟨not_exceeds hrising, ⟨⟨a, by simp, ha⟩, ?_⟩, ?_⟩
  · rintro c ⟨u', a', inner, b, v', heq, hlength, rfl, -, hb, hinner⟩
    obtain ⟨rfl, hrest⟩ := List.append_inj heq hlength
    obtain ⟨-, rfl⟩ := List.cons.inj hrest
    rw [hinner.rising_append_iff, rising_cons_iff, hb] at hv
    exact Nat.lt_irrefl 0 hv.1
  · rintro j ⟨⟨b, hget, hb⟩, hnone⟩
    refine Nat.le_of_not_lt fun hlt => ?_
    rw [List.getElem?_append_left hlt] at hget
    obtain ⟨k, hmatch | hmatch⟩ := hu.exists_mates hget hb
    · have hmatch' := hmatch.within [] (a :: v)
      simp only [List.nil_append, List.length_nil, Nat.zero_add] at hmatch'
      exact hnone k hmatch'
    · obtain ⟨d, hget', hd⟩ := hmatch.closing
      obtain rfl : b = d := Option.some.inj (hget.symm.trans hget')
      exact absurd (hb.symm.trans hd) (by decide)

end Brackets

end ReversibleTape
