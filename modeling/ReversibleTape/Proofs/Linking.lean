import ReversibleTape.Proofs.Code
import ReversibleTape.Source.Link

/-!
# Linked tokens spell code

A sequence of tokens without links is read with a stack of code, one piece for each loop that is
still open and one for what stands before all of them (`Token.Builds`). The linker goes through
the same tokens with a stack of indices. **The two stacks describe the same division of the
tokens**: each index is the place of a loop head, and behind it the tokens spell the piece of code
(`Program.LaidOut`). A link is written into a head only when its loop is closed, and by then no
other piece of code looks at that token.

So if all loops are closed in the end, the framed tokens are a well-formed program that spells the
code which is left on the stack (`Program.exists_ofTokens_link`).
-/

namespace ReversibleTape

/-- The tokens, latest first, leave the stack of code, innermost first: the code of each loop that
is open, and then the code in front of them. -/
inductive Token.Builds : List Token → List Code → Prop
  | nil : Builds [] [.skip]
  | instr {t : Token} {ts : List Token} {x : Instr} {c : Code} {cs : List Code}
      (token : t.instr? = some x) (before : Builds ts (c :: cs)) :
      Builds (t :: ts) (.seq c (.instr x) :: cs)
  | head {t : Token} {ts : List Token} {cs : List Code} (kind : t.kind = .loopOpen)
      (before : Builds ts cs) : Builds (t :: ts) (.skip :: cs)
  | tail {t : Token} {ts : List Token} {body c : Code} {cs : List Code}
      (kind : t.kind = .loopClose) (before : Builds ts (body :: c :: cs)) :
      Builds (t :: ts) (.seq c (.loop body) :: cs)

/-- Tokens leave one stack of code. -/
theorem Token.Builds.unique {ts : List Token} {cs cs' : List Code} (h : Builds ts cs)
    (h' : Builds ts cs') : cs = cs' := by
  induction h generalizing cs' with
  | nil =>
    cases h'
    rfl
  | instr token _ ih =>
    cases h' with
    | instr token' before' =>
      cases ih before'
      cases token.symm.trans token'
      rfl
    | head kind => simp [Token.instr?, kind] at token
    | tail kind => simp [Token.instr?, kind] at token
  | head kind _ ih =>
    cases h' with
    | head _ before' => rw [ih before']
    | instr token => simp [Token.instr?, kind] at token
    | tail kind' => simp [kind] at kind'
  | tail kind _ ih =>
    cases h' with
    | tail _ before' =>
      cases ih before'
      rfl
    | instr token => simp [Token.instr?, kind] at token
    | head kind' => simp [kind] at kind'

namespace Program

variable {p q : Program} {i j h : Nat} {code c d : Code} {hs : List Nat} {cs : List Code}

/-! ### Layouts with open loops -/

/-- Code is spelled by the tokens between its ends and no others. -/
theorem Spells.congr (hspells : p.Spells i code j)
    (hsame : ∀ k, i ≤ k → k < j → q.tokenAt k = p.tokenAt k) : q.Spells i code j := by
  induction hspells with
  | skip i => exact .skip i
  | @instr i x token => exact .instr ((hsame i (Nat.le_refl i) (Nat.lt_succ_self i)).symm ▸ token)
  | seq first second ih₁ ih₂ =>
    have hfirst := first.le
    have hsecond := second.le
    refine .seq (ih₁ fun k hk hk' => ?_) (ih₂ fun k hk hk' => ?_)
    · exact hsame k hk (by omega)
    · exact hsame k (by omega) hk'
  | @loop o c body link inner ih =>
    have hlt := link.lt
    have hhead : q.tokenAt o = p.tokenAt o := hsame o (Nat.le_refl o) (by omega)
    have htail : q.tokenAt c = p.tokenAt c := hsame c (by omega) (Nat.lt_succ_self c)
    have hlink : q.Link o c := by
      refine ⟨?_, ?_, ?_, ?_, hlt⟩
      · rw [kindAt, hhead]
        exact link.kind_head
      · rw [kindAt, htail]
        exact link.kind_tail
      · rw [hhead]
        exact link.partner_head
      · rw [htail]
        exact link.partner_tail
    exact .loop hlink (ih fun k hk hk' => hsame k (by omega) (by omega))

/-- The tokens up to an index are a stack of code, divided by the heads of the open loops. -/
inductive LaidOut (p : Program) : List Nat → List Code → Nat → Prop
  | base {j : Nat} {c : Code} (spells : p.Spells 1 c j) : LaidOut p [] [c] j
  | inner {h j : Nat} {hs : List Nat} {c : Code} {cs : List Code} (outer : LaidOut p hs cs h)
      (head : p.kindAt h = .loopOpen) (spells : p.Spells (h + 1) c j) :
      LaidOut p (h :: hs) (c :: cs) j

namespace LaidOut

theorem congr (hp : p.LaidOut hs cs j) (hsame : ∀ k < j, q.tokenAt k = p.tokenAt k) :
    q.LaidOut hs cs j := by
  induction hp with
  | base spells => exact .base (spells.congr fun k _ hk => hsame k hk)
  | @inner h j hs c cs outer head spells ih =>
    have hlt := spells.le
    refine .inner (ih fun k hk => hsame k (by omega)) ?_ (spells.congr fun k _ hk => hsame k hk)
    rw [kindAt, hsame h (by omega)]
    exact head

theorem pos (hp : p.LaidOut hs cs j) : 0 < j := by
  cases hp with
  | base spells => exact spells.le
  | inner outer head spells => exact Nat.lt_of_lt_of_le (Nat.succ_pos _) spells.le

/-- Code that follows belongs to the innermost open loop. -/
theorem append (hp : p.LaidOut hs (c :: cs) i) (hspells : p.Spells i d j) :
    p.LaidOut hs (.seq c d :: cs) j := by
  cases hp with
  | base spells => exact .base (.seq spells hspells)
  | inner outer head spells => exact .inner outer head (.seq spells hspells)

end LaidOut

theorem tokenAt_push (tokens : Array Token) (t : Token) (source : String) (k : Nat) :
    tokenAt { tokens := tokens.push t, source } k =
      if k = tokens.size then t else tokenAt { tokens, source } k := by
  simp only [tokenAt, Array.getD_eq_getD_getElem?, Array.getElem?_push]
  split <;> rfl

theorem tokenAt_modify (tokens : Array Token) (f : Token → Token) (source : String) {h k : Nat}
    (hh : h < tokens.size) :
    tokenAt { tokens := tokens.modify h f, source } k =
      if k = h then f (tokenAt { tokens, source } h) else tokenAt { tokens, source } k := by
  simp only [tokenAt, Array.getD_eq_getD_getElem?, Array.getElem?_modify]
  by_cases hk : k = h
  · subst hk
    simp [hh]
  · simp [hk, Ne.symm hk]

/-- The tokens with the innermost loop closed: its head is linked, and its tail added. -/
theorem tokenAt_close (tokens : Array Token) (t : Token) {k : Nat} (hh : h < tokens.size)
    (hk : k < tokens.size) :
    tokenAt { tokens := (tokens.modify h fun t => { t with partner := some tokens.size }).push t }
        k =
      if k = h then { tokenAt { tokens } h with partner := some tokens.size }
      else tokenAt { tokens } k := by
  rw [tokenAt_push, if_neg (by simpa using Nat.ne_of_lt hk), tokenAt_modify _ _ _ hh]

/-- **Closing a loop.** The tokens from the head of the innermost loop on spell the loop, which is
then a part of the code around it. -/
theorem LaidOut.close {tokens : Array Token} {t : Token} {body : Code}
    (hp : LaidOut { tokens } (h :: hs) (body :: c :: cs) tokens.size)
    (ht : t.kind = .loopClose) :
    LaidOut
      { tokens := (tokens.modify h fun t => { t with partner := some tokens.size }).push
          { t with partner := some h } }
      hs (.seq c (.loop body) :: cs) (tokens.size + 1) := by
  cases hp with
  | inner outer head spells =>
    have hlt : h < tokens.size := spells.le
    have hclose {k} := tokenAt_close (k := k) tokens { t with partner := some h } hlt
    have htail : tokenAt { tokens := (tokens.modify h fun t =>
        { t with partner := some tokens.size }).push { t with partner := some h } } tokens.size =
        { t with partner := some h } := by
      rw [tokenAt_push, if_pos (by simp)]
    -- the head is the only token that changes: the outer code ends before it, and the body starts
    -- behind it
    refine (outer.congr fun k hk => ?_).append (.loop ⟨?_, ?_, ?_, ?_, hlt⟩ (spells.congr ?_))
    · rw [hclose (Nat.lt_trans hk hlt), if_neg (Nat.ne_of_lt hk)]
    · rw [kindAt, hclose hlt, if_pos rfl]
      exact head
    · rw [kindAt, htail]
      exact ht
    · rw [hclose hlt, if_pos rfl]
    · rw [htail]
    · intro k hk hk'
      rw [hclose hk', if_neg (by omega)]

end Program

/-! ### The linker -/

namespace Linker

/-- The program of the tokens that a linker has, whose loops need not be closed. -/
def program (l : Linker) : Program := { tokens := l.tokens }

/-- The tokens are framed on the left and laid out as the stack of code. -/
structure Holds (l : Linker) (cs : List Code) : Prop where
  kindAt_zero : l.program.kindAt 0 = .start
  laidOut : l.program.LaidOut l.heads cs l.tokens.size

variable {l : Linker} {t : Token} {ts : List Token} {x : Instr} {body c : Code} {cs : List Code}

/-- A token that is put behind the others changes none of them. -/
theorem tokenAt_push_of_lt {heads : List Nat} {k : Nat} (hk : k < l.tokens.size) :
    (program { tokens := l.tokens.push t, heads }).tokenAt k = l.program.tokenAt k := by
  rw [program, Program.tokenAt_push, if_neg (Nat.ne_of_lt hk)]
  rfl

theorem tokenAt_push_size (l : Linker) (t : Token) (heads : List Nat) :
    (program { tokens := l.tokens.push t, heads }).tokenAt l.tokens.size = t := by
  rw [program, Program.tokenAt_push, if_pos rfl]

theorem kindAt_zero_push (hl : l.Holds cs) (t : Token) (heads : List Nat) :
    (program { tokens := l.tokens.push t, heads }).kindAt 0 = .start := by
  rw [Program.kindAt, tokenAt_push_of_lt hl.laidOut.pos]
  exact hl.kindAt_zero

theorem Holds.push_instr (hl : l.Holds (c :: cs)) (h : t.instr? = some x) :
    (l.push t).Holds (.seq c (.instr x) :: cs) := by
  have hpush : l.push t = { tokens := l.tokens.push t, heads := l.heads } := by
    rw [push]
    split
    all_goals simp_all [Token.instr?]
  rw [hpush]
  refine ⟨kindAt_zero_push hl t _, ?_⟩
  rw [Array.size_push]
  refine (hl.laidOut.congr fun k hk => tokenAt_push_of_lt hk).append (.instr ?_)
  rw [tokenAt_push_size]
  exact h

theorem Holds.push_head (hl : l.Holds cs) (h : t.kind = .loopOpen) :
    (l.push t).Holds (.skip :: cs) := by
  have hpush : l.push t = { tokens := l.tokens.push t, heads := l.tokens.size :: l.heads } := by
    rw [push, h]
  rw [hpush]
  refine ⟨kindAt_zero_push hl t _, ?_⟩
  rw [Array.size_push]
  refine .inner (hl.laidOut.congr fun k hk => tokenAt_push_of_lt hk) ?_ (.skip _)
  rw [Program.kindAt, tokenAt_push_size]
  exact h

theorem Holds.push_tail (hl : l.Holds (body :: c :: cs)) (h : t.kind = .loopClose) :
    (l.push t).Holds (.seq c (.loop body) :: cs) := by
  obtain ⟨tokens, heads⟩ := l
  obtain ⟨hstart, hlaid⟩ := hl
  obtain ⟨head, heads, rfl⟩ : ∃ head rest, heads = head :: rest := by
    cases hlaid
    exact ⟨_, _, rfl⟩
  have hpush : push { tokens, heads := head :: heads } t =
      { tokens := (tokens.modify head fun t => { t with partner := some tokens.size }).push
          { t with partner := some head }, heads } := by
    rw [push, h]
  have hlt : head < tokens.size := by
    cases hlaid with
    | inner _ _ spells => exact spells.le
  have hne : 0 ≠ head := by
    rintro rfl
    cases hlaid with
    | inner _ kind _ => exact absurd (hstart.symm.trans kind) (by decide)
  rw [hpush]
  refine ⟨?_, ?_⟩
  · rw [program, Program.kindAt, Program.tokenAt_close _ _ hlt hlaid.pos, if_neg hne]
    exact hstart
  · rw [Array.size_push, Array.size_modify]
    exact hlaid.close h

/-- **The linker lays out what the tokens build.** -/
theorem holds_of_builds (h : Token.Builds ts cs) :
    (ts.foldr (fun t l => l.push t) {} : Linker).Holds cs := by
  -- the tokens come latest first, so a case of the induction is one push of the linker
  induction h with
  | nil => exact ⟨rfl, .base (.skip 1)⟩
  | instr token _ ih => exact ih.push_instr token
  | head kind _ ih => exact ih.push_head kind
  | tail kind _ ih => exact ih.push_tail kind

end Linker

/-- **Tokens that build code are linked to a program that spells it.** -/
theorem Program.exists_ofTokens_link {ts : List Token} {code : Code}
    (h : Token.Builds ts [code]) (source : String) :
    ∃ p, Program.ofTokens (Token.link ts.reverse) source = .ok p ∧
      p.Spells 1 code p.endIndex := by
  have hholds := Linker.holds_of_builds h
  rw [Token.link, List.foldl_reverse]
  generalize (ts.foldr (fun t l => l.push t) {} : Linker) = l at hholds ⊢
  obtain ⟨tokens, heads⟩ := l
  obtain ⟨hstart, hlaid⟩ := hholds
  have hpos : 0 < tokens.size := hlaid.pos
  have hend : endIndex { tokens := tokens.push Token.finish, source } = tokens.size := by
    simp [endIndex, size]
  have hother : ∀ k < tokens.size, tokenAt { tokens := tokens.push Token.finish, source } k =
      (Linker.program { tokens, heads }).tokenAt k := by
    intro k hk
    rw [tokenAt_push, if_neg (Nat.ne_of_lt hk)]
    rfl
  have hspells : Spells { tokens := tokens.push Token.finish, source } 1 code tokens.size := by
    cases hlaid with
    | base spells => exact spells.congr fun k _ hk => hother k hk
    | inner outer => cases outer
  rw [← hend] at hspells
  refine ⟨_, ofTokens_eq_ok_iff.mpr ⟨rfl, wellFormed_of_spells ?_ ?_ hspells⟩, hspells⟩
  · rw [kindAt, hother 0 hpos]
    exact hstart
  · rw [hend, kindAt, tokenAt_push, if_pos rfl]
    rfl

end ReversibleTape
