import Mathlib.Data.List.Forall2
import ReversibleTape.Proofs.FoldedCode
import ReversibleTape.Proofs.Linking
import ReversibleTape.Source.Load

/-!
# Folded sources

Folding works on lexemes, and its loops are not known before they are closed. `Folder.Pairs` is
what two folders have in common that read the same lexemes, one without folding and one with it:
their tokens build stacks of code of the same height, and **each piece of code on the second stack
is a folded form of the piece on the first**. Every lexeme preserves this
(`Folder.Pairs.read_instr`, `Folder.Pairs.read_head`, `Folder.Pairs.read_tail`), so it holds at the
end of the source.

The folder looks at tokens, so it finds a clearing loop also where the source shows none, as in
`[+-+]`, whose first two characters vanish. That needs no argument of its own: a piece of code is
related to all that was read, not only to what its tokens still show.

`Program.exists_pair` is the result: if the brackets of a source match, both programs exist, and
the code of one is a folded form of the code of the other.
-/

namespace ReversibleTape

open List (Forall₂)

/-- The instruction of a symbol that is not a bracket. -/
def Symbol.instr? : Symbol → Option Instr
  | .increment => some (.add 1)
  | .decrement => some (.add (-1))
  | .right => some (.shift 1)
  | .left => some (.shift (-1))
  | .output => some .output
  | .input => some .input
  | .loopOpen | .loopClose | .newline => none

namespace Folder

variable {width : UInt32} {f g : Folder} {t last : Token} {ts rest : List Token} {l : Lexeme}
  {x y : Instr} {c d : Code} {cs : List Code} {depth : Nat}

/-! ### Runs -/

/-- Two tokens of a run are together what the merged token is, or nothing if that has no amount. -/
theorem merge_foldsTo (hw : 0 < width) (hrun : t.kind = .add ∨ t.kind = .shift)
    (hkind : last.kind = t.kind) (hx : last.instr? = some x) (hy : t.instr? = some y) :
    (last.delta + t.delta = 0 → FoldsTo width (.seq (.instr x) (.instr y)) .skip) ∧
      (last.delta + t.delta ≠ 0 → ∃ z,
        Token.instr? { last with delta := last.delta + t.delta } = some z ∧
          FoldsTo width (.seq (.instr x) (.instr y)) (.instr z)) := by
  rcases hrun with hadd | hshift
  · obtain ⟨rfl, rfl⟩ : .add last.delta = x ∧ .add t.delta = y := by
      simp_all [Token.instr?]
    have hmerge := FoldsTo.add_add hw last.delta t.delta
    refine ⟨fun hzero => ?_, fun hne => ⟨.add (last.delta + t.delta), ?_, hmerge⟩⟩
    · rw [hzero] at hmerge
      exact hmerge.trans .add_zero
    · simp [Token.instr?, hkind, hadd, hne]
  · obtain ⟨rfl, rfl⟩ : .shift last.delta = x ∧ .shift t.delta = y := by
      simp_all [Token.instr?]
    have hmerge : FoldsTo width _ _ := FoldsTo.shift_shift last.delta t.delta
    refine ⟨fun hzero => ?_, fun hne => ⟨.shift (last.delta + t.delta), ?_, hmerge⟩⟩
    · rw [hzero] at hmerge
      exact hmerge.trans .shift_zero
    · simp [Token.instr?, hkind, hshift, hne]

/-- The latest token of a run is an instruction at the end of the latest code. -/
theorem builds_cons_of_run (hrun : last.kind = .add ∨ last.kind = .shift)
    (h : Token.Builds (last :: rest) (c :: cs)) :
    ∃ d x, last.instr? = some x ∧ c = .seq d (.instr x) ∧ Token.Builds rest (d :: cs) := by
  cases h with
  | instr token before => exact ⟨_, _, token, rfl, before⟩
  | head kind => simp [kind] at hrun
  | tail kind => simp [kind] at hrun

/-- What a token does to the latest code when it is added to a run: it is appended, or the latest
token absorbs it and the code in front of that stays. -/
theorem run_cases (optimize : Bool) (hrun : t.kind = .add ∨ t.kind = .shift)
    (hy : t.instr? = some y) (h : Token.Builds f.tokens (c :: cs)) :
    Token.Builds (f.run optimize t).tokens (.seq c (.instr y) :: cs) ∨
      ∃ (last : Token) (d : Code) (x : Instr), last.kind = t.kind ∧ last.instr? = some x ∧
        c = .seq d (.instr x) ∧
        (last.delta + t.delta = 0 ∧ Token.Builds (f.run optimize t).tokens (d :: cs) ∨
          last.delta + t.delta ≠ 0 ∧ ∀ z,
            Token.instr? { last with delta := last.delta + t.delta } = some z →
              Token.Builds (f.run optimize t).tokens (.seq d (.instr z) :: cs)) := by
  rw [run]
  split
  · rename_i last rest habsorbing htokens
    rw [htokens] at h
    split
    · rename_i hkind
      obtain ⟨d, x, hx, rfl, hrest⟩ := builds_cons_of_run (hkind ▸ hrun) h
      refine .inr ⟨last, d, x, hkind, hx, rfl, ?_⟩
      split
      · exact .inl ⟨‹_›, hrest⟩
      · exact .inr ⟨‹_›, fun z hz => .instr hz hrest⟩
    · exact .inl (.instr hy h)
  · exact .inl (.instr hy h)

/-- **Adding to a run** appends an instruction to the code, in a folded form. -/
theorem exists_builds_run (hw : 0 < width) (optimize : Bool)
    (hrun : t.kind = .add ∨ t.kind = .shift) (hy : t.instr? = some y)
    (h : Token.Builds f.tokens (c :: cs)) :
    ∃ c', Token.Builds (f.run optimize t).tokens (c' :: cs) ∧
      FoldsTo width (.seq c (.instr y)) c' := by
  rcases run_cases optimize hrun hy h with happend | ⟨last, d, x, hkind, hx, rfl, hmerged⟩
  · exact ⟨_, happend, .refl _⟩
  · obtain ⟨hzero, hsum⟩ := merge_foldsTo hw hrun hkind hx hy
    rcases hmerged with ⟨hdelta, hbuilds⟩ | ⟨hdelta, hbuilds⟩
    · refine ⟨d, hbuilds, ?_⟩
      calc FoldsTo width (.seq (.seq d (.instr x)) (.instr y))
            (.seq d (.seq (.instr x) (.instr y))) := .seq_assoc
        FoldsTo width _ (.seq d .skip) := .seq hw (.refl d) (hzero hdelta)
        FoldsTo width _ d := .seq_skip
    · obtain ⟨z, hz, hmerge⟩ := hsum hdelta
      exact ⟨_, hbuilds z hz, FoldsTo.seq_assoc.trans (.seq hw (.refl d) hmerge)⟩

/-! ### Loops -/

/-- What the tail of a loop does to the latest code: the loop is appended to the code around it,
or a `zero` if all that is left of the loop is one addition of one. -/
theorem close_cases (ht : t.kind = .loopClose) {body : Code}
    (h : Token.Builds f.tokens (body :: c :: cs)) :
    Token.Builds (f.close true t).tokens (.seq c (.loop body) :: cs) ∨
      ∃ amount : Int, amount.natAbs = 1 ∧ body = .seq .skip (.instr (.add amount)) ∧
        Token.Builds (f.close true t).tokens (.seq c (.instr .zero) :: cs) := by
  have hplain : Token.Builds (f.plain t).tokens (.seq c (.loop body) :: cs) := .tail ht h
  unfold close
  split
  · rename_i last head rest _ htokens
    split
    · rename_i hclear
      -- the two tokens are all that is left of the loop, so its code is this one addition
      obtain ⟨hhead, hadd, hone⟩ := hclear
      rw [htokens] at h
      obtain ⟨d, x, hx, rfl, hrest⟩ := builds_cons_of_run (.inl hadd) h
      obtain ⟨rfl, hbefore⟩ : .skip = d ∧ Token.Builds rest (c :: cs) := by
        cases hrest with
        | head _ before => exact ⟨rfl, before⟩
        | instr token => simp [Token.instr?, hhead] at token
        | tail kind => simp [hhead] at kind
      obtain rfl : .add last.delta = x := by
        simp_all [Token.instr?]
      exact .inr ⟨last.delta, hone, rfl, .instr rfl hbefore⟩
    · exact .inl hplain
  · exact .inl hplain

/-- **Closing a loop** appends the loop to the code around it, in a folded form. -/
theorem exists_builds_close (hw : 0 < width) (ht : t.kind = .loopClose) {body : Code}
    (h : Token.Builds f.tokens (body :: c :: cs)) :
    ∃ c', Token.Builds (f.close true t).tokens (c' :: cs) ∧
      FoldsTo width (.seq c (.loop body)) c' := by
  rcases close_cases ht h with happend | ⟨amount, hone, rfl, hzero⟩
  · exact ⟨_, happend, .refl _⟩
  · refine ⟨_, hzero, .seq hw (.refl c) ?_⟩
    exact (FoldsTo.loop hw .skip_seq).trans (.clear hw hone)

/-! ### One lexeme -/

/-- Without folding, every instruction is a token of its own. -/
theorem read_false (hx : l.symbol.instr? = some x) (hf : f.absorbing = false)
    (h : Token.Builds f.tokens (c :: cs)) :
    (f.read false l).absorbing = false ∧
      Token.Builds (f.read false l).tokens (.seq c (.instr x) :: cs) := by
  obtain ⟨t, ht, hread, habsorbing⟩ : ∃ t : Token, t.instr? = some x ∧
      (f.read false l).tokens = t :: f.tokens ∧ (f.read false l).absorbing = false := by
    cases hsymbol : l.symbol <;> simp [Symbol.instr?, hsymbol] at hx <;> subst hx <;>
      simp [read, hsymbol, run, plain, hf] <;> rfl
  rw [hread]
  exact ⟨habsorbing, .instr ht h⟩

/-- With folding, an instruction is appended in a folded form. -/
theorem read_true (hw : 0 < width) (hx : l.symbol.instr? = some x)
    (h : Token.Builds f.tokens (c :: cs)) :
    ∃ c', Token.Builds (f.read true l).tokens (c' :: cs) ∧
      FoldsTo width (.seq c (.instr x)) c' := by
  rw [read]
  cases hsymbol : l.symbol <;> simp [Symbol.instr?, hsymbol] at hx <;> subst hx
  · exact exists_builds_run hw true (.inl rfl) rfl h
  · exact exists_builds_run hw true (.inl rfl) rfl h
  · exact exists_builds_run hw true (.inr rfl) rfl h
  · exact exists_builds_run hw true (.inr rfl) rfl h
  · exact ⟨_, .instr rfl h, .refl _⟩
  · exact ⟨_, .instr rfl h, .refl _⟩

/-- **Induction over lexemes with matching brackets**, for two folders that read them without
folding and with it: what every instruction, head and tail preserves holds at the end, where all
loops are closed. -/
theorem foldl_read_induction {motive : Nat → Folder → Folder → Prop}
    (instr : ∀ {depth f g l x}, motive depth f g → l.symbol.instr? = some x →
      motive depth (f.read false l) (g.read true l))
    (head : ∀ {depth f g l}, motive depth f g → l.symbol = .loopOpen →
      motive (depth + 1) (f.read false l) (g.read true l))
    (tail : ∀ {depth f g l}, motive (depth + 1) f g → l.symbol = .loopClose →
      motive depth (f.read false l) (g.read true l))
    {ls opened : List Lexeme} (h : motive opened.length f g)
    (hmatch : Lexeme.unmatchedFrom? opened ls = none) :
    motive 0 (ls.foldl (read false) f) (ls.foldl (read true) g) := by
  induction ls generalizing opened f g with
  | nil =>
    rw [Lexeme.unmatchedFrom?, List.getLast?_eq_none_iff] at hmatch
    subst hmatch
    exact h
  | cons l ls ih =>
    rw [List.foldl_cons, List.foldl_cons]
    cases hsymbol : l.symbol with
    | increment | decrement | right | left | output | input =>
      simp only [Lexeme.unmatchedFrom?, hsymbol] at hmatch
      exact ih (instr h (congrArg Symbol.instr? hsymbol)) hmatch
    | newline =>
      simp only [Lexeme.unmatchedFrom?, hsymbol] at hmatch
      simp only [read, hsymbol]
      exact ih h hmatch
    | loopOpen =>
      simp only [Lexeme.unmatchedFrom?, hsymbol] at hmatch
      have hnext : motive (l :: opened).length (f.read false l) (g.read true l) := head h hsymbol
      exact ih hnext hmatch
    | loopClose =>
      cases opened with
      | nil => simp [Lexeme.unmatchedFrom?, hsymbol] at hmatch
      | cons _ opened =>
        simp only [Lexeme.unmatchedFrom?, hsymbol] at hmatch
        exact ih (tail h hsymbol) hmatch

/-- Two folders that have read the same lexemes, the first without folding and the second with it,
and are inside of `depth` loops. -/
structure Pairs (width : UInt32) (depth : Nat) (f g : Folder) : Prop where
  absorbing_eq : f.absorbing = false
  builds : ∃ us vs, Token.Builds f.tokens us ∧ Token.Builds g.tokens vs ∧
    Forall₂ (FoldsTo width) us vs ∧ us.length = depth + 1

namespace Pairs

theorem read_instr (hw : 0 < width) (h : Pairs width depth f g)
    (hx : l.symbol.instr? = some x) : Pairs width depth (f.read false l) (g.read true l) := by
  obtain ⟨habsorbing, us, vs, hus, hvs, hfolds, hlength⟩ := h
  cases hfolds with
  | nil => simp at hlength
  | @cons u v us vs huv hrest =>
    obtain ⟨habsorbing', hus'⟩ := read_false hx habsorbing hus
    obtain ⟨v', hvs', hv'⟩ := read_true hw hx hvs
    refine ⟨habsorbing', _, _, hus', hvs', .cons ?_ hrest, hlength⟩
    exact (FoldsTo.seq hw huv (.refl _)).trans hv'

theorem read_head (h : Pairs width depth f g) (hl : l.symbol = .loopOpen) :
    Pairs width (depth + 1) (f.read false l) (g.read true l) := by
  obtain ⟨-, us, vs, hus, hvs, hfolds, hlength⟩ := h
  simp only [read, hl]
  exact ⟨rfl, _, _, .head rfl hus, .head rfl hvs, .cons (.refl _) hfolds,
    congrArg (· + 1) hlength⟩

theorem read_tail (hw : 0 < width) (h : Pairs width (depth + 1) f g)
    (hl : l.symbol = .loopClose) : Pairs width depth (f.read false l) (g.read true l) := by
  obtain ⟨-, us, vs, hus, hvs, hfolds, hlength⟩ := h
  simp only [read, hl]
  cases hfolds with
  | nil => simp at hlength
  | cons hbody hfolds =>
    cases hfolds with
    | nil => simp at hlength
    | cons huv hrest =>
      obtain ⟨v', hvs', hv'⟩ :=
        exists_builds_close hw (t := .readAt l.position .loopClose 0) rfl hvs
      refine ⟨rfl, _, _, .tail rfl hus, hvs', .cons ?_ hrest, Nat.succ.inj hlength⟩
      exact (FoldsTo.seq hw huv (.loop hw hbody)).trans hv'

/-- **Lexemes with matching brackets** keep two folders together and close all loops. -/
theorem foldl_read (hw : 0 < width) {ls opened : List Lexeme}
    (h : Pairs width opened.length f g) (hmatch : Lexeme.unmatchedFrom? opened ls = none) :
    Pairs width 0 (ls.foldl (read false) f) (ls.foldl (read true) g) := by
  refine foldl_read_induction ?_ ?_ ?_ h hmatch
  · exact fun h hx => h.read_instr hw hx
  · exact fun h hl => h.read_head hl
  · exact fun h hl => h.read_tail hw hl

/-- Outside of all loops there is one piece of code. -/
theorem exists_code (h : Pairs width 0 f g) : ∃ u v, Token.Builds f.tokens [u] ∧
    Token.Builds g.tokens [v] ∧ FoldsTo width u v := by
  obtain ⟨-, us, vs, hus, hvs, hfolds, hlength⟩ := h
  cases hfolds with
  | nil => simp at hlength
  | cons huv hrest =>
    cases hrest with
    | nil => exact ⟨_, _, hus, hvs, huv⟩
    | cons => simp at hlength

end Pairs

end Folder

namespace Program

variable {source : String} {optimize : Bool} {code : Code}

/-- If the tokens of a source build code, its program spells this code. -/
theorem exists_ofSource (hmatch : Lexeme.unmatched? (Lexeme.scan source) = none)
    (h : Token.Builds ((Lexeme.scan source).foldl (Folder.read optimize) {}).tokens [code]) :
    ∃ p, ofSource source optimize = .ok p ∧ p.Spells 1 code p.endIndex := by
  obtain ⟨p, hp, hspells⟩ := exists_ofTokens_link h source
  have htokens : ofTokens (Token.link (Token.ofLexemes optimize (Lexeme.scan source))) source =
    .ok p := hp
  exact ⟨p, by simp only [ofSource, hmatch, htokens], hspells⟩

/-- **A source with matching brackets has two programs**, and the code of the one with folding is
a folded form of the code of the one without. -/
theorem exists_pair {width : UInt32} (hw : 0 < width)
    (hmatch : Lexeme.unmatched? (Lexeme.scan source) = none) :
    ∃ p q u v, ofSource source false = .ok p ∧ ofSource source true = .ok q ∧
      p.Spells 1 u p.endIndex ∧ q.Spells 1 v q.endIndex ∧ FoldsTo width u v := by
  have hstart : Folder.Pairs width ([] : List Lexeme).length {} {} :=
    ⟨rfl, _, _, .nil, .nil, .cons (.refl _) .nil, rfl⟩
  obtain ⟨u, v, hu, hv, hfolds⟩ := (hstart.foldl_read hw hmatch).exists_code
  obtain ⟨p, hp, hspells⟩ := exists_ofSource hmatch hu
  obtain ⟨q, hq, hspells'⟩ := exists_ofSource hmatch hv
  exact ⟨p, q, u, v, hp, hq, hspells, hspells', hfolds⟩

end Program

end ReversibleTape
