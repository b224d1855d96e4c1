import ReversibleTape.Proofs.Excursion
import ReversibleTape.Proofs.FoldedSource

/-!
# Folding and moves out of range

A folded run of moves is checked once, at the place where it ends. So folding hides an excursion
that comes back before its run is over, and **it hides no other**: where the run itself leads out
of range, the folded program fails as well (`Machine.underflow_of_unfolded`).

`Keeps width u v` is folding of this kind: `v` is a folded form of `u`, and it leaves the range
where `u` strays to a place out of range. It is not compatible with sequences in general. Two runs
of `u` that an addition separates may become neighbours in `v`, and if they were merged then, the
first would no longer be checked. The folder never does that: a run that vanishes takes the tokens
before it out of reach. Therefore the argument follows the folder. While it reads moves, its latest
code is a settled part and a pending amount (`Folder.Splits`), and for both together
`Tracks width u v d` says that `v`, followed by a move by `d`, leads to where `u` leads, be it in
range or not. Any other lexeme turns the pending amount into a move that is checked.
-/

namespace ReversibleTape

open List (Forall₂)

/-- A place where the pointer cannot be. -/
def Pointer.OutOfRange (q : Int) : Prop := q < 0 ∨ Word.greatest < q

instance (q : Int) : Decidable (Pointer.OutOfRange q) := inferInstanceAs (Decidable (_ ∨ _))

/-- Evaluating the code leaves the range of pointers. -/
def Underflows (width : UInt32) (code : Code) (σ : Store) : Prop :=
  ∃ n τ, Eval width code σ n .underflow τ

variable {width : UInt32} {a b c u v : Code} {x : Instr} {σ τ : Store} {n : Nat} {q d e : Int}
  {going : Bool}

theorem Code.slide_of_still (h : ∀ e, x ≠ .shift e) :
    (Code.instr x).isSlide = false ∧ (Code.instr x).slide = 0 := by
  cases x with
  | shift e => exact absurd rfl (h e)
  | add | output | input | zero => exact ⟨rfl, rfl⟩

/-! ### Leaving the range -/

namespace Underflows

theorem first (h : Underflows width a σ) : Underflows width (.seq a b) σ := by
  obtain ⟨n, τ, heval⟩ := h
  exact ⟨n, τ, .seqStuck heval (by decide)⟩

theorem second (hfirst : Eval width a σ n .normal τ) (h : Underflows width b τ) :
    Underflows width (.seq a b) σ := by
  obtain ⟨k, ρ, heval⟩ := h
  exact ⟨_, ρ, .seq hfirst heval⟩

/-- A sequence leaves the range in its first part if its second part never does. -/
theorem of_seq (hb : ∀ τ, ¬ Underflows width b τ) (h : Underflows width (.seq a b) σ) :
    Underflows width a σ := by
  obtain ⟨n, τ, heval⟩ := h
  rcases Eval.seq_iff.mp heval with ⟨k, l, ρ, -, hsecond, -⟩ | ⟨hfirst, -⟩
  · exact absurd ⟨l, τ, hsecond⟩ (hb ρ)
  · exact ⟨n, τ, hfirst⟩

theorem shift (hout : Pointer.OutOfRange (σ.pointer + d)) :
    Underflows width (.instr (.shift d)) σ := by
  refine ⟨0, σ, .instrStuck ?_ (by decide)⟩
  rw [Instr.exec, if_neg]
  rw [Pointer.OutOfRange] at hout
  omega

end Underflows

theorem not_underflows_add (d : Int) (σ : Store) : ¬ Underflows width (.instr (.add d)) σ := by
  rintro ⟨n, τ, heval⟩
  obtain ⟨d', hshift⟩ := Instr.exec_underflow (Eval.instr_iff.mp heval).1
  cases hshift

/-- A loop that adds an amount ends, if at all, with its cell cleared. -/
theorem not_underflows_loop_add (d : Int) (σ : Store) :
    ¬ Underflows width (.loop (.seq .skip (.instr (.add d)))) σ := by
  rintro ⟨n, τ, heval⟩
  generalize he : Ending.underflow = e at heval
  induction heval using Eval.loop_induction with
  | done => cases he
  | pass _ _ _ _ _ _ _ _ _ ih => exact ih he
  | stuck σ τ n e _ pass =>
    subst he
    exact not_underflows_add d σ ⟨n, τ, Eval.skip_seq_iff.mp pass⟩

namespace Strays

/-- Code that strays leaves the range. -/
theorem underflows (h : Strays width u σ q going) : Underflows width u σ := by
  induction h with
  | @move d σ σ' exec => exact ⟨0, σ', .instrStuck exec (by decide)⟩
  | within _ ih => exact ih.first
  | goesOn _ ih => exact ih.first
  | second first _ ih => exact .second first ih
  | pass nonzero _ ih =>
    obtain ⟨n, τ, heval⟩ := ih
    exact ⟨_, τ, .loopStuck nonzero heval (by decide)⟩
  | again nonzero pass _ ih =>
    obtain ⟨n, τ, heval⟩ := ih
    exact ⟨_, τ, .loopPass nonzero pass heval⟩

/-- Only moves stray. -/
theorem exists_shift (h : Strays width (.instr x) σ q going) : ∃ e, x = .shift e := by
  cases h with
  | @move d => exact ⟨d, rfl⟩

/-- The tail of a loop ends every run in it. -/
theorem going_loop (h : Strays width (.loop u) σ q going) : going = false := by
  generalize hcode : Code.loop u = code at h
  induction h with
  | move | within | goesOn | second => cases hcode
  | pass => rfl
  | again _ _ _ ih => exact ih hcode

/-- Code that does not begin with a move leaves the place alone to which the code before strays. -/
theorem seq_still (hstill : b.isSlide = false) (hslide : b.slide = 0)
    (h : Strays width (.seq a b) σ q going) :
    (going = false ∧ ∃ going', Strays width a σ q going') ∨
      ∃ n τ, Eval width a σ n .normal τ ∧ Strays width b τ q going := by
  cases h with
  | within first => exact .inl ⟨rfl, false, first⟩
  | goesOn first =>
    rw [hslide, Int.add_zero]
    exact .inl ⟨hstill, true, first⟩
  | second first second => exact .inr ⟨_, _, first, second⟩

end Strays

/-! ### Folding that keeps excursions -/

/-- The second code is a folded form of the first and leaves the range where the first strays to a
place out of range. -/
structure Keeps (width : UInt32) (u v : Code) : Prop extends FoldsTo width u v where
  underflows : ∀ ⦃σ q going⦄, σ.InRange width → Strays width u σ q going →
    Pointer.OutOfRange q → Underflows width v σ

namespace Keeps

theorem refl (u : Code) : Keeps width u u :=
  ⟨.refl u, fun _ _ _ _ hstray _ => hstray.underflows⟩

/-- Folding on is fine as long as it hides nothing. -/
theorem trans_exact (h : Keeps width a b) (hfolds : FoldsTo width b c)
    (hexact : ∀ σ, Underflows width b σ → Underflows width c σ) : Keeps width a c := by
  refine ⟨h.toFoldsTo.trans hfolds, ?_⟩
  intro σ q going hσ hstray hout
  exact hexact σ (h.underflows hσ hstray hout)

/-- Code that does not begin with a move may be folded apart from the code before. -/
theorem seq_still (hw : 0 < width) (h : Keeps width u v) (h' : Keeps width a b)
    (hstill : a.isSlide = false) (hslide : a.slide = 0) :
    Keeps width (.seq u a) (.seq v b) := by
  refine ⟨.seq hw h.toFoldsTo h'.toFoldsTo, ?_⟩
  intro σ q going hσ hstray hout
  rcases hstray.seq_still hstill hslide with ⟨-, going', hfirst⟩ | ⟨n, τ, hfirst, hsecond⟩
  · exact (h.underflows hσ hfirst hout).first
  · obtain ⟨k, -, hfirst'⟩ := h.forward hσ hfirst (by decide)
    exact .second hfirst' (h'.underflows (hσ.eval hw hfirst) hsecond hout)

theorem loop (hw : 0 < width) (h : Keeps width u v) : Keeps width (.loop u) (.loop v) := by
  refine ⟨.loop hw h.toFoldsTo, ?_⟩
  intro σ q going hσ hstray hout
  generalize hcode : Code.loop u = code at hstray
  induction hstray with
  | move | within | goesOn | second => cases hcode
  | pass nonzero pass =>
    cases hcode
    obtain ⟨n, τ, heval⟩ := h.underflows hσ pass hout
    exact ⟨_, τ, .loopStuck nonzero heval (by decide)⟩
  | again nonzero pass _ ih =>
    cases hcode
    obtain ⟨k, -, pass'⟩ := h.forward hσ pass (by decide)
    obtain ⟨n, τ, heval⟩ := ih (hσ.eval hw pass) hout rfl
    exact ⟨_, τ, .loopPass nonzero pass' heval⟩

end Keeps

/-! ### Pending moves -/

/-- The code comes to an end in its range, and a move by the amount leads from there to a place. -/
def Leads (width : UInt32) (v : Code) (σ : Store) (d q : Int) : Prop :=
  ∃ n τ, Eval width v σ n .normal τ ∧ τ.pointer + d = q

/-- The second code with a pending move leads to where the first code leads, also where that is on
an excursion. An excursion out of range that is over has been noticed. -/
structure Tracks (width : UInt32) (u v : Code) (d : Int) : Prop where
  normal : ∀ ⦃σ n τ⦄, σ.InRange width → Eval width u σ n .normal τ → Leads width v σ d τ.pointer
  going : ∀ ⦃σ q⦄, σ.InRange width → Strays width u σ q true → Leads width v σ d q
  ended : ∀ ⦃σ q⦄, σ.InRange width → Strays width u σ q false → Pointer.OutOfRange q →
    Underflows width v σ

/-- With nothing pending, code that does not end in a run of moves is tracked. -/
theorem Keeps.tracks (h : Keeps width u v) (hstill : ∀ σ q, ¬ Strays width u σ q true) :
    Tracks width u v 0 where
  normal := by
    intro σ n τ hσ heval
    obtain ⟨k, -, heval'⟩ := h.forward hσ heval (by decide)
    exact ⟨k, τ, heval', Int.add_zero _⟩
  going := fun σ q _ hstray => absurd hstray (hstill σ q)
  ended := fun σ q hσ hstray hout => h.underflows hσ hstray hout

namespace Tracks

theorem skip : Tracks width .skip .skip 0 :=
  (Keeps.refl .skip).tracks fun σ q hstray => by cases hstray

/-- One more move is pending. -/
theorem move (h : Tracks width u v d) (e : Int) :
    Tracks width (.seq u (.instr (.shift e))) v (d + e) where
  normal := by
    intro σ n τ hσ heval
    rcases Eval.seq_iff.mp heval with ⟨k, l, ρ, hfirst, hsecond, -⟩ | ⟨-, hstuck⟩
    · obtain ⟨hpointer, -⟩ := Instr.exec_shift_iff.mp (Eval.instr_iff.mp hsecond).1
      obtain ⟨i, ρ', heval', hleads⟩ := h.normal hσ hfirst
      exact ⟨i, ρ', heval', by omega⟩
    · exact absurd rfl hstuck
  going := by
    intro σ q hσ hstray
    cases hstray with
    | goesOn first =>
      obtain ⟨i, ρ, heval, hleads⟩ := h.going hσ first
      refine ⟨i, ρ, heval, ?_⟩
      rw [Code.slide]
      omega
    | second first second =>
      cases second
      obtain ⟨i, ρ, heval, hleads⟩ := h.normal hσ first
      exact ⟨i, ρ, heval, by omega⟩
  ended := by
    intro σ q hσ hstray hout
    cases hstray with
    | within first => exact h.ended hσ first hout
    | second _ second => cases second

/-- **A pending move is checked** when it is made. -/
theorem keeps (h : Tracks width u v d)
    (hfolds : FoldsTo width u (.seq v (.instr (.shift d)))) :
    Keeps width u (.seq v (.instr (.shift d))) := by
  refine ⟨hfolds, ?_⟩
  intro σ q going hσ hstray hout
  cases going with
  | false => exact (h.ended hσ hstray hout).first
  | true =>
    obtain ⟨n, τ, heval, rfl⟩ := h.going hσ hstray
    exact .second heval (.shift hout)

/-- With nothing pending, there is nothing to check: the excursion has come back. -/
theorem keeps_zero (hw : 0 < width) (h : Tracks width u v 0) (hfolds : FoldsTo width u v) :
    Keeps width u v := by
  refine ⟨hfolds, ?_⟩
  intro σ q going hσ hstray hout
  cases going with
  | false => exact h.ended hσ hstray hout
  | true =>
    obtain ⟨n, τ, heval, hleads⟩ := h.going hσ hstray
    have hle := (hσ.eval hw heval).pointer_le
    rw [Pointer.OutOfRange] at hout
    omega

end Tracks

/-! ### The folder while it reads moves -/

namespace Folder

variable {f g : Folder} {t : Token} {l : Lexeme} {v₀ body : Code} {cs vs : List Code}
  {depth : Nat}

/-- The latest code of a folder is a settled part and a pending move, if the latest token is a move
that absorbs others, and else all of it is settled. -/
inductive Splits (g : Folder) : Code → Code → Int → Prop
  | moving {last : Token} {rest : List Token} {v : Code} {d : Int}
      (absorbing : g.absorbing = true) (tokens : g.tokens = last :: rest)
      (kind : last.kind = .shift) (delta : last.delta = d) :
      Splits g (.seq v (.instr (.shift d))) v d
  | settled {v : Code} (still : g.absorbing = true → ∀ last rest, g.tokens = last :: rest →
      last.kind ≠ .shift) : Splits g v v 0

theorem splits_of_absorbing (h : g.absorbing = false) (v : Code) : Splits g v v 0 :=
  .settled fun habsorbing => by simp [h] at habsorbing

/-- A move only changes what is pending. -/
theorem Splits.run (h : Splits g v v₀ d) (ht : t.instr? = some (.shift e))
    (hbuilds : Token.Builds g.tokens (v :: vs)) :
    ∃ v', Token.Builds (g.run true t).tokens (v' :: vs) ∧
      Splits (g.run true t) v' v₀ (d + e) := by
  obtain ⟨hkind, rfl, -⟩ := Token.instr?_eq_some_iff.mp ht
  cases h with
  | @moving last rest _ _ absorbing tokens kind delta =>
    subst delta
    rw [tokens] at hbuilds
    obtain ⟨w, x, -, hcode, hrest⟩ := builds_cons_of_run (.inr kind) hbuilds
    cases hcode
    by_cases hzero : last.delta + t.delta = 0
    · have hrun : g.run true t = { tokens := rest } := by
        simp only [Folder.run, absorbing, tokens, kind, hkind, hzero, if_true]
      rw [hrun, hzero]
      exact ⟨_, hrest, splits_of_absorbing rfl _⟩
    · have hrun : g.run true t = { tokens := { last with delta := last.delta + t.delta } :: rest,
                                   absorbing := true } := by
        simp only [Folder.run, absorbing, tokens, kind, hkind, hzero, if_true, if_false]
      rw [hrun]
      refine ⟨_, .instr ?_ hrest, .moving rfl rfl kind rfl⟩
      simp [Token.instr?, kind, hzero]
  | settled still =>
    have hrun : g.run true t = { tokens := t :: g.tokens, absorbing := true } := by
      rw [Folder.run]
      split
      · rename_i last rest absorbing tokens
        rw [tokens, if_neg (hkind ▸ still absorbing last rest tokens)]
      · rfl
    rw [hrun, Int.zero_add]
    exact ⟨_, .instr ht hbuilds, .moving rfl rfl hkind rfl⟩

/-- After an addition, no move is pending. -/
theorem splits_run_add (ht : t.kind = .add) (v : Code) : Splits (g.run true t) v v 0 := by
  refine .settled ?_
  rw [Folder.run]
  split
  · split
    · split
      · intro habsorbing
        cases habsorbing
      · rintro - last rest ⟨⟩
        simp_all
    · rintro - last rest ⟨⟩
      simp [ht]
  · rintro - last rest ⟨⟩
    simp [ht]

/-- What is pending is checked with the latest code. -/
theorem Splits.keeps (hw : 0 < width) (h : Splits g v v₀ d) (htracks : Tracks width u v₀ d)
    (hfolds : FoldsTo width u v) : Keeps width u v := by
  cases h with
  | moving => exact htracks.keeps hfolds
  | settled => exact htracks.keeps_zero hw hfolds

/-! ### Lexemes that are not moves -/

/-- An addition hides nothing. -/
theorem run_add_exact (ht : t.instr? = some (.add e)) (h : Token.Builds g.tokens (c :: cs)) :
    ∃ c', Token.Builds (g.run true t).tokens (c' :: cs) ∧
      ∀ σ, Underflows width (.seq c (.instr (.add e))) σ → Underflows width c' σ := by
  obtain ⟨hkind, -⟩ := Token.instr?_eq_some_iff.mp ht
  rcases run_cases true (.inl hkind) ht h with happend | ⟨last, w, x, hlast, hx, rfl, hmerged⟩
  · exact ⟨_, happend, fun _ hunder => hunder⟩
  · obtain rfl : .add last.delta = x := by
      simp_all [Token.instr?]
    have hbefore (σ : Store)
        (hunder : Underflows width (.seq (.seq w (.instr (.add last.delta))) (.instr (.add e))) σ) :
        Underflows width w σ :=
      (hunder.of_seq (not_underflows_add e)).of_seq (not_underflows_add last.delta)
    rcases hmerged with ⟨-, hbuilds⟩ | ⟨hdelta, hbuilds⟩
    · exact ⟨w, hbuilds, hbefore⟩
    · have hz : Token.instr? { last with delta := last.delta + t.delta } =
          some (.add (last.delta + t.delta)) := by
        simp [Token.instr?, hlast, hkind, hdelta]
      exact ⟨_, hbuilds _ hz, fun σ hunder => (hbefore σ hunder).first⟩

/-- An instruction that is not a move hides nothing, and leaves nothing pending. -/
theorem read_exact (hx : l.symbol.instr? = some x) (hstill : ∀ e, x ≠ .shift e)
    (h : Token.Builds g.tokens (c :: cs)) :
    ∃ c', Token.Builds (g.read true l).tokens (c' :: cs) ∧ Splits (g.read true l) c' c' 0 ∧
      ∀ σ, Underflows width (.seq c (.instr x)) σ → Underflows width c' σ := by
  cases hsymbol : l.symbol <;> simp [Symbol.instr?, hsymbol] at hx <;> subst hx <;>
    simp only [read, hsymbol]
  · obtain ⟨c', hbuilds, hexact⟩ := run_add_exact (t := .readAt l.position .add 1) rfl h
    exact ⟨c', hbuilds, splits_run_add rfl c', hexact⟩
  · obtain ⟨c', hbuilds, hexact⟩ := run_add_exact (t := .readAt l.position .add (-1)) rfl h
    exact ⟨c', hbuilds, splits_run_add rfl c', hexact⟩
  · exact absurd rfl (hstill 1)
  · exact absurd rfl (hstill (-1))
  · exact ⟨_, .instr rfl h, splits_of_absorbing rfl _, fun _ hunder => hunder⟩
  · exact ⟨_, .instr rfl h, splits_of_absorbing rfl _, fun _ hunder => hunder⟩

/-- Closing a loop hides nothing, since a clearing loop makes no moves, and leaves nothing pending. -/
theorem close_exact (ht : t.kind = .loopClose) (h : Token.Builds g.tokens (body :: c :: cs)) :
    ∃ c', Token.Builds (g.close true t).tokens (c' :: cs) ∧ Splits (g.close true t) c' c' 0 ∧
      ∀ σ, Underflows width (.seq c (.loop body)) σ → Underflows width c' σ := by
  have habsorbing : (g.close true t).absorbing = false := by
    unfold close
    split
    · split <;> rfl
    · rfl
  rcases close_cases ht h with happend | ⟨amount, -, rfl, hzero⟩
  · exact ⟨_, happend, splits_of_absorbing habsorbing _, fun _ hunder => hunder⟩
  · refine ⟨_, hzero, splits_of_absorbing habsorbing _, fun σ hunder => ?_⟩
    exact (hunder.of_seq (not_underflows_loop_add amount)).first

/-! ### Two folders -/

/-- Two folders that have read the same lexemes, the first without folding and the second with it,
and are inside of `depth` loops: the second keeps the excursions of the first, where those of the
latest code may still be pending. -/
structure Tethered (width : UInt32) (depth : Nat) (f g : Folder) : Prop where
  absorbing_eq : f.absorbing = false
  builds : ∃ u us v vs v₀ d, Token.Builds f.tokens (u :: us) ∧ Token.Builds g.tokens (v :: vs) ∧
    FoldsTo width u v ∧ Splits g v v₀ d ∧ Tracks width u v₀ d ∧
      Forall₂ (Keeps width) us vs ∧ us.length = depth

namespace Tethered

theorem empty : Tethered width 0 {} {} :=
  ⟨rfl, .skip, [], .skip, [], .skip, 0, .nil, .nil, .refl _, splits_of_absorbing rfl _,
    .skip, .nil, rfl⟩

theorem read_move (hw : 0 < width) (h : Tethered width depth f g)
    (hx : l.symbol.instr? = some (.shift e)) :
    Tethered width depth (f.read false l) (g.read true l) := by
  obtain ⟨habsorbing, u, us, v, vs, v₀, d, hus, hvs, hfolds, hsplits, htracks, hrest, hlength⟩ := h
  obtain ⟨habsorbing', hus'⟩ := read_false hx habsorbing hus
  obtain ⟨v', hvs', hv'⟩ := read_true hw hx hvs
  obtain ⟨t, ht, hread⟩ : ∃ t : Token, t.instr? = some (.shift e) ∧
      g.read true l = g.run true t := by
    cases hsymbol : l.symbol <;> simp [Symbol.instr?, hsymbol] at hx <;> subst hx <;>
      simp only [read, hsymbol] <;> exact ⟨_, rfl, rfl⟩
  obtain ⟨w, hbuilds, hsplits'⟩ := hsplits.run ht hvs
  rw [← hread] at hbuilds hsplits'
  obtain ⟨rfl, -⟩ := List.cons.inj (hbuilds.unique hvs')
  exact ⟨habsorbing', _, us, w, vs, v₀, d + e, hus', hvs',
    (FoldsTo.seq hw hfolds (.refl _)).trans hv', hsplits', htracks.move e, hrest, hlength⟩

theorem read_still (hw : 0 < width) (h : Tethered width depth f g)
    (hx : l.symbol.instr? = some x) (hstill : ∀ e, x ≠ .shift e) :
    Tethered width depth (f.read false l) (g.read true l) := by
  obtain ⟨habsorbing, u, us, v, vs, v₀, d, hus, hvs, hfolds, hsplits, htracks, hrest, hlength⟩ := h
  obtain ⟨habsorbing', hus'⟩ := read_false hx habsorbing hus
  obtain ⟨v', hvs', hv'⟩ := read_true hw hx hvs
  obtain ⟨w, hbuilds, hsplits', hexact⟩ := read_exact hx hstill hvs
  obtain ⟨rfl, -⟩ := List.cons.inj (hbuilds.unique hvs')
  obtain ⟨hslide, hzero⟩ := Code.slide_of_still hstill
  have hkeeps : Keeps width (.seq u (.instr x)) w :=
    ((hsplits.keeps hw htracks hfolds).seq_still hw (.refl _) hslide hzero).trans_exact hv' hexact
  refine ⟨habsorbing', _, us, w, vs, w, 0, hus', hvs', hkeeps.toFoldsTo, hsplits',
    hkeeps.tracks fun σ q hstray => ?_, hrest, hlength⟩
  rcases hstray.seq_still hslide hzero with ⟨hfalse, -⟩ | ⟨-, τ, -, hstray⟩
  · cases hfalse
  · obtain ⟨e, rfl⟩ := hstray.exists_shift
    exact hstill e rfl

theorem read_head (hw : 0 < width) (h : Tethered width depth f g) (hl : l.symbol = .loopOpen) :
    Tethered width (depth + 1) (f.read false l) (g.read true l) := by
  obtain ⟨-, u, us, v, vs, v₀, d, hus, hvs, hfolds, hsplits, htracks, hrest, hlength⟩ := h
  simp only [read, hl]
  exact ⟨rfl, .skip, u :: us, .skip, v :: vs, .skip, 0, .head rfl hus, .head rfl hvs, .refl _,
    splits_of_absorbing rfl _, .skip, .cons (hsplits.keeps hw htracks hfolds) hrest,
    congrArg (· + 1) hlength⟩

theorem read_tail (hw : 0 < width) (h : Tethered width (depth + 1) f g)
    (hl : l.symbol = .loopClose) : Tethered width depth (f.read false l) (g.read true l) := by
  obtain ⟨-, ub, us, vb, vs, v₀, d, hus, hvs, hfolds, hsplits, htracks, hrest, hlength⟩ := h
  have hbody := hsplits.keeps hw htracks hfolds
  simp only [read, hl]
  cases hrest with
  | nil => simp at hlength
  | @cons u v us vs huv hrest =>
    have ht : (Token.readAt l.position .loopClose 0).kind = .loopClose := rfl
    obtain ⟨v', hvs', hv'⟩ := exists_builds_close hw ht hvs
    obtain ⟨w, hbuilds, hsplits', hexact⟩ := close_exact ht hvs
    obtain ⟨rfl, -⟩ := List.cons.inj (hbuilds.unique hvs')
    have hkeeps : Keeps width (.seq u (.loop ub)) w :=
      (huv.seq_still hw (hbody.loop hw) rfl rfl).trans_exact hv' hexact
    refine ⟨rfl, _, us, w, vs, w, 0, .tail rfl hus, hvs', hkeeps.toFoldsTo, hsplits',
      hkeeps.tracks fun σ q hstray => ?_, hrest, Nat.succ.inj hlength⟩
    rcases hstray.seq_still rfl rfl with ⟨hfalse, -⟩ | ⟨-, τ, -, hstray⟩
    · cases hfalse
    · cases hstray.going_loop

/-- **Lexemes with matching brackets** keep two folders tethered and close all loops. -/
theorem foldl_read (hw : 0 < width) {ls opened : List Lexeme}
    (h : Tethered width opened.length f g) (hmatch : Lexeme.unmatchedFrom? opened ls = none) :
    Tethered width 0 (ls.foldl (read false) f) (ls.foldl (read true) g) := by
  refine foldl_read_induction ?_ ?_ ?_ h hmatch
  · intro depth f g l x h hx
    by_cases hshift : ∃ e, x = .shift e
    · obtain ⟨e, rfl⟩ := hshift
      exact h.read_move hw hx
    · exact h.read_still hw hx fun e he => hshift ⟨e, he⟩
  · exact fun h hl => h.read_head hw hl
  · exact fun h hl => h.read_tail hw hl

/-- Outside of all loops there is one piece of code. -/
theorem exists_keeps (hw : 0 < width) (h : Tethered width 0 f g) :
    ∃ u v, Token.Builds f.tokens [u] ∧ Token.Builds g.tokens [v] ∧ Keeps width u v := by
  obtain ⟨-, u, us, v, vs, v₀, d, hus, hvs, hfolds, hsplits, htracks, hrest, hlength⟩ := h
  cases hrest with
  | nil => exact ⟨u, v, hus, hvs, hsplits.keeps hw htracks hfolds⟩
  | cons => simp at hlength

end Tethered

end Folder

/-- **A source with matching brackets has two programs**, and the code of the one with folding keeps
the excursions of the code of the one without. -/
theorem Program.exists_keeping_pair (hw : 0 < width) {source : String}
    (hmatch : Lexeme.unmatched? (Lexeme.scan source) = none) :
    ∃ p q u v, ofSource source false = .ok p ∧ ofSource source true = .ok q ∧
      p.Spells 1 u p.endIndex ∧ q.Spells 1 v q.endIndex ∧ Keeps width u v := by
  have hstart : Folder.Tethered width ([] : List Lexeme).length {} {} := .empty
  obtain ⟨u, v, hu, hv, hkeeps⟩ := (hstart.foldl_read hw hmatch).exists_keeps hw
  obtain ⟨p, hp, hspells⟩ := exists_ofSource hmatch hu
  obtain ⟨q, hq, hspells'⟩ := exists_ofSource hmatch hv
  exact ⟨p, q, u, v, hp, hq, hspells, hspells', hkeeps⟩

/-! ### Machines -/

namespace Machine

variable {m : Machine Buffer} {source : String} {config : Config} {buffer : Buffer}

/-- **Folding hides excursions that come back and no others.** Load any source without folding,
with any configuration and any buffer, and let its run fail with a move out of range. If the moves
from this one on, up to the next instruction of another kind, lead out of range all together, the
program with folding fails with a move out of range as well. -/
theorem underflow_of_unfolded
    (hload : ofSource source (config.withOptimize false) buffer = .ok m) :
    ∃ m', ofSource source (config.withOptimize true) buffer = .ok m' ∧
      ∀ pc pointer delta σ, m.Ends (.error (.pointerUnderflow pc pointer delta)) σ →
        Pointer.OutOfRange (pointer + m.program.slide pc) →
        ∃ pc' pointer' delta' τ, m'.Ends (.error (.pointerUnderflow pc' pointer' delta')) τ := by
  have hloaded := loaded_of_ofSource hload
  obtain ⟨hw, p₀, hp₀, rfl⟩ := ofSource_eq_ok_iff.mp hload
  obtain ⟨p, q, u, v, hp, hq, hu, hv, hkeeps⟩ :=
    Program.exists_keeping_pair hw (Program.unmatched?_of_ofSource hp₀)
  obtain rfl : p₀ = p := Except.ok.inj (hp₀.symm.trans hp)
  have hload' : ofSource source (config.withOptimize true) buffer = .ok _ :=
    ofSource_eq_ok_iff.mpr ⟨hw, q, hq, rfl⟩
  have hloaded' := loaded_of_ofSource hload'
  refine ⟨_, hload', ?_⟩
  intro pc pointer delta σ hends hout
  obtain ⟨place, going, hstray, hplace⟩ := hloaded.exists_strays hu hends
  rw [hplace] at hout
  obtain ⟨n, τ, heval⟩ := hkeeps.underflows hloaded.inRange hstray hout
  obtain ⟨pc', pointer', delta', hends'⟩ := (hloaded'.ends_pointerUnderflow_iff hv).mpr ⟨n, heval⟩
  exact ⟨pc', pointer', delta', τ, hends'⟩

theorem underflow_of_unfolded_zigzag :
    ∃ m m' : Machine Buffer,
      ofSource "<><" (Config.standard.withOptimize false) {} = .ok m ∧
        ofSource "<><" (Config.standard.withOptimize true) {} = .ok m' ∧
        (m.run 1).1 = .error (.pointerUnderflow 1 0 (-1)) ∧
        Pointer.OutOfRange ((0 : Nat) + m.program.slide 1) ∧
        ∃ pc' pointer' delta' τ, m'.Ends (.error (.pointerUnderflow pc' pointer' delta')) τ := by
  have hload : ofSource "<><" (Config.standard.withOptimize false) {} =
    .ok (_ : Machine Buffer) := rfl
  obtain ⟨m', hload', hunder⟩ := underflow_of_unfolded hload
  exact ⟨_, m', hload, hload', by decide +kernel, by decide +kernel,
    hunder 1 0 (-1) _ ⟨1, _, Prod.ext (by decide +kernel) rfl, rfl⟩ (by decide +kernel)⟩

/-- An excursion that comes back is hidden: with folding, the moves `<>` are not there at all. -/
theorem underflow_hidden :
    ¬ ∀ (source : String) (config : Config) (buffer : Buffer) (m m' : Machine Buffer),
      ofSource source (config.withOptimize false) buffer = .ok m →
      ofSource source (config.withOptimize true) buffer = .ok m' →
      (∃ pc pointer delta σ, m.Ends (.error (.pointerUnderflow pc pointer delta)) σ) →
      ∃ pc pointer delta σ, m'.Ends (.error (.pointerUnderflow pc pointer delta)) σ := by
  intro h
  have hload : ofSource "<>" (Config.standard.withOptimize true) {} =
    .ok (_ : Machine Buffer) := rfl
  obtain ⟨pc, pointer, delta, σ, hends⟩ := h "<>" .standard {} _ _ rfl hload
    ⟨1, 0, -1, _, 1, _, Prod.ext (by decide +kernel) rfl, rfl⟩
  obtain ⟨n, heval⟩ := ((loaded_of_ofSource hload).ends_pointerUnderflow_iff (.skip 1)).mp
    ⟨pc, pointer, delta, hends⟩
  cases heval

end Machine

end ReversibleTape
