import ReversibleTape.Proofs.FoldedCode

/-!
# Condensed code

`Condenses width a b` says that the code `b` is a shorter form of the code `a` which hides nothing.
It is folding (`FoldsTo`) without the one difference that folding allows: **where `a` leaves the
range of pointers, `b` leaves it too**, with the same tape and the same buffer. Only the place of
the pointer may differ, since a run of moves is made step by step in `a` and at once in `b`.

Moves may be joined in this way if they all go to the same side (`Condenses.shift_shift`): when one
of them leads out of range, the others do not lead back. Evaluation is a function (`Eval.unique`),
so condensed code comes to the same endings as the code that it stands for, in both directions
(`Condenses.eval_iff`, `Condenses.underflow_iff`, `Condenses.ends_iff`).
-/

namespace ReversibleTape

/-! ### Evaluation is a function -/

/-- **Code comes to one end at most.** -/
theorem Eval.unique {width : UInt32} {code : Code} {σ τ τ' : Store} {n n' : Nat} {e e' : Ending}
    (h : Eval width code σ n e τ) (h' : Eval width code σ n' e' τ') : e = e' ∧ τ = τ' := by
  induction h generalizing n' e' τ' with
  | skip =>
    cases h'
    exact ⟨rfl, rfl⟩
  | instr exec =>
    cases exec.symm.trans (Eval.instr_iff.mp h').1
    exact ⟨rfl, rfl⟩
  | instrStuck exec =>
    cases exec.symm.trans (Eval.instr_iff.mp h').1
    exact ⟨rfl, rfl⟩
  | seq _ _ ih₁ ih₂ =>
    rcases Eval.seq_iff.mp h' with ⟨k, l, ρ, first', second', -⟩ | ⟨first', stuck'⟩
    · obtain ⟨-, rfl⟩ := ih₁ first'
      exact ih₂ second'
    · exact absurd (ih₁ first').1.symm stuck'
  | seqStuck _ stuck ih =>
    rcases Eval.seq_iff.mp h' with ⟨k, l, ρ, first', -, -⟩ | ⟨first', -⟩
    · exact absurd (ih first').1 stuck
    · exact ih first'
  | loopDone zero =>
    cases h' with
    | loopDone => exact ⟨rfl, rfl⟩
    | loopPass nonzero => exact absurd zero nonzero
    | loopStuck nonzero => exact absurd zero nonzero
  | loopPass nonzero _ _ ih₁ ih₂ =>
    cases h' with
    | loopDone zero => exact absurd zero nonzero
    | loopPass _ pass' again' =>
      obtain ⟨-, rfl⟩ := ih₁ pass'
      exact ih₂ again'
    | loopStuck _ pass' stuck' => exact absurd (ih₁ pass').1.symm stuck'
  | loopStuck nonzero _ stuck ih =>
    cases h' with
    | loopDone zero => exact absurd zero nonzero
    | loopPass _ pass' => exact absurd (ih pass').1 stuck
    | loopStuck _ pass' => exact ih pass'

/-! ### The relation -/

/-- Two stores differ in nothing but the place of the pointer. -/
def Store.Alike (σ τ : Store) : Prop := σ.tape = τ.tape ∧ σ.buffer = τ.buffer

namespace Store.Alike

variable {σ τ ρ : Store}

theorem refl (σ : Store) : σ.Alike σ := ⟨rfl, rfl⟩

theorem symm (h : σ.Alike τ) : τ.Alike σ := ⟨h.1.symm, h.2.symm⟩

theorem trans (h : σ.Alike τ) (h' : τ.Alike ρ) : σ.Alike ρ :=
  ⟨h.1.trans h'.1, h.2.trans h'.2⟩

end Store.Alike

/-- The second code may stand for the first, and leaves the range of pointers wherever the first
does. -/
structure Condenses (width : UInt32) (a b : Code) : Prop extends FoldsTo width a b where
  underflow : ∀ {σ σ' : Store} {n : Nat}, σ.InRange width → Eval width a σ n .underflow σ' →
    ∃ k τ, Eval width b σ k .underflow τ ∧ τ.Alike σ'

namespace Condenses

variable {width : UInt32} {a a' b b' c : Code} {σ σ' : Store} {e : Ending}

/-! ### Closure laws -/

theorem of_iff (h : ∀ {σ n e σ'}, Eval width a σ n e σ' ↔ Eval width b σ n e σ') :
    Condenses width a b where
  toFoldsTo := .of_iff h
  underflow := by
    intro σ σ' n _ heval
    exact ⟨n, σ', h.mp heval, .refl σ'⟩

theorem refl (a : Code) : Condenses width a a := of_iff Iff.rfl

theorem trans (h : Condenses width a b) (h' : Condenses width b c) : Condenses width a c where
  toFoldsTo := h.toFoldsTo.trans h'.toFoldsTo
  underflow := by
    intro σ σ' n hσ heval
    obtain ⟨k, τ, heval', halike⟩ := h.underflow hσ heval
    obtain ⟨l, ρ, heval'', halike'⟩ := h'.underflow hσ heval'
    exact ⟨l, ρ, heval'', halike'.trans halike⟩

instance : Trans (Condenses width) (Condenses width) (Condenses width) := ⟨trans⟩

theorem seq (hw : 0 < width) (h : Condenses width a b) (h' : Condenses width a' b') :
    Condenses width (.seq a a') (.seq b b') where
  toFoldsTo := .seq hw h.toFoldsTo h'.toFoldsTo
  underflow := by
    intro σ σ' n hσ heval
    rcases Eval.seq_iff.mp heval with ⟨k, l, τ, hfirst, hsecond, -⟩ | ⟨hfirst, hstuck⟩
    · obtain ⟨k', -, hfirst'⟩ := h.forward hσ hfirst (by decide)
      obtain ⟨l', ρ, hsecond', halike⟩ := h'.underflow (hσ.eval hw hfirst) hsecond
      exact ⟨k' + l', ρ, .seq hfirst' hsecond', halike⟩
    · obtain ⟨k', ρ, hfirst', halike⟩ := h.underflow hσ hfirst
      exact ⟨k', ρ, .seqStuck hfirst' hstuck, halike⟩

theorem loop (hw : 0 < width) (h : Condenses width a b) :
    Condenses width (.loop a) (.loop b) where
  toFoldsTo := .loop hw h.toFoldsTo
  underflow := by
    intro σ σ' n hσ heval
    generalize he : Ending.underflow = e at heval
    induction heval using Eval.loop_induction with
    | done => cases he
    | pass σ τ σ' m n e nonzero pass again ih =>
      obtain ⟨k, -, pass'⟩ := h.forward hσ pass (by decide)
      obtain ⟨l, ρ, again', halike⟩ := ih (hσ.eval hw pass) he
      exact ⟨1 + k + l, ρ, .loopPass nonzero pass' again', halike⟩
    | stuck σ σ' n e nonzero pass stuck =>
      subst he
      obtain ⟨k, ρ, pass', halike⟩ := h.underflow hσ pass
      exact ⟨1 + k, ρ, .loopStuck nonzero pass' stuck, halike⟩

theorem seq_assoc : Condenses width (.seq (.seq a b) c) (.seq a (.seq b c)) :=
  of_iff Eval.seq_assoc_iff

theorem skip_seq : Condenses width (.seq .skip a) a := of_iff Eval.skip_seq_iff

/-- Code that never leaves the range is condensed by being folded. -/
theorem of_foldsTo (h : FoldsTo width a b)
    (hnever : ∀ {σ σ' n}, ¬Eval width a σ n .underflow σ') : Condenses width a b where
  toFoldsTo := h
  underflow := fun _ heval => absurd heval hnever

/-! ### Instructions -/

theorem add_add (hw : 0 < width) (d e : Int) :
    Condenses width (.seq (.instr (.add d)) (.instr (.add e))) (.instr (.add (d + e))) := by
  refine of_foldsTo (.add_add hw d e) fun {σ σ' n} heval => ?_
  rcases Eval.seq_iff.mp heval with ⟨k, l, τ, -, hsecond, -⟩ | ⟨hfirst, -⟩
  · cases (Eval.instr_iff.mp hsecond).1
  · cases (Eval.instr_iff.mp hfirst).1

/-- **Moves to the same side** are one move: what one of them leaves, the rest does not enter
again. -/
theorem shift_shift {d e : Int} (hside : (0 ≤ d ∧ 0 ≤ e) ∨ (d ≤ 0 ∧ e ≤ 0)) :
    Condenses width (.seq (.instr (.shift d)) (.instr (.shift e))) (.instr (.shift (d + e))) where
  toFoldsTo := .shift_shift d e
  underflow := by
    intro σ σ' n hσ heval
    have hpointer := hσ.pointer_le
    have hstray : ¬(0 ≤ (σ.pointer : Int) + (d + e) ∧ σ.pointer + (d + e) ≤ Word.greatest) ∧
        σ.Alike σ' := by
      rcases Eval.seq_iff.mp heval with ⟨k, l, τ, hfirst, hsecond, -⟩ | ⟨hfirst, -⟩
      · obtain ⟨hmoved, -, hτ⟩ := Instr.exec_shift_iff.mp (Eval.instr_iff.mp hfirst).1
        have hexec := (Eval.instr_iff.mp hsecond).1
        rw [Instr.exec] at hexec
        split at hexec
        · cases hexec
        · cases hexec
          refine ⟨by omega, ?_⟩
          rw [hτ]
          exact ⟨rfl, rfl⟩
      · have hexec := (Eval.instr_iff.mp hfirst).1
        rw [Instr.exec] at hexec
        split at hexec
        · cases hexec
        · cases hexec
          exact ⟨by omega, .refl σ⟩
    refine ⟨0, σ, .instrStuck ?_ (by decide), hstray.2⟩
    rw [Instr.exec, if_neg hstray.1]

theorem clear (hw : 0 < width) {d : Int} (hd : d.natAbs = 1) :
    Condenses width (.loop (.instr (.add d))) (.instr .zero) := by
  refine of_foldsTo (.clear hw hd) fun heval => ?_
  obtain ⟨-, he, -⟩ := Eval.loop_add_eq heval
  cases he

/-! ### Endings -/

/-- Condensed code ends where the code ends, and in the same way. -/
theorem eval_iff (h : Condenses width a b) (hσ : σ.InRange width) (he : e ≠ .underflow) :
    (∃ n, Eval width a σ n e σ') ↔ ∃ n, Eval width b σ n e σ' := by
  constructor
  · rintro ⟨n, heval⟩
    obtain ⟨k, -, heval'⟩ := h.forward hσ heval he
    exact ⟨k, heval'⟩
  · rintro ⟨n, heval⟩
    rcases h.backward hσ heval with ⟨k, τ, hunder⟩ | heval'
    · -- then the condensed code would leave the range as well
      obtain ⟨l, ρ, hunder', -⟩ := h.underflow hσ hunder
      exact absurd (heval.unique hunder').1 he
    · exact heval'

/-- Condensed code leaves the range where the code does, with the same tape and buffer. -/
theorem underflow_iff (h : Condenses width a b) (hσ : σ.InRange width) :
    (∃ τ, (∃ n, Eval width a σ n .underflow τ) ∧ τ.Alike σ') ↔
      ∃ τ, (∃ n, Eval width b σ n .underflow τ) ∧ τ.Alike σ' := by
  constructor
  · rintro ⟨τ, ⟨n, heval⟩, halike⟩
    obtain ⟨k, ρ, heval', halike'⟩ := h.underflow hσ heval
    exact ⟨ρ, ⟨k, heval'⟩, halike'.trans halike⟩
  · rintro ⟨τ, ⟨n, heval⟩, halike⟩
    obtain ⟨k, ρ, hunder⟩ : ∃ k ρ, Eval width a σ k .underflow ρ := by
      rcases h.backward hσ heval with hunder | ⟨k, heval'⟩
      · exact hunder
      · exact ⟨k, τ, heval'⟩
    obtain ⟨l, ρ', hunder', halike'⟩ := h.underflow hσ hunder
    obtain ⟨-, rfl⟩ := heval.unique hunder'
    exact ⟨ρ, ⟨k, hunder⟩, halike'.symm.trans halike⟩

/-- Condensed code comes to an end exactly if the code does. -/
theorem ends_iff (h : Condenses width a b) (hσ : σ.InRange width) :
    (∃ n e τ, Eval width a σ n e τ) ↔ ∃ n e τ, Eval width b σ n e τ := by
  constructor
  · rintro ⟨n, e, τ, heval⟩
    by_cases he : e = .underflow
    · subst he
      obtain ⟨k, ρ, heval', -⟩ := h.underflow hσ heval
      exact ⟨k, _, ρ, heval'⟩
    · obtain ⟨k, -, heval'⟩ := h.forward hσ heval he
      exact ⟨k, e, τ, heval'⟩
  · rintro ⟨n, e, τ, heval⟩
    rcases h.backward hσ heval with ⟨k, ρ, hunder⟩ | ⟨k, heval'⟩
    · exact ⟨k, _, ρ, hunder⟩
    · exact ⟨k, e, τ, heval'⟩

end Condenses

end ReversibleTape
