import ReversibleTape.Proofs.Evaluation

/-!
# Folded code

`FoldsTo width a b` says that the code `b` may stand for the code `a`. It does what `a` does at no
greater cost, with **one difference: it may hide moves out of range**. Where the moves of `a`
leave the range of pointers for a while, those of `b` need not, and then `b` goes on where `a` is
stuck. Both directions are part of the relation: what `a` does `b` does as well, and what `b` does
`a` does as well unless it leaves the range. The second one is not a consequence of the first,
since it says that `a` comes to an end.

The relation is a preorder that is compatible with sequences and loops, and three facts about
single instructions generate all of folding:

* `FoldsTo.of_exec`: two instructions that move on are one, if that one has their joint effect.
* `FoldsTo.of_exec_self`: an instruction that changes nothing may be left out.
* `FoldsTo.clear`: a loop that adds one, up or down, clears its cell. It ends because the cell
  meets zero after at most as many passes as there are cell values.
-/

namespace ReversibleTape

/-! ### Clearing loops -/

namespace Eval

variable {width : UInt32}

/-- A loop that adds an amount ends with its cell cleared. -/
theorem loop_add_eq {d : Int} {σ σ' : Store} {n : Nat} {e : Ending}
    (h : Eval width (.loop (.instr (.add d))) σ n e σ') :
    1 ≤ n ∧ e = .normal ∧ σ' = σ.write 0 := by
  induction h using Eval.loop_induction with
  | done σ zero =>
    exact ⟨Nat.le_refl 1, rfl, (Store.write_zero zero).symm⟩
  | pass σ τ σ' m n e nonzero pass again ih =>
    obtain ⟨hpass, -⟩ := Eval.instr_iff.mp pass
    rw [Instr.exec_add] at hpass
    cases hpass
    obtain ⟨-, rfl, rfl⟩ := ih
    exact ⟨by omega, rfl, Store.write_write _ _ _⟩
  | stuck σ σ' n e nonzero pass stuck =>
    obtain ⟨hpass, -⟩ := Eval.instr_iff.mp pass
    rw [Instr.exec_add] at hpass
    cases hpass
    exact absurd rfl stuck

/-- A loop that adds an amount ends if the cell meets zero after a number of passes. -/
theorem exists_loop_add (hw : 0 < width) {d : Int} (passes : Nat) {σ : Store}
    (hσ : σ.InRange width) (h : (σ.cell.toNat + passes * d) % width.toNat = 0) :
    ∃ n, Eval width (.loop (.instr (.add d))) σ n .normal (σ.write 0) := by
  have hdone : ∀ {σ : Store}, σ.cell = 0 →
      ∃ n, Eval width (.loop (.instr (.add d))) σ n .normal (σ.write 0) := by
    intro σ hzero
    rw [Store.write_zero hzero]
    exact ⟨1, .loopDone hzero⟩
  have hpos : 0 < width.toNat := UInt32.lt_iff_toNat_lt.mp hw
  -- every pass leaves one pass less to go
  induction passes generalizing σ with
  | zero =>
    have hlt := UInt32.lt_iff_toNat_lt.mp hσ.cell_lt
    rw [Int.natCast_zero, Int.zero_mul, Int.add_zero, Int.emod_eq_of_lt (by omega) (by omega)] at h
    exact hdone (UInt32.toNat_inj.mp (Int.ofNat_inj.mp h))
  | succ passes ih =>
    by_cases hzero : σ.cell = 0
    · exact hdone hzero
    · have hnext : ((Cell.add width σ.cell d).toNat + passes * d) % width.toNat = 0 := by
        rw [Cell.toNat_add hpos, Int.emod_add_emod, ← h, Int.natCast_succ, Int.add_mul,
          Int.one_mul, Int.add_assoc, Int.add_comm d]
      obtain ⟨n, again⟩ := ih (hσ.write (Cell.add_lt hw σ.cell d)) (by rwa [Store.cell_write])
      rw [Store.write_write] at again
      exact ⟨_, .loopPass hzero (.instr (Instr.exec_add width d σ)) again⟩

end Eval

/-! ### The relation -/

/-- The second code may stand for the first, except that it may hide moves out of range. -/
structure FoldsTo (width : UInt32) (a b : Code) : Prop where
  /-- What the first code does, the second does at no greater cost. -/
  forward : ∀ {σ σ' : Store} {n : Nat} {e : Ending}, σ.InRange width → Eval width a σ n e σ' →
    e ≠ .underflow → ∃ k ≤ n, Eval width b σ k e σ'
  /-- What the second code does, the first does as well unless it leaves the range. -/
  backward : ∀ {σ σ' : Store} {n : Nat} {e : Ending}, σ.InRange width → Eval width b σ n e σ' →
    (∃ k τ, Eval width a σ k .underflow τ) ∨ ∃ k, Eval width a σ k e σ'

namespace FoldsTo

variable {width : UInt32} {a a' b b' c : Code} {x y z : Instr}

/-! ### Closure laws -/

/-- Code that evaluates in the same way may stand for each other. -/
theorem of_iff (h : ∀ {σ n e σ'}, Eval width a σ n e σ' ↔ Eval width b σ n e σ') :
    FoldsTo width a b where
  forward := by
    intro σ σ' n e _ heval _
    exact ⟨n, Nat.le_refl n, h.mp heval⟩
  backward := by
    intro σ σ' n e _ heval
    exact .inr ⟨n, h.mpr heval⟩

theorem refl (a : Code) : FoldsTo width a a := of_iff Iff.rfl

theorem trans (h : FoldsTo width a b) (h' : FoldsTo width b c) : FoldsTo width a c where
  forward := by
    intro σ σ' n e hσ heval he
    obtain ⟨k, hk, heval'⟩ := h.forward hσ heval he
    obtain ⟨l, hl, heval''⟩ := h'.forward hσ heval' he
    exact ⟨l, Nat.le_trans hl hk, heval''⟩
  backward := by
    intro σ σ' n e hσ heval
    rcases h'.backward hσ heval with ⟨k, τ, hunder⟩ | ⟨k, heval'⟩
    · -- what the code in the middle does not hide, the first code does not hide either
      rcases h.backward hσ hunder with hunder' | ⟨l, hunder'⟩
      · exact .inl hunder'
      · exact .inl ⟨l, τ, hunder'⟩
    · exact h.backward hσ heval'

instance : Trans (FoldsTo width) (FoldsTo width) (FoldsTo width) := ⟨trans⟩

theorem seq (hw : 0 < width) (h : FoldsTo width a b) (h' : FoldsTo width a' b') :
    FoldsTo width (.seq a a') (.seq b b') where
  forward := by
    intro σ σ' n e hσ heval he
    rcases Eval.seq_iff.mp heval with ⟨k, l, τ, hfirst, hsecond, rfl⟩ | ⟨hfirst, hstuck⟩
    · obtain ⟨k', hk, hfirst'⟩ := h.forward hσ hfirst (by decide)
      obtain ⟨l', hl, hsecond'⟩ := h'.forward (hσ.eval hw hfirst) hsecond he
      exact ⟨k' + l', Nat.add_le_add hk hl, .seq hfirst' hsecond'⟩
    · obtain ⟨k', hk, hfirst'⟩ := h.forward hσ hfirst he
      exact ⟨k', hk, .seqStuck hfirst' hstuck⟩
  backward := by
    intro σ σ' n e hσ heval
    rcases Eval.seq_iff.mp heval with ⟨k, l, τ, hfirst, hsecond, rfl⟩ | ⟨hfirst, hstuck⟩
    · rcases h.backward hσ hfirst with ⟨k', ρ, hunder⟩ | ⟨k', hfirst'⟩
      · exact .inl ⟨k', ρ, .seqStuck hunder (by decide)⟩
      · rcases h'.backward (hσ.eval hw hfirst) hsecond with ⟨l', ρ, hunder⟩ | ⟨l', hsecond'⟩
        · exact .inl ⟨k' + l', ρ, .seq hfirst' hunder⟩
        · exact .inr ⟨k' + l', .seq hfirst' hsecond'⟩
    · rcases h.backward hσ hfirst with ⟨k', ρ, hunder⟩ | ⟨k', hfirst'⟩
      · exact .inl ⟨k', ρ, .seqStuck hunder (by decide)⟩
      · exact .inr ⟨k', .seqStuck hfirst' hstuck⟩

/-- Folding goes on inside of loops; a loop that is entered makes the same passes. -/
theorem loop (hw : 0 < width) (h : FoldsTo width a b) :
    FoldsTo width (.loop a) (.loop b) where
  forward := by
    intro σ σ' n e hσ heval he
    induction heval using Eval.loop_induction with
    | done σ zero => exact ⟨1, Nat.le_refl 1, .loopDone zero⟩
    | pass σ τ σ' m n e nonzero pass again ih =>
      obtain ⟨k, hk, pass'⟩ := h.forward hσ pass (by decide)
      obtain ⟨l, hl, again'⟩ := ih (hσ.eval hw pass) he
      exact ⟨1 + k + l, by omega, .loopPass nonzero pass' again'⟩
    | stuck σ σ' n e nonzero pass stuck =>
      obtain ⟨k, hk, pass'⟩ := h.forward hσ pass he
      exact ⟨1 + k, by omega, .loopStuck nonzero pass' stuck⟩
  backward := by
    intro σ σ' n e hσ heval
    induction heval using Eval.loop_induction with
    | done σ zero => exact .inr ⟨1, .loopDone zero⟩
    | pass σ τ σ' m n e nonzero pass again ih =>
      -- the passes made before one leaves the range are passes of both loops
      rcases h.backward hσ pass with ⟨k, ρ, hunder⟩ | ⟨k, pass'⟩
      · exact .inl ⟨1 + k, ρ, .loopStuck nonzero hunder (by decide)⟩
      · rcases ih (hσ.eval hw pass) with ⟨l, ρ, hunder⟩ | ⟨l, again'⟩
        · exact .inl ⟨1 + k + l, ρ, .loopPass nonzero pass' hunder⟩
        · exact .inr ⟨1 + k + l, .loopPass nonzero pass' again'⟩
    | stuck σ σ' n e nonzero pass stuck =>
      rcases h.backward hσ pass with ⟨k, ρ, hunder⟩ | ⟨k, pass'⟩
      · exact .inl ⟨1 + k, ρ, .loopStuck nonzero hunder (by decide)⟩
      · exact .inr ⟨1 + k, .loopStuck nonzero pass' stuck⟩

theorem seq_assoc : FoldsTo width (.seq (.seq a b) c) (.seq a (.seq b c)) :=
  of_iff Eval.seq_assoc_iff

theorem seq_skip : FoldsTo width (.seq a .skip) a := of_iff Eval.seq_skip_iff

theorem skip_seq : FoldsTo width (.seq .skip a) a := of_iff Eval.skip_seq_iff

/-! ### Runs of instructions -/

/-- Two instructions that only ever get stuck by leaving the range are one, if that one does what
they do together. -/
theorem of_exec (hx : ∀ σ, (x.exec width σ).1 = .normal ∨ (x.exec width σ).1 = .underflow)
    (hy : ∀ σ, (y.exec width σ).1 = .normal ∨ (y.exec width σ).1 = .underflow)
    (hz : ∀ {σ τ σ'}, x.exec width σ = (.normal, τ) → y.exec width τ = (.normal, σ') →
      z.exec width σ = (.normal, σ')) :
    FoldsTo width (.seq (.instr x) (.instr y)) (.instr z) where
  forward := by
    intro σ σ' n e _ heval he
    rcases Eval.seq_iff.mp heval with ⟨k, l, τ, hfirst, hsecond, rfl⟩ | ⟨hfirst, hstuck⟩
    · obtain ⟨hfirst, hk⟩ := Eval.instr_iff.mp hfirst
      obtain ⟨hsecond, -⟩ := Eval.instr_iff.mp hsecond
      have hnormal : e = .normal := by
        have hends := hy τ
        rw [hsecond] at hends
        exact hends.resolve_right he
      subst hnormal
      rw [if_pos rfl] at hk
      exact ⟨1, by omega, .instr (hz hfirst hsecond)⟩
    · obtain ⟨hfirst, -⟩ := Eval.instr_iff.mp hfirst
      have hends := hx σ
      rw [hfirst] at hends
      exact absurd hends (by simp [he, hstuck])
  backward := by
    intro σ σ' n e _ heval
    obtain ⟨heval, -⟩ := Eval.instr_iff.mp heval
    rcases hx σ with hfirst | hunder
    · rcases hy (x.exec width σ).2 with hsecond | hunder
      · -- both are executed, so they lead to where the one instruction leads
        have hboth := hz (Prod.ext hfirst rfl) (Prod.ext hsecond rfl)
        rw [heval] at hboth
        cases hboth
        exact .inr ⟨_, .seq (.instr (Prod.ext hfirst rfl)) (.instr (Prod.ext hsecond rfl))⟩
      · exact .inl ⟨_, _, .seq (.instr (Prod.ext hfirst rfl))
          (.instrStuck (Prod.ext hunder rfl) (by decide))⟩
    · exact .inl ⟨_, _, .seqStuck (.instrStuck (Prod.ext hunder rfl) (by decide)) (by decide)⟩

/-- An instruction that changes nothing may be left out. -/
theorem of_exec_self (h : ∀ {σ : Store}, σ.InRange width → x.exec width σ = (.normal, σ)) :
    FoldsTo width (.instr x) .skip where
  forward := by
    intro σ σ' n e hσ heval _
    obtain ⟨heval, -⟩ := Eval.instr_iff.mp heval
    rw [h hσ] at heval
    cases heval
    exact ⟨0, Nat.zero_le n, .skip σ⟩
  backward := by
    intro σ σ' n e hσ heval
    cases heval
    exact .inr ⟨1, .instr (h hσ)⟩

theorem add_add (hw : 0 < width) (d e : Int) :
    FoldsTo width (.seq (.instr (.add d)) (.instr (.add e))) (.instr (.add (d + e))) := by
  refine of_exec (fun _ => .inl rfl) (fun _ => .inl rfl) fun hfirst hsecond => ?_
  rw [Instr.exec_add] at hfirst hsecond ⊢
  cases hfirst
  rw [← hsecond, Store.cell_write, Store.write_write, Cell.add_add hw]

theorem shift_shift (d e : Int) :
    FoldsTo width (.seq (.instr (.shift d)) (.instr (.shift e))) (.instr (.shift (d + e))) := by
  refine of_exec (Instr.exec_shift_or width d) (Instr.exec_shift_or width e) fun hfirst hsecond => ?_
  obtain ⟨hpointer, -, hrest⟩ := Instr.exec_shift_iff.mp hfirst
  obtain ⟨hpointer', hle, hrest'⟩ := Instr.exec_shift_iff.mp hsecond
  refine Instr.exec_shift_iff.mpr ⟨by omega, hle, ?_⟩
  rw [hrest', hrest]

theorem add_zero : FoldsTo width (.instr (.add 0)) .skip := by
  refine of_exec_self fun {σ} hσ => ?_
  rw [Instr.exec_add, Cell.add_zero hσ.cell_lt, Store.write_cell]

theorem shift_zero : FoldsTo width (.instr (.shift 0)) .skip :=
  of_exec_self fun hσ => Instr.exec_shift_iff.mpr ⟨Int.add_zero _, hσ.pointer_le, rfl⟩

/-! ### Loops that clear a cell -/

/-- **A loop that adds one, up or down, clears its cell.** -/
theorem clear (hw : 0 < width) {d : Int} (hd : d.natAbs = 1) :
    FoldsTo width (.loop (.instr (.add d))) (.instr .zero) where
  forward := by
    intro σ σ' n e _ heval _
    obtain ⟨hn, rfl, rfl⟩ := Eval.loop_add_eq heval
    exact ⟨1, hn, .instr rfl⟩
  backward := by
    intro σ σ' n e hσ heval
    obtain ⟨heval, -⟩ := Eval.instr_iff.mp heval
    cases heval
    have hlt := UInt32.lt_iff_toNat_lt.mp hσ.cell_lt
    -- upwards the cell meets zero at the width, downwards after as many passes as its value
    rcases (by omega : d = 1 ∨ d = -1) with rfl | rfl
    · refine .inr (Eval.exists_loop_add hw (width.toNat - σ.cell.toNat) hσ ?_)
      have hsum : (σ.cell.toNat : Int) + (width.toNat - σ.cell.toNat : Nat) * 1 = width.toNat := by
        omega
      rw [hsum, Int.emod_self]
    · refine .inr (Eval.exists_loop_add hw σ.cell.toNat hσ ?_)
      rw [Int.mul_neg_one, Int.add_right_neg, Int.zero_emod]

end FoldsTo

end ReversibleTape
