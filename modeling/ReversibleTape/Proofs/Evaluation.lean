import ReversibleTape.Device
import ReversibleTape.Proofs.Arithmetic
import ReversibleTape.Proofs.Code
import ReversibleTape.Tape.Basic
import ReversibleTape.Word

/-!
# Evaluation of structured code

The reference for what code means. It knows nothing of indices, jumps and records: a `Store` is
the pointer, the tape and the buffer, `Instr.exec` is what one instruction does to it, and
`Eval width code σ cost ending σ'` says that evaluating `code` from `σ` comes to an end in `σ'`
after `cost` instructions. **Each head of a loop costs one each time it is looked at**, so a loop
with `k` passes costs `k + 1` besides what its body costs. An evaluation ends normally, or it is
stuck for one of three reasons (`Ending`); code that runs for ever has no evaluation.
-/

namespace ReversibleTape

/-- What the evaluation of code works on. -/
structure Store where
  pointer : Nat := 0
  tape : Tape := Tape.blank
  buffer : Buffer := {}
  deriving DecidableEq

namespace Store

/-- The value of the current cell. -/
def cell (σ : Store) : UInt32 := σ.tape.get σ.pointer

/-- The store with another value in the current cell. -/
def write (σ : Store) (value : UInt32) : Store :=
  { σ with tape := σ.tape.set σ.pointer value }

@[simp] theorem cell_write (σ : Store) (value : UInt32) : (σ.write value).cell = value := by
  simp [cell, write, Tape.get_set]

@[simp] theorem write_write (σ : Store) (value value' : UInt32) :
    (σ.write value).write value' = σ.write value' := by
  simp [write, Tape.set_set]

@[simp] theorem write_cell (σ : Store) : σ.write σ.cell = σ := by
  simp [cell, write, Tape.set_get]

theorem write_zero {σ : Store} (h : σ.cell = 0) : σ.write 0 = σ := by
  rw [← h, write_cell]

/-- The pointer and all cells are in their ranges. -/
structure InRange (width : UInt32) (σ : Store) : Prop where
  pointer_le : (σ.pointer : Int) ≤ Word.greatest
  get_lt : ∀ i, σ.tape.get i < width

end Store

/-- How an evaluation ends. -/
inductive Ending
  | normal
  /-- There is no value to read. -/
  | pending
  /-- The pointer would leave its range. -/
  | underflow
  /-- The value that was read does not fit in a cell. -/
  | invalid (value : Int)
  deriving DecidableEq

/-- What an instruction does. -/
def Instr.exec (width : UInt32) (σ : Store) : Instr → Ending × Store
  | .add delta =>
    (.normal, σ.write (UInt32.ofNat ((σ.cell.toNat + delta) % width.toNat).toNat))
  | .shift delta =>
    if 0 ≤ σ.pointer + delta ∧ σ.pointer + delta ≤ Word.greatest then
      (.normal, { σ with pointer := (σ.pointer + delta).toNat })
    else (.underflow, σ)
  | .output => (.normal, { σ with buffer := σ.buffer.emit (Cell.char σ.cell) })
  | .input =>
    match σ.buffer.inputs with
    | [] => (.pending, σ)
    | value :: inputs =>
      let rest := { σ with buffer := { σ.buffer with inputs } }
      if 0 ≤ value ∧ value < width.toNat then
        (.normal, rest.write (UInt32.ofNat value.toNat))
      else (.invalid value, rest)
  | .zero => (.normal, σ.write 0)

namespace Instr

theorem exec_add (width : UInt32) (d : Int) (σ : Store) :
    (Instr.add d).exec width σ = (.normal, σ.write (Cell.add width σ.cell d)) := by
  rw [Instr.exec, Cell.add_eq_ofNat]

/-- A move goes to the pointer with the sum, if that is in range. -/
theorem exec_shift_iff {width : UInt32} {d : Int} {σ σ' : Store} :
    (Instr.shift d).exec width σ = (.normal, σ') ↔
      σ.pointer + d = σ'.pointer ∧ (σ'.pointer : Int) ≤ Word.greatest ∧
        σ' = { σ with pointer := σ'.pointer } := by
  rw [Instr.exec]
  split
  · rename_i hfits
    constructor
    · intro h
      cases h
      refine ⟨?_, ?_, rfl⟩ <;> simp only <;> omega
    · rintro ⟨hpointer, -, hrest⟩
      rw [hrest, hpointer, Int.toNat_natCast]
  · rename_i hfits
    constructor
    · intro h
      cases h
    · rintro ⟨hpointer, hle, -⟩
      exact absurd ⟨by omega, by omega⟩ hfits

theorem exec_shift_or (width : UInt32) (d : Int) (σ : Store) :
    ((Instr.shift d).exec width σ).1 = .normal ∨ ((Instr.shift d).exec width σ).1 = .underflow := by
  rw [Instr.exec]
  split
  · exact .inl rfl
  · exact .inr rfl

end Instr

/-- **Evaluation.** The code comes to an end after a number of instructions. -/
inductive Eval (width : UInt32) : Code → Store → Nat → Ending → Store → Prop
  | skip (σ : Store) : Eval width .skip σ 0 .normal σ
  | instr {x : Instr} {σ σ' : Store} (exec : x.exec width σ = (.normal, σ')) :
      Eval width (.instr x) σ 1 .normal σ'
  | instrStuck {x : Instr} {σ σ' : Store} {e : Ending} (exec : x.exec width σ = (e, σ'))
      (stuck : e ≠ .normal) : Eval width (.instr x) σ 0 e σ'
  | seq {a b : Code} {σ σ' σ'' : Store} {m n : Nat} {e : Ending}
      (first : Eval width a σ m .normal σ') (second : Eval width b σ' n e σ'') :
      Eval width (.seq a b) σ (m + n) e σ''
  | seqStuck {a b : Code} {σ σ' : Store} {n : Nat} {e : Ending} (first : Eval width a σ n e σ')
      (stuck : e ≠ .normal) : Eval width (.seq a b) σ n e σ'
  | loopDone {body : Code} {σ : Store} (zero : σ.cell = 0) :
      Eval width (.loop body) σ 1 .normal σ
  | loopPass {body : Code} {σ σ' σ'' : Store} {m n : Nat} {e : Ending} (nonzero : σ.cell ≠ 0)
      (pass : Eval width body σ m .normal σ') (again : Eval width (.loop body) σ' n e σ'') :
      Eval width (.loop body) σ (1 + m + n) e σ''
  | loopStuck {body : Code} {σ σ' : Store} {n : Nat} {e : Ending} (nonzero : σ.cell ≠ 0)
      (pass : Eval width body σ n e σ') (stuck : e ≠ .normal) :
      Eval width (.loop body) σ (1 + n) e σ'

/-! ### Ranges -/

namespace Store.InRange

variable {width : UInt32} {σ σ' : Store} {e : Ending}

theorem cell_lt (h : σ.InRange width) : σ.cell < width := h.get_lt σ.pointer

theorem write (h : σ.InRange width) {value : UInt32} (hvalue : value < width) :
    (σ.write value).InRange width := by
  refine ⟨h.pointer_le, fun i => ?_⟩
  rw [Store.write, Tape.get_set]
  split
  · exact hvalue
  · exact h.get_lt i

theorem exec (hw : 0 < width) (h : σ.InRange width) {x : Instr}
    (hexec : x.exec width σ = (e, σ')) : σ'.InRange width := by
  cases x with
  | add delta =>
    cases hexec
    exact h.write (Cell.ofNat_emod_lt hw _)
  | shift delta =>
    rw [Instr.exec] at hexec
    split at hexec
    · cases hexec
      refine ⟨?_, h.get_lt⟩
      simp only
      omega
    · cases hexec
      exact h
  | output =>
    cases hexec
    exact ⟨h.pointer_le, h.get_lt⟩
  | input =>
    rw [Instr.exec] at hexec
    split at hexec
    · cases hexec
      exact h
    · rename_i value inputs hinputs
      have hrest : ({ σ with buffer := { σ.buffer with inputs } } : Store).InRange width :=
        ⟨h.pointer_le, h.get_lt⟩
      simp only at hexec
      split at hexec
      · rename_i hrange
        cases hexec
        exact hrest.write (Cell.ofInput?_lt (if_pos hrange))
      · cases hexec
        exact hrest
  | zero =>
    cases hexec
    exact h.write hw

/-- Evaluation stays in range. -/
theorem eval (hw : 0 < width) (h : σ.InRange width) {code : Code} {n : Nat}
    (heval : Eval width code σ n e σ') : σ'.InRange width := by
  induction heval with
  | skip => exact h
  | instr hexec => exact h.exec hw hexec
  | instrStuck hexec => exact h.exec hw hexec
  | seq _ _ ih₁ ih₂ => exact ih₂ (ih₁ h)
  | seqStuck _ _ ih => exact ih h
  | loopDone => exact h
  | loopPass _ _ _ ih₁ ih₂ => exact ih₂ (ih₁ h)
  | loopStuck _ _ _ ih => exact ih h

end Store.InRange

/-! ### Inversion -/

namespace Eval

variable {width : UInt32} {a b body : Code} {x : Instr} {σ σ' : Store} {n : Nat} {e : Ending}

/-- A sequence evaluates its first part, and then its second part or gets stuck before. -/
theorem seq_iff : Eval width (.seq a b) σ n e σ' ↔
    (∃ k l τ, Eval width a σ k .normal τ ∧ Eval width b τ l e σ' ∧ n = k + l) ∨
      (Eval width a σ n e σ' ∧ e ≠ .normal) := by
  constructor
  · intro h
    cases h with
    | seq first second => exact .inl ⟨_, _, _, first, second, rfl⟩
    | seqStuck first stuck => exact .inr ⟨first, stuck⟩
  · rintro (⟨k, l, τ, first, second, rfl⟩ | ⟨first, stuck⟩)
    · exact .seq first second
    · exact .seqStuck first stuck

/-- An instruction costs one if it is executed. -/
theorem instr_iff : Eval width (.instr x) σ n e σ' ↔
    x.exec width σ = (e, σ') ∧ n = if e = .normal then 1 else 0 := by
  constructor
  · intro h
    cases h with
    | instr exec => exact ⟨exec, rfl⟩
    | instrStuck exec stuck => exact ⟨exec, (if_neg stuck).symm⟩
  · rintro ⟨exec, rfl⟩
    split
    · rename_i he
      subst he
      exact .instr exec
    · exact .instrStuck exec ‹_›

/-- How sequences are bracketed does not matter. -/
theorem seq_assoc_iff {c : Code} :
    Eval width (.seq (.seq a b) c) σ n e σ' ↔ Eval width (.seq a (.seq b c)) σ n e σ' := by
  constructor
  · intro h
    rcases seq_iff.mp h with ⟨k, l, τ, hab, hc, rfl⟩ | ⟨hab, hstuck⟩
    · rcases seq_iff.mp hab with ⟨i, j, ρ, ha, hb, rfl⟩ | ⟨-, hstuck⟩
      · rw [Nat.add_assoc]
        exact .seq ha (.seq hb hc)
      · exact absurd rfl hstuck
    · rcases seq_iff.mp hab with ⟨i, j, ρ, ha, hb, rfl⟩ | ⟨ha, -⟩
      · exact .seq ha (.seqStuck hb hstuck)
      · exact .seqStuck ha hstuck
  · intro h
    rcases seq_iff.mp h with ⟨k, l, τ, ha, hbc, rfl⟩ | ⟨ha, hstuck⟩
    · rcases seq_iff.mp hbc with ⟨i, j, ρ, hb, hc, rfl⟩ | ⟨hb, hstuck⟩
      · rw [← Nat.add_assoc]
        exact .seq (.seq ha hb) hc
      · exact .seqStuck (.seq ha hb) hstuck
    · exact .seqStuck (.seqStuck ha hstuck) hstuck

theorem seq_skip_iff : Eval width (.seq a .skip) σ n e σ' ↔ Eval width a σ n e σ' := by
  constructor
  · intro h
    rcases seq_iff.mp h with ⟨k, l, τ, ha, hskip, rfl⟩ | ⟨ha, -⟩
    · cases hskip
      exact ha
    · exact ha
  · intro h
    by_cases he : e = .normal
    · subst he
      exact .seq h (.skip σ')
    · exact .seqStuck h he

theorem skip_seq_iff : Eval width (.seq .skip a) σ n e σ' ↔ Eval width a σ n e σ' := by
  constructor
  · intro h
    rcases seq_iff.mp h with ⟨k, l, τ, hskip, ha, rfl⟩ | ⟨hskip, hstuck⟩
    · cases hskip
      rwa [Nat.zero_add]
    · cases hskip
      exact absurd rfl hstuck
  · intro h
    rw [← Nat.zero_add n]
    exact .seq (.skip σ) h

/-- Induction over the passes of a loop. -/
@[elab_as_elim]
theorem loop_induction
    {motive : ∀ (σ : Store) (n : Nat) (e : Ending) (σ' : Store),
      Eval width (.loop body) σ n e σ' → Prop}
    (done : ∀ (σ : Store) (zero : σ.cell = 0), motive σ 1 .normal σ (.loopDone zero))
    (pass : ∀ (σ τ σ' : Store) (m n : Nat) (e : Ending) (nonzero : σ.cell ≠ 0)
      (pass : Eval width body σ m .normal τ) (again : Eval width (.loop body) τ n e σ'),
      motive τ n e σ' again → motive σ (1 + m + n) e σ' (.loopPass nonzero pass again))
    (stuck : ∀ (σ σ' : Store) (n : Nat) (e : Ending) (nonzero : σ.cell ≠ 0)
      (pass : Eval width body σ n e σ') (stuck : e ≠ .normal),
      motive σ (1 + n) e σ' (.loopStuck nonzero pass stuck))
    {σ : Store} {n : Nat} {e : Ending} {σ' : Store} (h : Eval width (.loop body) σ n e σ') :
    motive σ n e σ' h := by
  -- the code is an index of the relation: the induction is on all code, and only loops are left
  suffices hall : ∀ code (h : Eval width code σ n e σ') (hcode : code = .loop body),
      motive σ n e σ' (hcode ▸ h) from hall _ h rfl
  intro code h hcode
  induction h with
  | skip | instr | instrStuck | seq | seqStuck => cases hcode
  | loopDone zero =>
    cases hcode
    exact done _ zero
  | loopPass nonzero first again _ ih =>
    cases hcode
    exact pass _ _ _ _ _ _ nonzero first again (ih again rfl)
  | loopStuck nonzero first hstuck =>
    cases hcode
    exact stuck _ _ _ _ nonzero first hstuck

end Eval

end ReversibleTape
