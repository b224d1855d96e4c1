import ReversibleTape.Proofs.Invariant
import ReversibleTape.Proofs.Simulation

/-!
# Runs agree with evaluation

A run of a loaded program and an evaluation of its code come to the same end, in the same store
and after the same number of steps (`Machine.run_agrees_with_eval`). **The empty program is the
one exception**: it costs nothing, but the machine makes one step from the beginning to the end
(`Program.steps`).

How a run ends depends on its budget. `Ending.need` is the least budget with which a run comes to
its end, one more than the steps it makes if the last step it tries is not executed; with any
smaller budget the run stops at its limit. So each run is decided by the evaluation of the code:

* `Machine.Loaded.run_of_eval` goes from the evaluation to all runs.
* `Machine.Loaded.eval_of_run` goes from a run that is not stopped by its budget back to the
  evaluation.

Both are stated for all code that the program spells, not only for its instruction tree.

The agreement is stated for each budget (`Machine.run_agrees_within`) and for runs with any budget
(`Machine.run_agrees_with_eval`). A whole execution is a run with the budget that a word of 64 bits
can count, so it agrees with evaluation as far as that goes (`execute_agrees_with_eval`).
-/

namespace ReversibleTape

namespace Program

variable {p : Program} {width : UInt32} {code : Code} {σ σ' : Store} {e : Ending} {i j n : Nat}

/-- The number of steps that a run makes when the code of the program costs `cost`. -/
def steps (p : Program) (cost : Nat) : Nat := if p.isEmpty then 1 else cost

theorem WellFormed.isEmpty_iff (hp : p.WellFormed) : p.isEmpty = true ↔ p.endIndex = 1 := by
  have hpos := hp.endIndex_pos
  rw [endIndex] at hpos ⊢
  simp only [isEmpty, decide_eq_true_eq]
  omega

/-- Code without tokens does nothing. -/
theorem Spells.eval_self (h : p.Spells i code j) (hij : i = j)
    (heval : Eval width code σ n e σ') : n = 0 ∧ e = .normal ∧ σ' = σ := by
  induction h generalizing σ σ' n e with
  | skip =>
    cases heval
    exact ⟨rfl, rfl, rfl⟩
  | instr => omega
  | seq first second ih₁ ih₂ =>
    have hfirst := first.le
    have hsecond := second.le
    rcases Eval.seq_iff.mp heval with ⟨k, l, τ, heval₁, heval₂, rfl⟩ | ⟨heval₁, hstuck⟩
    · obtain ⟨rfl, -, rfl⟩ := ih₁ (by omega) heval₁
      obtain ⟨rfl, rfl, rfl⟩ := ih₂ (by omega) heval₂
      exact ⟨rfl, rfl, rfl⟩
    · exact absurd (ih₁ (by omega) heval₁).2.1 hstuck
  | loop link inner =>
    have hlt := link.lt
    omega

/-- Code with tokens costs something if it ends normally. -/
theorem Spells.cost_pos (h : p.Spells i code j) (hlt : i < j)
    (heval : Eval width code σ n .normal σ') : 0 < n := by
  induction h generalizing σ σ' n with
  | skip => omega
  | instr =>
    obtain ⟨-, rfl⟩ := Eval.instr_iff.mp heval
    decide
  | @seq i k j a b first second ih₁ ih₂ =>
    rcases Eval.seq_iff.mp heval with ⟨m, l, τ, hfirst, hsecond, rfl⟩ | ⟨-, hstuck⟩
    · rcases Nat.lt_or_eq_of_le first.le with hik | rfl
      · have hm := ih₁ hik hfirst
        omega
      · have hl := ih₂ hlt hsecond
        omega
    · exact absurd rfl hstuck
  | loop =>
    cases heval with
    | loopDone => decide
    | loopPass => omega
    | loopStuck => omega

end Program

namespace Ending

/-- What a run reports that made a number of steps and ended in this way. -/
def Reports (width : UInt32) (steps : Nat) : Ending → Except Fault RunSummary → Prop
  | .normal, result => result = .ok { steps, stop := .finished }
  | .pending, result => result = .ok { steps, stop := .inputPending }
  | .underflow, result => ∃ pc pointer delta, result = .error (.pointerUnderflow pc pointer delta)
  | .invalid value, result => ∃ pc, result = .error (.invalidInputValue pc value width)

/-- The least budget with which a run comes to its end. -/
def need (steps : Nat) (e : Ending) : Nat := if e = .normal then steps else steps + 1

theorem need_mono {k n : Nat} (h : k ≤ n) (e : Ending) : e.need k ≤ e.need n := by
  rw [need, need]
  split <;> omega

end Ending

namespace Machine

variable {m m' : Machine Buffer} {p : Program} {width : UInt32} {code : Code} {σ : Store}
  {e : Ending} {n budget : Nat}

/-- A well-formed program that has just been loaded. -/
structure Loaded (m : Machine Buffer) : Prop where
  wellFormed : m.program.WellFormed
  width_pos : 0 < m.config.cellWidth
  state_eq : m.state = .fresh m.program.size

theorem loaded_of_ofSource {source : String} {config : Config} {buffer : Buffer}
    (h : ofSource source config buffer = .ok m) : m.Loaded := by
  obtain ⟨hw, p, hp, rfl⟩ := ofSource_eq_ok_iff.mp h
  exact ⟨Program.wellFormed_of_ofSource hp, hw, rfl⟩

theorem runFrom_of_atEnd (h : m.atEnd = true) (steps budget : Nat) :
    m.runFrom steps budget = (.ok { steps, stop := .finished }, m) := by
  cases budget <;> rw [runFrom, if_pos h]

theorem atEnd_of_answers (h : e.Answers width m.stepForward.1) : m.atEnd = false := by
  refine atEnd_eq_false fun hhalted => ?_
  rw [hhalted] at h
  cases e <;> simp [Ending.Answers] at h

/-- A step that is not executed ends a run. -/
theorem runFrom_of_answers (hstuck : e ≠ .normal) (h : e.Answers width m.stepForward.1)
    (steps budget : Nat) :
    e.Reports width steps (m.runFrom steps (budget + 1)).1 ∧
      (m.runFrom steps (budget + 1)).2 = m.stepForward.2 := by
  obtain ⟨answer, m', hstep⟩ : ∃ answer m', m.stepForward = (answer, m') := ⟨_, _, rfl⟩
  have hend : m.atEnd = false := atEnd_of_answers h
  rw [hstep] at h
  rw [runFrom, hend, hstep]
  cases e with
  | normal => exact absurd rfl hstuck
  | pending =>
    obtain rfl : answer = .ok .inputPending := h
    exact ⟨rfl, rfl⟩
  | underflow =>
    obtain ⟨pc, pointer, delta, rfl⟩ : ∃ pc pointer delta,
        answer = .error (.pointerUnderflow pc pointer delta) := h
    exact ⟨⟨pc, pointer, delta, rfl⟩, rfl⟩
  | invalid value =>
    obtain ⟨pc, rfl⟩ : ∃ pc, answer = .error (.invalidInputValue pc value width) := h
    exact ⟨⟨pc, rfl⟩, rfl⟩

/-- A machine that is at the last index has ended, or it rests at the beginning of the empty
program. -/
theorem At.atEnd_or (hp : p.WellFormed) (h : At p width p.endIndex σ m) :
    m.atEnd = true ∨ p.endIndex = 1 := by
  obtain ⟨rfl, -, hnext, -⟩ := h
  rw [hp.next?_endIndex] at hnext
  rcases Nat.lt_or_ge m.program.endIndex m.state.pc with hlt | hle
  · have hsize : m.program.size ≤ m.state.pc := by
      rw [Program.endIndex] at hlt
      omega
    exact .inl (by simp [atEnd, currentKind, Program.kindAt_of_size_le hsize])
  · rcases hp.next?_cases hle hnext with ⟨-, hone⟩ | ⟨-, heq, -⟩ | hlink
    · exact .inr hone
    · exact .inl (by simp [atEnd, currentKind, ← heq, hp.kindAt_endIndex])
    · exact absurd (hlink.kind_head.symm.trans hp.kindAt_endIndex) (by decide)

namespace Loaded

theorem at_one (h : m.Loaded) : At m.program m.config.cellWidth 1 m.store m :=
  ⟨rfl, rfl, by rw [h.state_eq]; exact h.wellFormed.next?_zero, rfl⟩

theorem store_eq (h : m.Loaded) : m.store = { buffer := m.device } := by
  rw [store, h.state_eq]
  rfl

theorem inRange (h : m.Loaded) : m.store.InRange m.config.cellWidth := by
  rw [h.store_eq]
  refine ⟨?_, fun i => ?_⟩
  · simp [Word.greatest]
  · simpa using h.width_pos

/-- The empty program is run in one step. -/
theorem advances_of_isEmpty (h : m.Loaded) (hempty : m.program.endIndex = 1) :
    ∃ m', Advances 1 m m' ∧ m'.atEnd = true ∧ m'.store = m.store := by
  have hkind : m.program.kindAt 1 = .finish := hempty ▸ h.wellFormed.kindAt_endIndex
  have hnext : m.program.next? m.state.pc = some 1 := by
    rw [h.state_eq, Program.next?, show m.program.kindAt (State.fresh m.program.size).pc = .start
      from h.wellFormed.kindAt_zero]
    rfl
  have hpc : 1 ≠ m.state.pc := by simp [h.state_eq, State.fresh]
  have hstep := stepForward_of_perform hnext (consult_of_kindAt (by simp [hkind]) _)
    (by simp only [State.perform, show (m.program.tokenAt 1).kind = .finish from hkind, if_neg hpc];
        rfl)
  exact ⟨_, .single hstep, by simp [atEnd, currentKind, hkind], rfl⟩

/-- An evaluation that ends normally is a sequence of steps to the end of the program. -/
theorem advances_of_eval (h : m.Loaded) (hspells : m.program.Spells 1 code m.program.endIndex)
    (heval : Eval m.config.cellWidth code m.store n .normal σ) :
    ∃ m', Advances (m.program.steps n) m m' ∧ m'.atEnd = true ∧ m'.store = σ := by
  rw [Program.steps]
  by_cases hempty : m.program.endIndex = 1
  · rw [if_pos (h.wellFormed.isEmpty_iff.mpr hempty)]
    -- the empty program costs nothing, but one step leads from the beginning to the end
    rw [hempty] at hspells
    obtain ⟨-, -, rfl⟩ := hspells.eval_self rfl heval
    exact h.advances_of_isEmpty hempty
  · rw [if_neg (mt h.wellFormed.isEmpty_iff.mp hempty)]
    cases h.at_one.reaches h.width_pos hspells h.inRange heval with
    | normal advances at_end =>
      exact ⟨_, advances, (at_end.atEnd_or h.wellFormed).resolve_right hempty, at_end.store_eq⟩
    | stuck _ abnormal => exact absurd rfl abnormal

/-- The empty program does not get stuck. -/
theorem steps_of_stuck (h : m.Loaded) (hspells : m.program.Spells 1 code m.program.endIndex)
    (hstuck : e ≠ .normal) (heval : Eval m.config.cellWidth code m.store n e σ) :
    m.program.steps n = n := by
  refine if_neg fun hempty => hstuck ?_
  rw [h.wellFormed.isEmpty_iff.mp hempty] at hspells
  exact (hspells.eval_self rfl heval).2.1

/-- A run that finishes makes as many steps as its code costs, but at least one. -/
theorem steps_eq_max (h : m.Loaded)
    (hspells : m.program.Spells 1 code m.program.endIndex)
    (heval : Eval m.config.cellWidth code m.store n .normal σ) :
    m.program.steps n = max 1 n := by
  rw [Program.steps]
  by_cases hempty : m.program.endIndex = 1
  · rw [if_pos (h.wellFormed.isEmpty_iff.mpr hempty)]
    rw [hempty] at hspells
    obtain ⟨rfl, -, -⟩ := hspells.eval_self rfl heval
    rfl
  · rw [if_neg (mt h.wellFormed.isEmpty_iff.mp hempty)]
    have hle := h.wellFormed.endIndex_pos
    have hpos := hspells.cost_pos (by omega) heval
    omega

/-- An evaluation that gets stuck is a sequence of steps to a step that is not executed. -/
theorem advances_of_stuck (h : m.Loaded) (hspells : m.program.Spells 1 code m.program.endIndex)
    (hstuck : e ≠ .normal) (heval : Eval m.config.cellWidth code m.store n e σ) :
    ∃ m', Advances (m.program.steps n) m m' ∧ e.Answers m.config.cellWidth m'.stepForward.1 ∧
      m'.stepForward.2.store = σ := by
  rw [h.steps_of_stuck hspells hstuck heval]
  cases h.at_one.reaches h.width_pos hspells h.inRange heval with
  | normal => exact absurd rfl hstuck
  | stuck advances _ answers store_eq => exact ⟨_, advances, answers, store_eq⟩

/-- **A run with enough budget comes to the end of the evaluation.** -/
theorem run_of_eval (h : m.Loaded) (hspells : m.program.Spells 1 code m.program.endIndex)
    (heval : Eval m.config.cellWidth code m.store n e σ)
    (hbudget : e.need (m.program.steps n) ≤ budget) :
    e.Reports m.config.cellWidth (m.program.steps n) (m.run budget).1 ∧
      (m.run budget).2.store = σ := by
  rw [Ending.need] at hbudget
  split at hbudget
  · rename_i he
    subst he
    obtain ⟨m', hadvance, hend, hstore⟩ := h.advances_of_eval hspells heval
    obtain ⟨rest, rfl⟩ := Nat.exists_eq_add_of_le hbudget
    rw [run, hadvance.runFrom_eq, runFrom_of_atEnd hend, Nat.zero_add]
    exact ⟨rfl, hstore⟩
  · rename_i hstuck
    obtain ⟨m', hadvance, hanswers, hstore⟩ := h.advances_of_stuck hspells hstuck heval
    obtain ⟨rest, rfl⟩ := Nat.exists_eq_add_of_le hbudget
    have hrun := runFrom_of_answers hstuck hanswers (m.program.steps n) rest
    rw [run, Nat.add_right_comm, Nat.add_assoc, hadvance.runFrom_eq, Nat.zero_add, hrun.2]
    exact ⟨hrun.1, hstore⟩

/-- A run with less budget stops at its limit. -/
theorem run_limit (h : m.Loaded) (hspells : m.program.Spells 1 code m.program.endIndex)
    (heval : Eval m.config.cellWidth code m.store n e σ)
    (hbudget : budget < e.need (m.program.steps n)) :
    (m.run budget).1 = .ok { steps := budget, stop := .stepLimit } := by
  have hbefore : ∃ m₁, Advances budget m m₁ ∧ m₁.atEnd = false := by
    rw [Ending.need] at hbudget
    split at hbudget
    · rename_i he
      subst he
      obtain ⟨m', hadvance, -, -⟩ := h.advances_of_eval hspells heval
      exact hadvance.exists_before hbudget
    · rename_i hstuck
      obtain ⟨m', hadvance, hanswers, -⟩ := h.advances_of_stuck hspells hstuck heval
      -- with all steps made, the budget is still too small to try the step that gets stuck
      rcases Nat.lt_or_eq_of_le (Nat.le_of_lt_succ hbudget) with hlt | heq
      · exact hadvance.exists_before hlt
      · exact ⟨m', heq ▸ hadvance, atEnd_of_answers hanswers⟩
  obtain ⟨m₁, hadvance, hend⟩ := hbefore
  rw [run, hadvance.runFrom_limit hend, Nat.zero_add]

/-- **A run that is not stopped by its budget has evaluated the code.** -/
theorem eval_of_run (h : m.Loaded) (hspells : m.program.Spells 1 code m.program.endIndex)
    (hrun : (m.run budget).1 ≠ .ok { steps := budget, stop := .stepLimit }) :
    ∃ n e, Eval m.config.cellWidth code m.store n e (m.run budget).2.store ∧
      e.need (m.program.steps n) ≤ budget ∧
      e.Reports m.config.cellWidth (m.program.steps n) (m.run budget).1 := by
  have hstop : StopsWithin budget m := by
    refine (stopsWithin_of_runFrom m 0 budget).resolve_right fun ⟨m', hlimit⟩ => hrun ?_
    rw [run, hlimit, Nat.zero_add]
  obtain ⟨n, e, σ, heval⟩ := h.at_one.exists_eval h.width_pos hspells h.inRange hstop
  have hbudget : e.need (m.program.steps n) ≤ budget :=
    Nat.le_of_not_lt fun hlt => hrun (h.run_limit hspells heval hlt)
  obtain ⟨hreports, hstore⟩ := h.run_of_eval hspells heval hbudget
  exact ⟨n, e, hstore ▸ heval, hbudget, hreports⟩

end Loaded

/-! ### Runs with a given budget -/

/-- With the budget, a run answers with the result and leaves the store. -/
def EndsWithin (m : Machine Buffer) (budget : Nat) (result : Except Fault RunSummary) (σ : Store) :
    Prop :=
  ∃ m', m.run budget = (result, m') ∧ m'.store = σ

namespace Loaded

theorem endsWithin_of_eval (h : m.Loaded) (hspells : m.program.Spells 1 code m.program.endIndex)
    (heval : Eval m.config.cellWidth code m.store n e σ)
    (hbudget : e.need (m.program.steps n) ≤ budget) :
    ∃ result, e.Reports m.config.cellWidth (m.program.steps n) result ∧
      m.EndsWithin budget result σ := by
  obtain ⟨hreports, hstore⟩ := h.run_of_eval hspells heval hbudget
  exact ⟨_, hreports, _, rfl, hstore⟩

theorem eval_of_endsWithin (h : m.Loaded) (hspells : m.program.Spells 1 code m.program.endIndex)
    {result : Except Fault RunSummary} (hends : m.EndsWithin budget result σ)
    (hlimit : ∀ steps, result ≠ .ok { steps, stop := .stepLimit }) :
    ∃ n e, Eval m.config.cellWidth code m.store n e σ ∧ e.need (m.program.steps n) ≤ budget ∧
      e.Reports m.config.cellWidth (m.program.steps n) result := by
  obtain ⟨m', hrun, rfl⟩ := hends
  have hnot : (m.run budget).1 ≠ .ok { steps := budget, stop := .stepLimit } := by
    rw [hrun]
    exact hlimit budget
  obtain ⟨n, e, heval, hbudget, hreports⟩ := h.eval_of_run hspells hnot
  rw [hrun] at heval hreports
  exact ⟨n, e, heval, hbudget, hreports⟩

theorem endsWithin_finished_iff (h : m.Loaded)
    (hspells : m.program.Spells 1 code m.program.endIndex) {steps : Nat} :
    m.EndsWithin budget (.ok { steps, stop := .finished }) σ ↔
      ∃ n, Eval m.config.cellWidth code m.store n .normal σ ∧ steps = m.program.steps n ∧
        steps ≤ budget := by
  constructor
  · intro hends
    obtain ⟨n, e, heval, hbudget, hreports⟩ := h.eval_of_endsWithin hspells hends (by simp)
    cases e <;> simp [Ending.Reports] at hreports
    exact ⟨n, heval, hreports, hreports ▸ hbudget⟩
  · rintro ⟨n, heval, rfl, hbudget⟩
    obtain ⟨result, rfl, hends⟩ := h.endsWithin_of_eval hspells heval hbudget
    exact hends

/-- A step that is not executed has to be tried. -/
theorem need_of_stuck (h : m.Loaded) (hspells : m.program.Spells 1 code m.program.endIndex)
    (hstuck : e ≠ .normal) (heval : Eval m.config.cellWidth code m.store n e σ) :
    e.need (m.program.steps n) = n + 1 := by
  rw [Ending.need, if_neg hstuck, h.steps_of_stuck hspells hstuck heval]

theorem endsWithin_inputPending_iff (h : m.Loaded)
    (hspells : m.program.Spells 1 code m.program.endIndex) {steps : Nat} :
    m.EndsWithin budget (.ok { steps, stop := .inputPending }) σ ↔
      Eval m.config.cellWidth code m.store steps .pending σ ∧ steps < budget := by
  constructor
  · intro hends
    obtain ⟨n, e, heval, hbudget, hreports⟩ := h.eval_of_endsWithin hspells hends (by simp)
    cases e <;> simp [Ending.Reports] at hreports
    rw [h.need_of_stuck hspells (by decide) heval] at hbudget
    rw [h.steps_of_stuck hspells (by decide) heval] at hreports
    exact hreports ▸ ⟨heval, hbudget⟩
  · rintro ⟨heval, hbudget⟩
    have hneed : Ending.need (m.program.steps steps) .pending ≤ budget := by
      rwa [h.need_of_stuck hspells (by decide) heval]
    obtain ⟨result, rfl, hends⟩ := h.endsWithin_of_eval hspells heval hneed
    rwa [h.steps_of_stuck hspells (by decide) heval] at hends

theorem endsWithin_pointerUnderflow_iff (h : m.Loaded)
    (hspells : m.program.Spells 1 code m.program.endIndex) :
    (∃ pc pointer delta, m.EndsWithin budget (.error (.pointerUnderflow pc pointer delta)) σ) ↔
      ∃ n, Eval m.config.cellWidth code m.store n .underflow σ ∧ n < budget := by
  constructor
  · rintro ⟨pc, pointer, delta, hends⟩
    obtain ⟨n, e, heval, hbudget, hreports⟩ := h.eval_of_endsWithin hspells hends (by simp)
    cases e <;> simp [Ending.Reports] at hreports
    rw [h.need_of_stuck hspells (by decide) heval] at hbudget
    exact ⟨n, heval, hbudget⟩
  · rintro ⟨n, heval, hbudget⟩
    have hneed : Ending.need (m.program.steps n) .underflow ≤ budget := by
      rwa [h.need_of_stuck hspells (by decide) heval]
    obtain ⟨result, ⟨pc, pointer, delta, rfl⟩, hends⟩ := h.endsWithin_of_eval hspells heval hneed
    exact ⟨pc, pointer, delta, hends⟩

theorem endsWithin_invalidInputValue_iff (h : m.Loaded)
    (hspells : m.program.Spells 1 code m.program.endIndex) {value : Int} :
    (∃ pc width, m.EndsWithin budget (.error (.invalidInputValue pc value width)) σ) ↔
      ∃ n, Eval m.config.cellWidth code m.store n (.invalid value) σ ∧ n < budget := by
  constructor
  · rintro ⟨pc, width, hends⟩
    obtain ⟨n, e, heval, hbudget, hreports⟩ := h.eval_of_endsWithin hspells hends (by simp)
    cases e <;> simp [Ending.Reports] at hreports
    obtain ⟨rfl, -⟩ := hreports
    rw [h.need_of_stuck hspells (by simp) heval] at hbudget
    exact ⟨n, heval, hbudget⟩
  · rintro ⟨n, heval, hbudget⟩
    have hneed : Ending.need (m.program.steps n) (.invalid value) ≤ budget := by
      rwa [h.need_of_stuck hspells (by simp) heval]
    obtain ⟨result, ⟨pc, rfl⟩, hends⟩ := h.endsWithin_of_eval hspells heval hneed
    exact ⟨pc, _, hends⟩

/-- A run stops at its limit exactly if the code does not come to an end before. -/
theorem run_stepLimit_iff (h : m.Loaded) (hspells : m.program.Spells 1 code m.program.endIndex) :
    (m.run budget).1 = .ok { steps := budget, stop := .stepLimit } ↔
      ∀ n e σ, Eval m.config.cellWidth code m.store n e σ →
        budget < e.need (m.program.steps n) := by
  constructor
  · intro hlimit n e σ heval
    refine Nat.lt_of_not_le fun hbudget => ?_
    obtain ⟨hreports, -⟩ := h.run_of_eval hspells heval hbudget
    rw [hlimit] at hreports
    cases e <;> simp [Ending.Reports] at hreports
  · intro hlate
    refine Classical.byContradiction fun hnot => ?_
    obtain ⟨n, e, heval, hbudget, -⟩ := h.eval_of_run hspells hnot
    exact Nat.not_le_of_lt (hlate n e _ heval) hbudget

end Loaded

/-! ### Runs with any budget -/

/-- With some budget, a run answers with the result and leaves the store. -/
def Ends (m : Machine Buffer) (result : Except Fault RunSummary) (σ : Store) : Prop :=
  ∃ budget m', m.run budget = (result, m') ∧ m'.store = σ

namespace Loaded

theorem ends_of_eval (h : m.Loaded) (hspells : m.program.Spells 1 code m.program.endIndex)
    (heval : Eval m.config.cellWidth code m.store n e σ) :
    ∃ result, e.Reports m.config.cellWidth (m.program.steps n) result ∧ m.Ends result σ := by
  obtain ⟨result, hreports, hends⟩ := h.endsWithin_of_eval hspells heval (Nat.le_refl _)
  exact ⟨result, hreports, _, hends⟩

theorem eval_of_ends (h : m.Loaded) (hspells : m.program.Spells 1 code m.program.endIndex)
    {result : Except Fault RunSummary} (hends : m.Ends result σ)
    (hlimit : ∀ steps, result ≠ .ok { steps, stop := .stepLimit }) :
    ∃ n e, Eval m.config.cellWidth code m.store n e σ ∧
      e.Reports m.config.cellWidth (m.program.steps n) result := by
  obtain ⟨budget, hends⟩ := hends
  obtain ⟨n, e, heval, -, hreports⟩ := h.eval_of_endsWithin hspells hends hlimit
  exact ⟨n, e, heval, hreports⟩

theorem ends_finished_iff (h : m.Loaded) (hspells : m.program.Spells 1 code m.program.endIndex)
    {steps : Nat} : m.Ends (.ok { steps, stop := .finished }) σ ↔
      ∃ n, Eval m.config.cellWidth code m.store n .normal σ ∧ steps = m.program.steps n := by
  constructor
  · rintro ⟨budget, hends⟩
    obtain ⟨n, heval, hsteps, -⟩ := (h.endsWithin_finished_iff hspells).mp hends
    exact ⟨n, heval, hsteps⟩
  · rintro ⟨n, heval, hsteps⟩
    exact ⟨steps, (h.endsWithin_finished_iff hspells).mpr ⟨n, heval, hsteps, Nat.le_refl steps⟩⟩

theorem ends_inputPending_iff (h : m.Loaded)
    (hspells : m.program.Spells 1 code m.program.endIndex) {steps : Nat} :
    m.Ends (.ok { steps, stop := .inputPending }) σ ↔
      Eval m.config.cellWidth code m.store steps .pending σ := by
  constructor
  · rintro ⟨budget, hends⟩
    exact ((h.endsWithin_inputPending_iff hspells).mp hends).1
  · intro heval
    exact ⟨_, (h.endsWithin_inputPending_iff hspells).mpr ⟨heval, Nat.lt_succ_self steps⟩⟩

theorem ends_pointerUnderflow_iff (h : m.Loaded)
    (hspells : m.program.Spells 1 code m.program.endIndex) :
    (∃ pc pointer delta, m.Ends (.error (.pointerUnderflow pc pointer delta)) σ) ↔
      ∃ n, Eval m.config.cellWidth code m.store n .underflow σ := by
  constructor
  · rintro ⟨pc, pointer, delta, budget, hends⟩
    obtain ⟨n, heval, -⟩ :=
      (h.endsWithin_pointerUnderflow_iff hspells).mp ⟨pc, pointer, delta, hends⟩
    exact ⟨n, heval⟩
  · rintro ⟨n, heval⟩
    obtain ⟨pc, pointer, delta, hends⟩ :=
      (h.endsWithin_pointerUnderflow_iff hspells).mpr ⟨n, heval, Nat.lt_succ_self n⟩
    exact ⟨pc, pointer, delta, _, hends⟩

theorem ends_invalidInputValue_iff (h : m.Loaded)
    (hspells : m.program.Spells 1 code m.program.endIndex) {value : Int} :
    (∃ pc width, m.Ends (.error (.invalidInputValue pc value width)) σ) ↔
      ∃ n, Eval m.config.cellWidth code m.store n (.invalid value) σ := by
  constructor
  · rintro ⟨pc, width, budget, hends⟩
    obtain ⟨n, heval, -⟩ :=
      (h.endsWithin_invalidInputValue_iff hspells).mp ⟨pc, width, hends⟩
    exact ⟨n, heval⟩
  · rintro ⟨n, heval⟩
    obtain ⟨pc, width, hends⟩ :=
      (h.endsWithin_invalidInputValue_iff hspells).mpr ⟨n, heval, Nat.lt_succ_self n⟩
    exact ⟨pc, width, _, hends⟩

/-- All runs stop at their limit exactly if the code runs for ever. -/
theorem stepLimit_iff (h : m.Loaded) (hspells : m.program.Spells 1 code m.program.endIndex) :
    (∀ budget, (m.run budget).1 = .ok { steps := budget, stop := .stepLimit }) ↔
      ∀ n e σ, ¬ Eval m.config.cellWidth code m.store n e σ := by
  constructor
  · intro hlimit n e σ heval
    exact Nat.lt_irrefl _ ((h.run_stepLimit_iff hspells).mp (hlimit _) n e σ heval)
  · intro hnone budget
    exact (h.run_stepLimit_iff hspells).mpr fun n e σ heval => absurd heval (hnone n e σ)

end Loaded

/-- **Runs agree with evaluation, budget by budget.** A run with a given budget ends exactly as the
evaluation does, if the budget is large enough: as large as the number of steps if the end is
reached, and larger by one if the last step that is tried is not executed. It stops at its limit
exactly if no evaluation comes to its end within the budget. -/
theorem run_agrees_within {m₀ m : Machine Buffer} {p : Program} (hw : 0 < m₀.config.cellWidth)
    (hload : m₀.install p = (.ok (), m)) (budget : Nat) :
    let eval := Eval m.config.cellWidth p.code { buffer := m.device }
    (∀ σ steps, m.EndsWithin budget (.ok { steps, stop := .finished }) σ ↔
        ∃ cost, eval cost .normal σ ∧ steps = p.steps cost ∧ steps ≤ budget) ∧
      (∀ σ steps, m.EndsWithin budget (.ok { steps, stop := .inputPending }) σ ↔
        eval steps .pending σ ∧ steps < budget) ∧
      (∀ σ, (∃ pc pointer delta,
          m.EndsWithin budget (.error (.pointerUnderflow pc pointer delta)) σ) ↔
        ∃ cost, eval cost .underflow σ ∧ cost < budget) ∧
      (∀ σ value, (∃ pc width,
          m.EndsWithin budget (.error (.invalidInputValue pc value width)) σ) ↔
        ∃ cost, eval cost (.invalid value) σ ∧ cost < budget) ∧
      ((m.run budget).1 = .ok { steps := budget, stop := .stepLimit } ↔
        ∀ cost ending σ, eval cost ending σ → budget < ending.need (p.steps cost)) := by
  obtain ⟨hp, rfl⟩ := install_eq_ok_iff.mp hload
  have h : Loaded { m₀ with program := p, state := .fresh p.size } := ⟨hp, hw, rfl⟩
  have hspells := hp.spells_code
  intro eval
  refine ⟨fun σ steps => ?_, fun σ steps => ?_, fun σ => ?_, fun σ value => ?_, ?_⟩
  · exact h.endsWithin_finished_iff hspells
  · exact h.endsWithin_inputPending_iff hspells
  · exact h.endsWithin_pointerUnderflow_iff hspells
  · exact h.endsWithin_invalidInputValue_iff hspells
  · exact h.run_stepLimit_iff hspells

/-- **Runs agree with evaluation.** Load any program that passes its checks into a machine with a
buffer. Its runs end, with some budget, exactly as the evaluation of its instruction tree ends
from a blank store: normally, without a value to read, with a move out of range, or with a value
that does not fit, always in the same store, which holds the pointer, the tape, the output and the
values that are not read yet. A finished run reports the cost of the evaluation, or 1 for the
empty program, and all runs stop at their limit exactly if there is no evaluation. -/
theorem run_agrees_with_eval {m₀ m : Machine Buffer} {p : Program}
    (hw : 0 < m₀.config.cellWidth) (hload : m₀.install p = (.ok (), m)) :
    let eval := Eval m.config.cellWidth p.code { buffer := m.device }
    (∀ σ steps, m.Ends (.ok { steps, stop := .finished }) σ ↔
        ∃ cost, eval cost .normal σ ∧ steps = if p.isEmpty then 1 else cost) ∧
      (∀ σ steps, m.Ends (.ok { steps, stop := .inputPending }) σ ↔ eval steps .pending σ) ∧
      (∀ σ, (∃ pc pointer delta, m.Ends (.error (.pointerUnderflow pc pointer delta)) σ) ↔
        ∃ cost, eval cost .underflow σ) ∧
      (∀ σ value, (∃ pc width, m.Ends (.error (.invalidInputValue pc value width)) σ) ↔
        ∃ cost, eval cost (.invalid value) σ) ∧
      ((∀ budget, (m.run budget).1 = .ok { steps := budget, stop := .stepLimit }) ↔
        ∀ cost ending σ, ¬ eval cost ending σ) := by
  obtain ⟨hp, rfl⟩ := install_eq_ok_iff.mp hload
  have h : Loaded { m₀ with program := p, state := .fresh p.size } := ⟨hp, hw, rfl⟩
  have hspells := hp.spells_code
  intro eval
  refine ⟨fun σ steps => ?_, fun σ steps => ?_, fun σ => ?_, fun σ value => ?_, ?_⟩
  · exact h.ends_finished_iff hspells
  · exact h.ends_inputPending_iff hspells
  · exact h.ends_pointerUnderflow_iff hspells
  · exact h.ends_invalidInputValue_iff hspells
  · exact h.stepLimit_iff hspells

/-- A machine that reads a number and counts it down, emitting each number on the way, with the
number 2 to read. -/
def emitter : Machine Buffer where
  program := { tokens := #[.start, { kind := .input }, { kind := .loopOpen, partner := some 5 },
    { kind := .output }, { kind := .add, delta := -1 }, { kind := .loopClose, partner := some 2 },
    .finish] }
  config := {}
  state := .fresh 7
  device := { inputs := [2] }

theorem run_agrees_with_eval_emitter :
    0 < emitter.config.cellWidth ∧ emitter.install emitter.program = (.ok (), emitter) ∧
      Eval 256 emitter.program.code { buffer := { inputs := [2] } } 8 .normal
        { buffer := { output := "\x02\x01" } } := by
  have hw : 0 < emitter.config.cellWidth := by decide
  have hload : emitter.install emitter.program = (.ok (), emitter) := rfl
  have hends : emitter.Ends (.ok { steps := 8, stop := .finished })
      { buffer := { output := "\x02\x01" } } := ⟨8, _, rfl, by decide +kernel⟩
  obtain ⟨cost, heval, hcost⟩ := ((run_agrees_with_eval hw hload).1 _ _).mp hends
  obtain rfl : 8 = cost := hcost
  exact ⟨hw, hload, heval⟩

end Machine

/-! ### Whole executions -/

section

variable {source input : String} {config : Config} {m : Machine Buffer}

/-- What an execution shows of a run of the loaded source. -/
theorem execute_eq_ok_iff (hload : Machine.ofSource source config (Buffer.ofText input) = .ok m)
    {output : String} {steps : Nat} {stop : StopReason} :
    execute source input config = .ok { output, steps, stop } ↔
      ∃ σ, m.EndsWithin unlimited (.ok { steps, stop }) σ ∧ σ.buffer.output = output := by
  obtain ⟨result, m', hrun⟩ : ∃ result m', m.run unlimited = (result, m') := ⟨_, _, rfl⟩
  simp only [execute, hload, hrun, Machine.EndsWithin]
  constructor
  · intro h
    cases result with
    | error fault => cases h
    | ok summary =>
      cases h
      exact ⟨_, ⟨_, rfl, rfl⟩, rfl⟩
  · rintro ⟨σ, ⟨m'', ⟨rfl, rfl⟩, rfl⟩, rfl⟩
    rfl

theorem execute_eq_fault_iff
    (hload : Machine.ofSource source config (Buffer.ofText input) = .ok m) {fault : Fault} :
    execute source input config = .error (.fault fault) ↔
      ∃ σ, m.EndsWithin unlimited (.error fault) σ := by
  obtain ⟨result, m', hrun⟩ : ∃ result m', m.run unlimited = (result, m') := ⟨_, _, rfl⟩
  simp only [execute, hload, hrun, Machine.EndsWithin]
  constructor
  · intro h
    cases result with
    | error fault =>
      cases h
      exact ⟨_, _, rfl, rfl⟩
    | ok summary => cases h
  · rintro ⟨σ, m'', ⟨rfl, rfl⟩, rfl⟩
    rfl

/-- **Executions agree with evaluation.** Execute a source that can be loaded on the bytes of a
text. It finishes, waits for a value or fails exactly as the evaluation of its instruction tree ends
from the store with these bytes, with the same output and number of steps, as long as these are not
more than a word of 64 bits can count. Otherwise it stops at this limit. -/
theorem execute_agrees_with_eval
    (hload : Machine.ofSource source config (Buffer.ofText input) = .ok m) :
    let eval := Eval config.cellWidth m.program.code { buffer := .ofText input }
    (∀ output steps, execute source input config = .ok { output, steps, stop := .finished } ↔
        ∃ cost σ, eval cost .normal σ ∧ σ.buffer.output = output ∧ steps = m.program.steps cost ∧
          steps ≤ unlimited) ∧
      (∀ output steps, execute source input config = .ok { output, steps, stop := .inputPending } ↔
        ∃ σ, eval steps .pending σ ∧ σ.buffer.output = output ∧ steps < unlimited) ∧
      ((∃ pc pointer delta,
          execute source input config = .error (.fault (.pointerUnderflow pc pointer delta))) ↔
        ∃ cost σ, eval cost .underflow σ ∧ cost < unlimited) ∧
      (∀ value, (∃ pc width,
          execute source input config = .error (.fault (.invalidInputValue pc value width))) ↔
        ∃ cost σ, eval cost (.invalid value) σ ∧ cost < unlimited) ∧
      ((∃ output, execute source input config =
          .ok { output, steps := unlimited, stop := .stepLimit }) ↔
        ∀ cost ending σ, eval cost ending σ → unlimited < ending.need (m.program.steps cost)) := by
  have h := Machine.loaded_of_ofSource hload
  have hspells := h.wellFormed.spells_code
  simp only [execute_eq_ok_iff hload, execute_eq_fault_iff hload]
  obtain ⟨-, p, -, rfl⟩ := Machine.ofSource_eq_ok_iff.mp hload
  refine ⟨fun output steps => ⟨?_, ?_⟩, fun output steps => ⟨?_, ?_⟩, ⟨?_, ?_⟩,
    fun value => ⟨?_, ?_⟩, ?_⟩
  · rintro ⟨σ, hends, houtput⟩
    obtain ⟨cost, heval, hsteps⟩ := (h.endsWithin_finished_iff hspells).mp hends
    exact ⟨cost, σ, heval, houtput, hsteps⟩
  · rintro ⟨cost, σ, heval, houtput, hsteps⟩
    exact ⟨σ, (h.endsWithin_finished_iff hspells).mpr ⟨cost, heval, hsteps⟩, houtput⟩
  · rintro ⟨σ, hends, houtput⟩
    obtain ⟨heval, hlt⟩ := (h.endsWithin_inputPending_iff hspells).mp hends
    exact ⟨σ, heval, houtput, hlt⟩
  · rintro ⟨σ, heval, houtput, hlt⟩
    exact ⟨σ, (h.endsWithin_inputPending_iff hspells).mpr ⟨heval, hlt⟩, houtput⟩
  · rintro ⟨pc, pointer, delta, σ, hends⟩
    obtain ⟨cost, heval⟩ :=
      (h.endsWithin_pointerUnderflow_iff hspells).mp ⟨pc, pointer, delta, hends⟩
    exact ⟨cost, σ, heval⟩
  · rintro ⟨cost, σ, heval⟩
    obtain ⟨pc, pointer, delta, hends⟩ :=
      (h.endsWithin_pointerUnderflow_iff hspells).mpr ⟨cost, heval⟩
    exact ⟨pc, pointer, delta, σ, hends⟩
  · rintro ⟨pc, width, σ, hends⟩
    obtain ⟨cost, heval⟩ := (h.endsWithin_invalidInputValue_iff hspells).mp ⟨pc, width, hends⟩
    exact ⟨cost, σ, heval⟩
  · rintro ⟨cost, σ, heval⟩
    obtain ⟨pc, width, hends⟩ := (h.endsWithin_invalidInputValue_iff hspells).mpr ⟨cost, heval⟩
    exact ⟨pc, width, σ, hends⟩
  · refine Iff.trans ⟨?_, fun hlimit => ?_⟩ (h.run_stepLimit_iff hspells)
    · rintro ⟨output, σ, ⟨m', hrun, -⟩, -⟩
      rw [hrun]
    · exact ⟨_, _, ⟨_, Prod.ext hlimit rfl, rfl⟩, rfl⟩

-- the output is the value that was read, and the last step waits for another one
example : (execute ",.," "A" .standard).toOption =
    some { output := "A", steps := 2, stop := .inputPending } := by
  decide +kernel

end

end ReversibleTape
