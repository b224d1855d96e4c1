import ReversibleTape.Machine.Run

/-!
# Runs as sequences of steps

A machine starts from a program that was put into it (`Machine.install_eq_ok_iff`), which may be
the program of a source (`Machine.ofSource_eq_ok_iff`).

`Machine.Advances n m m'` says that `n` executed steps lead from `m` to `m'`. Steps are a
function, so such a sequence is a beginning of every longer one (`Machine.Advances.rest`), and a
run with a budget follows it as far as the budget goes (`Machine.Advances.runFrom_eq`,
`Machine.Advances.runFrom_limit`). A run that is not stopped by its budget comes to a step that
is not executed (`Machine.stopsWithin_of_runFrom`).
-/

namespace ReversibleTape

/-! ### Loading -/

namespace Program

variable {p : Program} {source : String} {optimize : Bool}

/-- A source that is not refused has matching brackets. -/
theorem unmatched?_of_ofSource (h : ofSource source optimize = .ok p) :
    Lexeme.unmatched? (Lexeme.scan source) = none := by
  unfold ofSource at h
  simp only at h
  split at h
  · cases h
  · assumption

theorem wellFormed_of_ofSource (h : ofSource source optimize = .ok p) : p.WellFormed := by
  have hmatch := unmatched?_of_ofSource h
  simp only [ofSource, hmatch] at h
  split at h
  · cases h
  · rename_i htokens
    cases h
    exact (ofTokens_eq_ok_iff.mp htokens).2

end Program

namespace Machine

variable {δ : Type}

/-- A program is put into a machine exactly if it is well formed, and then starts afresh. -/
theorem install_eq_ok_iff {m₀ m : Machine δ} {p : Program} :
    m₀.install p = (.ok (), m) ↔
      p.WellFormed ∧ m = { m₀ with program := p, state := .fresh p.size } := by
  unfold install Program.WellFormed
  cases hvalid : p.validate with
  | error e => simp
  | ok u => simp [reset, eq_comm]

variable {m : Machine δ} {source : String} {config : Config} {device : δ}

/-- The program of a source is put into a machine as any other program. -/
theorem load_of_ofSource {p : Program}
    (h : Program.ofSource source m.config.optimize = .ok p) :
    m.load source = (.ok (), { m with program := p, state := .fresh p.size }) := by
  rw [load, h]
  exact install_eq_ok_iff.mpr ⟨Program.wellFormed_of_ofSource h, rfl⟩

/-- A source is loaded exactly if the cells have a value and the program exists. -/
theorem ofSource_eq_ok_iff : ofSource source config device = .ok m ↔
    0 < config.cellWidth ∧ ∃ p, Program.ofSource source config.optimize = .ok p ∧
      m = { program := p, config, state := .fresh p.size, device } := by
  have hwidth : config.validate = .ok () ↔ 0 < config.cellWidth := by
    rw [Config.validate_eq_ok_iff, UInt32.lt_iff_toNat_lt]
    rfl
  rw [← hwidth]
  cases hvalid : config.validate with
  | error e => simp [ofSource, ofConfig, hvalid]
  | ok u =>
    cases hp : Program.ofSource source config.optimize with
    | error e => simp [ofSource, ofConfig, hvalid, load, hp]
    | ok p =>
      let blank : Machine δ :=
        { program := .empty, config, state := .fresh Program.empty.size, device }
      have hload : blank.load source = _ := load_of_ofSource hp
      simp [ofSource, ofConfig, hvalid, blank, hload, eq_comm]

/-! ### Sequences of steps -/

variable [Device δ] {m' m'' : Machine δ} {n k budget : Nat}

/-- A number of executed steps leads from one machine to another. -/
inductive Advances : Nat → Machine δ → Machine δ → Prop
  | refl (m : Machine δ) : Advances 0 m m
  | head {n : Nat} {m m' m'' : Machine δ} (step : m.stepForward = (.ok .executed, m'))
      (rest : Advances n m' m'') : Advances (n + 1) m m''

/-- The machine comes to a step that is not executed within a number of steps. -/
def StopsWithin (budget : Nat) (m : Machine δ) : Prop :=
  ∃ n ≤ budget, ∃ m', Advances n m m' ∧ m'.stepForward.1 ≠ .ok .executed

namespace Advances

theorem single (h : m.stepForward = (.ok .executed, m')) : Advances 1 m m' := .head h (.refl m')

theorem trans (h : Advances n m m') (h' : Advances k m' m'') : Advances (n + k) m m'' := by
  induction h with
  | refl m => rwa [Nat.zero_add]
  | head step rest ih =>
    rw [Nat.add_right_comm]
    exact .head step (ih h')

/-- Steps made are the beginning of all longer sequences of steps. -/
theorem rest (h : Advances n m m') (h' : Advances (n + k) m m'') : Advances k m' m'' := by
  induction h with
  | refl m => rwa [Nat.zero_add] at h'
  | head step rest ih =>
    rw [Nat.add_right_comm] at h'
    cases h' with
    | head step' rest' =>
      rw [step] at step'
      cases step'
      exact ih rest'

theorem split (h : Advances (n + k) m m'') : ∃ m', Advances n m m' ∧ Advances k m' m'' := by
  induction n generalizing m with
  | zero => exact ⟨m, .refl m, by rwa [Nat.zero_add] at h⟩
  | succ n ih =>
    rw [Nat.add_right_comm] at h
    cases h with
    | head step rest =>
      obtain ⟨m', hfirst, hsecond⟩ := ih rest
      exact ⟨m', .head step hfirst, hsecond⟩

/-- Steps that are made are made before the machine stops, which it still does behind them. -/
theorem stopsWithin (h : Advances n m m') (hstop : StopsWithin budget m) :
    n ≤ budget ∧ StopsWithin (budget - n) m' := by
  obtain ⟨k, hk, last, hlast, hnot⟩ := hstop
  rcases Nat.lt_or_ge k n with hlt | hge
  · -- behind `k` steps no further step is executed, so there cannot be more of them
    obtain ⟨j, rfl⟩ : ∃ j, n = k + (j + 1) := ⟨n - k - 1, by omega⟩
    have hmore := hlast.rest h
    cases hmore with
    | head step _ => exact absurd (by rw [step]) hnot
  · obtain ⟨j, rfl⟩ := Nat.exists_eq_add_of_le hge
    exact ⟨by omega, j, by omega, last, h.rest hlast, hnot⟩

end Advances

/-! ### Runs with a budget -/

/-- At the end there is no instruction left. -/
theorem stepForward_of_atEnd (h : m.atEnd = true) : m.stepForward.1 = .ok .halted := by
  obtain ⟨program, config, state, device⟩ := m
  have hkind : program.kindAt state.pc = .finish := by simpa [atEnd, currentKind] using h
  have hnext : program.next? state.pc = some state.pc := by rw [Program.next?, hkind]
  have hforward : ∀ answer, state.forward program config.cellWidth answer = (.halted, state) :=
    fun answer => by
      rw [Program.kindAt] at hkind
      simp [State.forward, hnext, State.perform, hkind]
  simp [stepForward, hforward]

theorem atEnd_eq_false (h : m.stepForward.1 ≠ .ok .halted) : m.atEnd = false :=
  Bool.eq_false_iff.mpr fun hend => h (stepForward_of_atEnd hend)

/-- Before the last of the steps that a machine makes, it is not at the end. -/
theorem Advances.exists_before (h : Advances n m m') (hlt : budget < n) :
    ∃ m₁, Advances budget m m₁ ∧ m₁.atEnd = false := by
  obtain ⟨k, rfl⟩ : ∃ k, n = budget + (k + 1) := ⟨n - budget - 1, by omega⟩
  obtain ⟨m₁, hfirst, hrest⟩ := h.split
  cases hrest with
  | head step rest => exact ⟨m₁, hfirst, atEnd_eq_false (by simp [step])⟩

/-- A run follows the steps that the machine makes. -/
theorem Advances.runFrom_eq (h : Advances n m m') (steps budget : Nat) :
    m.runFrom steps (n + budget) = m'.runFrom (steps + n) budget := by
  induction h generalizing steps with
  | refl m => rw [Nat.zero_add, Nat.add_zero]
  | @head n m m' m'' step rest ih =>
    have hend : m.atEnd = false := atEnd_eq_false (by simp [step])
    rw [Nat.add_right_comm, runFrom, hend, step]
    simp only [Bool.false_eq_true, if_false]
    rw [ih, Nat.add_assoc, Nat.add_comm 1 n]

/-- A run whose budget ends before the program does stops at the budget. -/
theorem Advances.runFrom_limit (h : Advances n m m') (hend : m'.atEnd = false) (steps : Nat) :
    m.runFrom steps n = (.ok { steps := steps + n, stop := .stepLimit }, m') := by
  rw [← Nat.add_zero n, h.runFrom_eq, runFrom, hend]
  rfl

/-- A run stops at its budget, or because a step is not executed. -/
theorem stopsWithin_of_runFrom (m : Machine δ) (steps budget : Nat) :
    StopsWithin budget m ∨
      ∃ m', m.runFrom steps budget = (.ok { steps := steps + budget, stop := .stepLimit }, m') := by
  induction budget generalizing m steps with
  | zero =>
    cases hend : m.atEnd with
    | true =>
      exact .inl ⟨0, Nat.le_refl 0, m, .refl m, by simp [stepForward_of_atEnd hend]⟩
    | false => exact .inr ⟨m, (Advances.refl m).runFrom_limit hend steps⟩
  | succ budget ih =>
    by_cases hstep : m.stepForward.1 = .ok .executed
    · have hadvance : Advances 1 m m.stepForward.2 := .single (Prod.ext hstep rfl)
      rcases ih m.stepForward.2 (steps + 1) with ⟨n, hn, last, hlast, hnot⟩ | ⟨m', hrun⟩
      · exact .inl ⟨1 + n, by omega, last, hadvance.trans hlast, hnot⟩
      · refine .inr ⟨m', ?_⟩
        rw [Nat.add_comm budget, hadvance.runFrom_eq, hrun, Nat.add_assoc]
    · exact .inl ⟨0, Nat.zero_le _, m, .refl m, hstep⟩

end Machine

end ReversibleTape
