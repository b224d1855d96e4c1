import ReversibleTape.Proofs.Outcomes
import ReversibleTape.Proofs.Rewinding

/-!
# Schedules

A program that reads can be fed all values in advance, or one by one whenever it waits; it can run
for as long as it gets, or step by step. A *schedule* is any such sequence of turns on a machine
with a buffer. `Machine.schedules_agree` shows that **the schedule does not matter**: schedules that
feed the same values and execute the same number of steps end in the same machine, and all that end
where nothing can be executed any more execute the same number of steps.

The reason is that a schedule only ever makes steps that the machine would also make with all values
in its queue from the start (`Machine.advances_of_turn` for one turn, and
`Machine.advances_of_followFrom` for all of them). An executed step takes no more than the first
value of the queue, so it is executed as well if others are queued behind it
(`Machine.stepForward_queue`), and a step that waits leaves nothing behind
(`Machine.Idle.stepForward_eq`).
-/

namespace ReversibleTape

/-- A buffer without values is as before when it is read from. -/
theorem Buffer.read_eq_self {b : Buffer} (h : b.read.1 = none) : b.read.2 = b := by
  rw [read] at *
  split at h
  · rfl
  · cases h

namespace Machine

variable {m m' : Machine Buffer} {n steps : Nat}

/-! ### Values in the queue -/

/-- The machine with more values queued. -/
def queue (m : Machine Buffer) (values : List Int) : Machine Buffer :=
  { m with device := { m.device with inputs := m.device.inputs ++ values } }

@[simp] theorem queue_nil (m : Machine Buffer) : m.queue [] = m := by simp [queue]

theorem queue_queue (m : Machine Buffer) (values later : List Int) :
    (m.queue values).queue later = m.queue (values ++ later) := by
  simp [queue]

/-- What a step reads is at the front of the queue. -/
theorem exists_inputs_eq (m : Machine Buffer) :
    ∃ rest, m.device.inputs = m.exchange.read.toList ++ rest := by
  simp only [exchange, consult]
  split
  · show ∃ rest, m.device.inputs = m.device.read.1.toList ++ rest
    rw [Buffer.read]
    cases m.device.inputs with
    | nil => exact ⟨[], rfl⟩
    | cons value inputs => exact ⟨inputs, rfl⟩
  · exact ⟨_, rfl⟩

/-- A step that is executed is executed as well if more values are queued. -/
theorem stepForward_queue (h : m.stepForward = (.ok .executed, m')) (values : List Int) :
    (m.queue values).stepForward = (.ok .executed, m'.queue values) := by
  obtain ⟨hasked, hmoved⟩ := exchange_of_executed (m := m) (by rw [h])
  obtain ⟨rest, hrest⟩ := m.exists_inputs_eq
  have hstep : ∀ values, (m.queue values).stepForward = (.ok .executed,
      m.onBuffer m.stepForward.2.state
        { inputs := rest ++ values,
          output := m.device.output ++ String.ofList m.exchange.emitted.toList }) := by
    intro values
    rw [← stepForward_of_exchange hasked hmoved, ← List.append_assoc, ← hrest]
    rfl
  have hnone := hstep []
  rw [queue_nil, h, List.append_nil] at hnone
  rw [hstep, h, (Prod.mk.inj hnone).2]
  rfl

/-- So are any number of steps. -/
theorem Advances.queue (h : Advances n m m') (values : List Int) :
    Advances n (m.queue values) (m'.queue values) := by
  induction h with
  | refl m => exact .refl _
  | head step rest ih => exact .head (stepForward_queue step values) ih

/-! ### Idle machines -/

/-- The next step waits for a value, or there is none because the execution is at the end. -/
def Idle (m : Machine Buffer) : Prop :=
  m.stepForward.1 = .ok .inputPending ∨ m.stepForward.1 = .ok .halted

theorem idle_of_atEnd (h : m.atEnd = true) : m.Idle := .inr (stepForward_of_atEnd h)

/-- A machine that is not idle executes its next step, or that fails. -/
theorem idle_or (m : Machine Buffer) :
    m.Idle ∨ (∃ m', m.stepForward = (.ok .executed, m')) ∨
      ∃ fault m', m.stepForward = (.error fault, m') := by
  rcases hstep : m.stepForward with ⟨⟨fault⟩ | ⟨_ | _ | _⟩, m'⟩
  · exact .inr (.inr ⟨fault, m', rfl⟩)
  · exact .inr (.inl ⟨m', rfl⟩)
  · exact .inl (.inl (by rw [hstep]))
  · exact .inl (.inr (by rw [hstep]))

/-- No step is executed from an idle machine, whatever number of them led there. -/
theorem Idle.le_of_advances {first last : Machine Buffer} {k : Nat} (hidle : last.Idle)
    (h : Advances n m last) (h' : Advances k m first) : k ≤ n := by
  refine (h'.stopsWithin ⟨n, Nat.le_refl n, last, h, ?_⟩).1
  rcases hidle with hpending | hhalted
  · simp [hpending]
  · simp [hhalted]

/-- A step that waits took nothing from the queue, because there was nothing in it. -/
theorem Idle.consult_eq (h : m.Idle) :
    (consult (m.program.readsAt m.state.pc) m.device).2 = m.device := by
  cases hreads : m.program.readsAt m.state.pc with
  | false => rfl
  | true =>
    obtain ⟨i, hnext, hkind⟩ : ∃ i, m.program.next? m.state.pc = some i ∧
        m.program.kindAt i = .input := by
      rw [Program.readsAt] at hreads
      split at hreads
      · exact ⟨_, ‹_›, by simpa using hreads⟩
      · cases hreads
    have hlinked : m.program.kindAt i = .loopOpen → (m.program.tokenAt i).partner ≠ none := by
      simp [hkind]
    obtain ⟨answer, hanswer, hstep⟩ := stepForward_fst_of_next? hnext
    rw [Idle, hstep, Outcome.answer_eq_inputPending_iff, Outcome.answer_eq_halted_iff,
      (State.perform_fst_iff hlinked).1, (State.perform_fst_iff hlinked).2.1] at h
    have hnone : answer = none := by simpa [hkind] using h
    exact Buffer.read_eq_self ((hanswer hkind).symm.trans hnone)

/-- A step from an idle machine leaves no trace. -/
theorem Idle.stepForward_eq (h : m.Idle) : m.stepForward.2 = m := by
  have hsame : m.stepForward.2 =
      { m with device := (consult (m.program.readsAt m.state.pc) m.device).2 } := by
    obtain ⟨program, config, state, device⟩ := m
    simp only [Idle, stepForward] at h ⊢
    split at h
    · simp at h
    all_goals
      rename_i state' hforward
      rw [State.forward_eq_self hforward (by simp)]
  rw [hsame, h.consult_eq]

/-! ### Turns -/

/-- One turn of a schedule. -/
inductive Turn
  /-- A value is queued. -/
  | feed (value : Int)
  /-- One step forward. -/
  | step
  /-- Steps forward, up to a number. -/
  | run (budget : Nat)

/-- The values that a turn queues. -/
def Turn.fed : Turn → List Int
  | .feed value => [value]
  | .step | .run _ => []

/-- The values that a schedule queues. -/
def fed (turns : List Turn) : List Int := turns.flatMap Turn.fed

/-- The number of executed steps of a run, whatever it stopped for. -/
def tally (result : Except Fault RunSummary × Machine Buffer) : Except Fault Nat × Machine Buffer :=
  (result.1.map RunSummary.steps, result.2)

/-- Takes a turn, and answers with the number of executed steps. -/
def turn (m : Machine Buffer) : Turn → Except Fault Nat × Machine Buffer
  | .feed value => (.ok 0, { m with device := m.device.feed value })
  | .step =>
    match m.stepForward with
    | (.ok .executed, m) => (.ok 1, m)
    | (.ok _, m) => (.ok 0, m)
    | (.error fault, m) => (.error fault, m)
  | .run budget => tally (m.run budget)

/-- Follows a schedule up to its first fault, after `steps` that were executed already. -/
def followFrom (steps : Nat) : List Turn → Machine Buffer → Except Fault Nat × Machine Buffer
  | [], m => (.ok steps, m)
  | t :: turns, m =>
    match m.turn t with
    | (.ok n, m) => followFrom (steps + n) turns m
    | (.error fault, m) => (.error fault, m)

/-- Follows a schedule, and answers with the number of executed steps. -/
def follow (m : Machine Buffer) (turns : List Turn) : Except Fault Nat × Machine Buffer :=
  followFrom 0 turns m

/-- A schedule may be followed in two parts. -/
theorem followFrom_append (steps : Nat) (before later : List Turn) (m : Machine Buffer) :
    followFrom steps (before ++ later) m =
      match followFrom steps before m with
      | (.ok n, m) => followFrom n later m
      | (.error fault, m) => (.error fault, m) := by
  induction before generalizing steps m with
  | nil => rfl
  | cons t before ih =>
    rw [List.cons_append, followFrom, followFrom]
    split
    · rw [ih]
    · rfl

/-! ### Runs -/

theorem tally_runFrom_zero (m : Machine Buffer) (steps : Nat) :
    tally (m.runFrom steps 0) = (.ok steps, m) := by
  rw [runFrom]
  split <;> rfl

/-- An idle machine runs on the spot. -/
theorem Idle.tally_runFrom (h : m.Idle) (steps budget : Nat) :
    tally (m.runFrom steps budget) = (.ok steps, m) := by
  have hsame := h.stepForward_eq
  cases budget with
  | zero => exact m.tally_runFrom_zero steps
  | succ budget =>
    rw [runFrom]
    split
    · rfl
    · rcases h with h | h
      all_goals
        rw [show m.stepForward = (_, m) from Prod.ext h hsame]
        rfl

/-- Nothing but a value to read makes a difference to an idle machine. -/
theorem Idle.turn_eq (h : m.Idle) {t : Turn} (ht : t.fed = []) : m.turn t = (.ok 0, m) := by
  have hsame := h.stepForward_eq
  cases t with
  | feed value => cases ht
  | step =>
    rcases h with h | h
    all_goals
      rw [turn, show m.stepForward = (_, m) from Prod.ext h hsame]
  | run budget => exact h.tally_runFrom 0 budget

/-- A run whose next step fails ends there. -/
theorem runFrom_of_error {fault : Fault} (h : m.stepForward = (.error fault, m'))
    (steps budget : Nat) : m.runFrom steps (budget + 1) = (.error fault, m') := by
  have hend : m.atEnd = false := atEnd_eq_false (by simp [h])
  simp [runFrom, hend, h]

/-- **A run** executes steps up to its budget or to where the machine is idle, or it comes to a fault,
and then a run with a larger budget does so too. -/
theorem run_cases (m : Machine Buffer) (budget : Nat) :
    (∃ k last, Advances k m last ∧ k ≤ budget ∧ (k = budget ∨ last.Idle) ∧
      ∀ steps, tally (m.runFrom steps budget) = (.ok (steps + k), last)) ∨
    ∃ fault last, ∀ steps rest, m.runFrom steps (budget + rest) = (.error fault, last) := by
  induction budget generalizing m with
  | zero => exact .inl ⟨0, m, .refl m, Nat.le_refl 0, .inl rfl, m.tally_runFrom_zero⟩
  | succ budget ih =>
    rcases m.idle_or with hidle | ⟨next, hstep⟩ | ⟨fault, next, hstep⟩
    · exact .inl ⟨0, m, .refl m, Nat.zero_le _, .inr hidle, fun steps =>
        hidle.tally_runFrom steps (budget + 1)⟩
    · have hrun := (Advances.single hstep).runFrom_eq
      rcases ih next with ⟨k, last, hadvances, hle, hstop, htally⟩ | ⟨fault, last, hfault⟩
      · refine .inl ⟨k + 1, last, .head hstep hadvances, by omega, ?_, fun steps => ?_⟩
        · exact hstop.imp_left (congrArg (· + 1))
        · rw [Nat.add_comm budget, hrun, htally, Nat.add_assoc, Nat.add_comm 1]
      · refine .inr ⟨fault, last, fun steps rest => ?_⟩
        rw [Nat.add_comm budget, Nat.add_assoc, hrun, hfault]
    · refine .inr ⟨fault, next, fun steps rest => ?_⟩
      rw [Nat.add_right_comm]
      exact runFrom_of_error hstep steps _

/-- A run may be made in two parts. -/
theorem followFrom_run_add (steps a b : Nat) (later : List Turn) (m : Machine Buffer) :
    followFrom steps (.run (a + b) :: later) m =
      followFrom steps (.run a :: .run b :: later) m := by
  simp only [followFrom, turn, run]
  rcases m.run_cases a with ⟨k, last, hadvances, hle, rfl | hidle, htally⟩ | ⟨fault, last, hfault⟩
  · rw [hadvances.runFrom_eq, htally]
    rcases last.run_cases b with ⟨j, stop, -, -, -, htally'⟩ | ⟨fault, stop, hfault⟩
    · simp only [htally', Nat.zero_add, Nat.add_assoc]
    · rw [← Nat.add_zero b]
      simp only [hfault]
      rfl
  · -- the second part begins where the machine is idle, as it is in the middle of the whole run
    obtain ⟨rest, rfl⟩ := Nat.exists_eq_add_of_le hle
    rw [Nat.add_assoc, hadvances.runFrom_eq, htally]
    simp only [hidle.tally_runFrom, Nat.zero_add, Nat.add_zero]
  · have hfault' := hfault 0 0
    rw [Nat.add_zero] at hfault'
    rw [hfault, hfault']
    rfl

/-! ### Schedules -/

/-- **One turn** makes steps that the machine also makes with all values in its queue. -/
theorem advances_of_turn {t : Turn} (h : m.turn t = (.ok n, m')) (later : List Int) :
    Advances n (m.queue (t.fed ++ later)) (m'.queue later) := by
  cases t with
  | feed value =>
    cases h
    rw [← queue_queue]
    exact .refl _
  | step =>
    rcases m.idle_or with hidle | ⟨next, hstep⟩ | ⟨fault, next, hstep⟩
    · rw [hidle.turn_eq rfl] at h
      cases h
      exact .refl _
    all_goals
      rw [turn, hstep] at h
      cases h
    exact .single (stepForward_queue hstep later)
  | run budget =>
    rw [turn, run] at h
    rcases m.run_cases budget with ⟨k, last, hadvances, -, -, htally⟩ | ⟨fault, last, hfault⟩
    · rw [htally, Nat.zero_add] at h
      cases h
      exact hadvances.queue later
    · rw [← Nat.add_zero budget, hfault] at h
      cases h

/-- **A schedule** makes steps that the machine also makes with all values in its queue. -/
theorem advances_of_followFrom {turns : List Turn} (h : followFrom steps turns m = (.ok n, m')) :
    ∃ k, n = steps + k ∧ Advances k (m.queue (fed turns)) m' := by
  induction turns generalizing m steps with
  | nil =>
    cases h
    exact ⟨0, rfl, by simpa [fed] using .refl _⟩
  | cons t turns ih =>
    rw [followFrom] at h
    split at h
    · rename_i k next hturn
      obtain ⟨k', rfl, hadvances⟩ := ih h
      refine ⟨k + k', by omega, ?_⟩
      exact (advances_of_turn hturn (fed turns)).trans hadvances
    · cases h

/-- A schedule that feeds values is about the machine with the values queued. -/
theorem followFrom_feed (steps : Nat) (values : List Int) (turns : List Turn)
    (m : Machine Buffer) :
    followFrom steps (values.map .feed ++ turns) m = followFrom steps turns (m.queue values) := by
  induction values generalizing m with
  | nil => rw [queue_nil, List.map_nil, List.nil_append]
  | cons value values ih =>
    rw [← List.singleton_append, ← queue_queue]
    exact ih (m.queue [value])

/-- **The schedule does not matter.** Follow any two schedules that feed the same values, without a
fault. If they execute the same number of steps, they end in the same machine; and if both end idle,
they execute the same number of steps. So all values may as well be fed first, a run may be made in
two parts, and a step that waits may be tried again, without any difference. -/
theorem schedules_agree {m m₁ m₂ : Machine Buffer} {first second : List Turn} {n₁ n₂ : Nat}
    (hfirst : m.follow first = (.ok n₁, m₁)) (hsecond : m.follow second = (.ok n₂, m₂))
    (hfed : fed first = fed second) :
    (n₁ = n₂ → m₁ = m₂) ∧
      (m₁.Idle → m₂.Idle → n₁ = n₂ ∧ m₁ = m₂) ∧
      m.follow ((fed first).map .feed ++ [.run n₁]) = (.ok n₁, m₁) ∧
      (∀ before later a b, m.follow (before ++ .run (a + b) :: later) =
        m.follow (before ++ .run a :: .run b :: later)) ∧
      ∀ before later n now t, m.follow before = (.ok n, now) → now.Idle → t.fed = [] →
        m.follow (before ++ t :: later) = m.follow (before ++ later) := by
  obtain ⟨k₁, hk₁, hadvances₁⟩ := advances_of_followFrom hfirst
  obtain ⟨k₂, hk₂, hadvances₂⟩ := advances_of_followFrom hsecond
  rw [Nat.zero_add] at hk₁ hk₂
  subst hk₁ hk₂
  rw [← hfed] at hadvances₂
  have hsame : n₁ = n₂ → m₁ = m₂ := by
    rintro rfl
    cases Advances.rest (k := 0) hadvances₁ hadvances₂
    rfl
  refine ⟨hsame, ?_, ?_, ?_, ?_⟩
  · intro hidle₁ hidle₂
    have heq : n₁ = n₂ := Nat.le_antisymm (hidle₂.le_of_advances hadvances₂ hadvances₁)
      (hidle₁.le_of_advances hadvances₁ hadvances₂)
    exact ⟨heq, hsame heq⟩
  · rw [follow, followFrom_feed, followFrom, turn, hadvances₁.run_eq]
    simp only [tally, Except.map, followFrom, Nat.zero_add]
  · intro before later a b
    simp only [follow, followFrom_append, followFrom_run_add]
  · intro before later n now t hbefore hidle ht
    rw [follow] at hbefore
    simp only [follow, followFrom_append, hbefore]
    rw [followFrom, hidle.turn_eq ht]
    rfl

/-- A machine that emits what it reads, up to a zero. -/
def echo : Machine Buffer where
  program := { tokens := #[.start, { kind := .input }, { kind := .loopOpen, partner := some 5 },
    { kind := .output }, { kind := .input }, { kind := .loopClose, partner := some 2 }, .finish] }
  config := {}
  state := .fresh 7
  device := {}

theorem schedules_agree_echo :
    let first := [.feed 33, .feed 0, .run 9]
    let second := [.step, .feed 33, .run 9, .step, .feed 0, .step, .run 9]
    let last := (echo.follow first).2
    last.device.output = "!" ∧ last.Idle ∧
      echo.follow first = (.ok 5, last) ∧ echo.follow second = (.ok 5, last) := by
  intro first second last
  have hfirst : echo.follow first = (.ok 5, last) := rfl
  have hsecond : echo.follow second = (.ok 5, (echo.follow second).2) := rfl
  have hidle : last.Idle := idle_of_atEnd (by decide +kernel)
  have hidle' : (echo.follow second).2.Idle := idle_of_atEnd (by decide +kernel)
  obtain ⟨-, hagree, -⟩ := schedules_agree hfirst hsecond rfl
  refine ⟨by decide +kernel, hidle, hfirst, ?_⟩
  rw [(hagree hidle hidle').2]
  exact hsecond

end Machine

end ReversibleTape
