import ReversibleTape.Proofs.Outcomes
import ReversibleTape.Proofs.Schedules

/-!
# Operations that fail

Whatever a machine is asked for, it does it or leaves everything as it was. A step that is not
executed touches neither the state nor the output, and of the input it takes only what it read: a
value that no cell can hold is gone, and nothing else is (`Machine.Untouched`). A program that is
refused is not put into the machine, and a run that fails stops where its executed steps have led.

**Nothing is assumed about the records** here. They may be such as no execution leaves behind, so
that steps back do run out of what is written down; all that is needed is a well-formed program and
an index inside it, which executed steps keep (`State.pc_le_of_forward`). Told in rounds, a step may
have been redirected before it fails, and goes back (`Machine.Atomic`).
-/

namespace ReversibleTape

namespace State

variable {p : Program} {width : UInt32} {answer : Option Int} {s s' : State}

/-- An instruction that cannot be undone leaves the state as it was. -/
theorem undo_eq_self {i : Nat} {fault : Fault} (h : s.undo p width i = (.error fault, s')) :
    s' = s := by
  rw [undo] at h
  cases hkind : (p.tokenAt i).kind with
  | start | add | output | loopClose | finish =>
    simp only [hkind] at h
    cases h
  | shift | input | zero =>
    simp only [hkind] at h
    split at h
    · cases h
      rfl
    · cases h
  | loopOpen =>
    simp only [hkind] at h
    split at h
    · cases h
      rfl
    · split at h
      · cases h
        rfl
      · cases h
      · cases h

/-- A step back that fails leaves the state as it was. -/
theorem backward_eq_self {fault : Fault} (h : s.backward p width = (.error fault, s')) :
    s' = s := by
  rw [backward] at h
  split at h
  · cases h
    rfl
  · split at h
    · cases h
      rfl
    · exact undo_eq_self h

/-- Steps stay inside a well-formed program, whatever is written down. -/
theorem pc_le_of_forward {emitted : Option Char} (hp : p.WellFormed) (hpc : s.pc ≤ p.endIndex)
    (h : s.forward p width answer = (.executed emitted, s')) : s'.pc ≤ p.endIndex := by
  obtain ⟨i, hnext, heffect⟩ := effect_of_forward h
  obtain ⟨j, hj, -, hle, -⟩ := hp.exists_next? hpc
  obtain rfl : j = i := Option.some.inj (hj.symm.trans hnext)
  -- an instruction is not the closing frame, so there is an index behind it
  have hinner : p.kindAt j ≠ .finish → j + 1 ≤ p.endIndex := fun hkind =>
    Nat.lt_of_le_of_ne hle fun heq => hkind (heq ▸ hp.kindAt_endIndex)
  cases heffect with
  | add hkind | shift hkind | output hkind | input hkind | zero hkind =>
    exact hinner (by simp [hkind])
  | head hkind hpartner =>
    obtain ⟨c, hlink, -⟩ := hp.link_of_head hkind
    obtain rfl := Option.some.inj (hlink.partner_head.symm.trans hpartner)
    have hbehind := hp.tail_lt_endIndex hlink
    simp only
    split
    · exact hinner (by simp [hkind])
    · exact hbehind
  | frame => exact hle

end State

namespace Machine

variable {δ : Type} [Device δ] {m m' : Machine δ}

/-! ### Steps -/

/-- What a step forward that is not executed leaves behind, by its answer. -/
inductive Untouched (m : Machine δ) : Except Fault Progress → Machine δ → Prop
  | halted : Untouched m (.ok .halted) m
  /-- The device was asked, and had no value. -/
  | waiting {device : δ} (read : Device.read m.device = (none, device)) :
      Untouched m (.ok .inputPending) { m with device }
  /-- The device was asked, and the value that it gave is refused. -/
  | refused {device : δ} {i : Nat} {value : Int}
      (read : Device.read m.device = (some value, device)) :
      Untouched m (.error (.invalidInputValue i value m.config.cellWidth)) { m with device }
  /-- Of all other faults the device does not hear. -/
  | failed {fault : Fault}
      (other : ∀ i value width, fault ≠ .invalidInputValue i value width) :
      Untouched m (.error fault) m

/-- A device is asked exactly if the next instruction reads. -/
theorem consult_eq {i : Nat} (hnext : m.program.next? m.state.pc = some i) :
    consult (m.program.readsAt m.state.pc) m.device =
      if m.program.kindAt i = .input then Device.read m.device else (none, m.device) := by
  simp [consult, Program.readsAt, hnext]

/-- A step forward that is not executed changes nothing but the device, if that is asked. -/
theorem stepForward_snd (h : m.stepForward.1 ≠ .ok .executed) :
    m.stepForward.2 =
      { m with device := (consult (m.program.readsAt m.state.pc) m.device).2 } := by
  obtain ⟨program, config, state, device⟩ := m
  simp only [stepForward] at h ⊢
  split at h
  · exact absurd rfl h
  all_goals
    rename_i state' hforward
    rw [State.forward_eq_self hforward (by simp)]

/-- **A step forward that is not executed** leaves the machine untouched. -/
theorem untouched_of_stepForward {answer : Except Fault Progress} (hp : m.program.WellFormed)
    (hpc : m.state.pc ≤ m.program.endIndex) (h : m.stepForward = (answer, m'))
    (hnot : answer ≠ .ok .executed) : m.Untouched answer m' := by
  obtain ⟨i, hnext, -⟩ := hp.exists_next? hpc
  have hlinked : m.program.kindAt i = .loopOpen → (m.program.tokenAt i).partner ≠ none := by
    intro hhead
    obtain ⟨c, hlink, -⟩ := hp.link_of_head hhead
    simp [hlink.partner_head]
  obtain ⟨reply, hreply, hstep⟩ := stepForward_fst_of_next? hnext
  rw [h] at hstep
  obtain ⟨hpending, hhalted, hfailed⟩ :=
    @State.perform_fst_iff m.program m.config.cellWidth reply m.state i hlinked
  have hafter := stepForward_snd (m := m) (by rwa [h])
  rw [h, consult_eq hnext] at hafter
  -- only an instruction that reads makes use of the device
  have hasked (hkind : m.program.kindAt i = .input) :
      m' = { m with device := (Device.read m.device).2 } := by
    rw [if_pos hkind] at hafter
    exact hafter
  have hunasked (hkind : m.program.kindAt i ≠ .input) : m' = m := by
    rw [if_neg hkind] at hafter
    exact hafter
  cases answer with
  | ok progress =>
    cases progress with
    | executed => exact absurd rfl hnot
    | inputPending =>
      obtain ⟨hkind, hnone⟩ := hpending.mp (Outcome.answer_eq_inputPending_iff.mp hstep.symm)
      rw [hasked hkind]
      exact .waiting (Prod.ext ((hreply hkind).symm.trans hnone) rfl)
    | halted =>
      obtain ⟨hkind, -⟩ := hhalted.mp (Outcome.answer_eq_halted_iff.mp hstep.symm)
      rw [hunasked fun hinput => by simp [hinput] at hkind]
      exact .halted
  | error fault =>
    rcases (hfailed fault).mp (Outcome.answer_eq_error_iff.mp hstep.symm) with
      ⟨value, hkind, hvalue, -, rfl⟩ | ⟨hkind, -, rfl⟩
    · rw [hasked hkind]
      exact .refused (Prod.ext ((hreply hkind).symm.trans hvalue) rfl)
    · rw [hunasked (by simp [hkind])]
      exact .failed (by simp)

/-- A step back that fails leaves the machine as it was. -/
theorem stepBackward_eq_self {δ : Type} {m m' : Machine δ} {answer : Except Fault Progress}
    (h : m.stepBackward = (answer, m')) (hnot : answer ≠ .ok .executed) : m' = m := by
  rw [stepBackward_eq] at h
  cases hback : m.state.backward m.program m.config.cellWidth with
  | mk result state =>
    rw [hback] at h
    cases result with
    | ok u =>
      cases h
      exact absurd rfl hnot
    | error fault =>
      cases h
      rw [State.backward_eq_self hback]

/-- **Steps do all or nothing.** -/
structure Atomic (m : Machine δ) : Prop where
  forward : ∀ {answer m'}, m.stepForward = (answer, m') → answer ≠ .ok .executed →
    m.Untouched answer m'
  back : ∀ {answer m'}, m.stepBackward = (answer, m') → answer ≠ .ok .executed → m' = m
  /-- Round by round, a step forward may be redirected, but comes to the same. -/
  rounds_forward : ∀ answer, m.state.forwardWithin m.program m.config.cellWidth answer 3 =
    some (m.state.forward m.program m.config.cellWidth answer)
  /-- So does a step back. -/
  rounds_back : m.state.backwardWithin m.program m.config.cellWidth 3 =
    some (m.state.backward m.program m.config.cellWidth)

theorem atomic_of_pc_le (hp : m.program.WellFormed) (hpc : m.state.pc ≤ m.program.endIndex) :
    m.Atomic where
  forward := untouched_of_stepForward hp hpc
  back := stepBackward_eq_self
  rounds_forward _ := State.forwardWithin_eq hp hpc
  rounds_back := State.backwardWithin_eq hp hpc

/-! ### Loads and runs -/

theorem install_eq_self {δ : Type} {m m' : Machine δ} {p : Program} {e : MachineError}
    (h : m.install p = (.error e, m')) : m' = m := by
  rw [install] at h
  split at h
  · cases h
    rfl
  · cases h

theorem load_eq_self {δ : Type} {m m' : Machine δ} {source : String} {e : MachineError}
    (h : m.load source = (.error e, m')) : m' = m := by
  rw [load] at h
  split at h
  · cases h
    rfl
  · exact install_eq_self h

/-- Executed steps stay in the program. -/
theorem Advances.pc_le {n : Nat} (h : Advances n m m') (hp : m.program.WellFormed)
    (hpc : m.state.pc ≤ m.program.endIndex) :
    m'.program = m.program ∧ m'.state.pc ≤ m.program.endIndex := by
  induction h with
  | refl m => exact ⟨rfl, hpc⟩
  | @head n m next last step rest ih =>
    have hcases := m.stepForward_cases
    simp only [step] at hcases
    obtain ⟨hprogram, -, ⟨-, answer, emitted, hforward⟩ | ⟨hnot, -⟩⟩ := hcases
    · rw [← hprogram] at hp hpc hforward ⊢
      exact ih hp (State.pc_le_of_forward hp hpc hforward)
    · exact absurd rfl hnot

/-- A run that fails does so at a step behind the executed ones. -/
theorem exists_of_runFrom_error {steps budget : Nat} {fault : Fault}
    (h : m.runFrom steps budget = (.error fault, m')) :
    ∃ n < budget, ∃ last, Advances n m last ∧ last.stepForward = (.error fault, m') := by
  induction budget generalizing m steps with
  | zero =>
    rw [runFrom] at h
    split at h <;> cases h
  | succ budget ih =>
    rw [runFrom] at h
    split at h
    · cases h
    · split at h
      · rename_i next hstep
        obtain ⟨n, hn, last, hadvances, hlast⟩ := ih h
        exact ⟨n + 1, by omega, last, .head hstep hadvances, hlast⟩
      · cases h
      · cases h
      · rename_i hstep
        cases h
        exact ⟨0, Nat.zero_lt_succ budget, m, .refl m, hstep⟩

/-! ### Buffers -/

/-- The values that a step with an answer read to no avail. -/
def wasted : Except Fault Progress → List Int
  | .error (.invalidInputValue _ value _) => [value]
  | _ => []

/-- A machine with values back at the front of its queue. -/
def unread (m : Machine Buffer) (values : List Int) : Machine Buffer :=
  { m with device := { m.device with inputs := values ++ m.device.inputs } }

/-- Only a refused value is missing from a machine that is left untouched. -/
theorem Untouched.unread_eq {b b' : Machine Buffer} {answer : Except Fault Progress}
    (h : b.Untouched answer b') : b'.unread (wasted answer) = b := by
  cases h with
  | halted => rfl
  | waiting read =>
    have hsame := Buffer.read_eq_self (b := b.device) (congrArg Prod.fst read)
    rw [show b.device.read = _ from read] at hsame
    obtain rfl := hsame
    rfl
  | refused read =>
    have hinputs : b.device.read = _ := read
    rw [Buffer.read] at hinputs
    split at hinputs
    · cases hinputs
    · rename_i value inputs hqueue
      cases hinputs
      simp only [unread, wasted]
      rw [List.singleton_append, ← hqueue]
  | @failed fault other =>
    cases fault with
    | invalidInputValue i value width => exact absurd rfl (other i value width)
    | pointerUnderflow | undoStackUnderflow | unlinkedLoop | reverseAtBeginning => rfl

/-- **Whatever fails leaves no trace.** On any machine with a well-formed program and an index
inside it, whatever its records say: a step that is not executed leaves the machine untouched, so
does a load that fails, and a run that fails has made the executed steps before the fault and
nothing else. With a queue of values, to be left untouched means that only a refused value is
missing. -/
theorem all_or_nothing (hp : m.program.WellFormed) (hpc : m.state.pc < m.program.size) :
    m.Atomic ∧
      (∀ source e m', m.load source = (.error e, m') → m' = m) ∧
      (∀ p e m', m.install p = (.error e, m') → m' = m) ∧
      (∀ budget fault m', m.run budget = (.error fault, m') →
        ∃ n < budget, ∃ last, Advances n m last ∧ last.Atomic ∧
          last.stepForward = (.error fault, m') ∧ last.Untouched (.error fault) m') ∧
      ∀ (b b' : Machine Buffer) (answer), b.Untouched answer b' →
        b'.unread (wasted answer) = b := by
  have hle : m.state.pc ≤ m.program.endIndex := Nat.le_sub_one_of_lt hpc
  refine ⟨atomic_of_pc_le hp hle, fun _ _ _ => load_eq_self, fun _ _ _ => install_eq_self, ?_,
    fun _ _ _ => Untouched.unread_eq⟩
  intro budget fault m' hrun
  obtain ⟨n, hn, last, hadvances, hstep⟩ := exists_of_runFrom_error hrun
  obtain ⟨hprogram, hlast⟩ := hadvances.pc_le hp hle
  rw [← hprogram] at hp hlast
  have hatomic := atomic_of_pc_le hp hlast
  exact ⟨n, hn, last, hadvances, hatomic, hstep, hatomic.forward hstep (by simp)⟩

/-- A machine that emits a cell and then reads, with a value too large in front of its queue. -/
def misfed : Machine Buffer where
  program := { tokens := #[.start, { kind := .output }, { kind := .input }, .finish] }
  config := {}
  state := .fresh 4
  device := { inputs := [300, 7] }

/-- The same machine at its end, though nothing is written down of how it came there. -/
def displaced : Machine Buffer := { misfed with state := { misfed.state with pc := 3 } }

theorem all_or_nothing_misfed :
    misfed.program.WellFormed ∧ misfed.state.pc < misfed.program.size ∧
      (misfed.run 9).1 = .error (.invalidInputValue 2 300 256) ∧
      (∃ n < 9, Advances n misfed ((misfed.run 9).2.unread [300])) ∧
      displaced.program.WellFormed ∧ displaced.state.pc < displaced.program.size ∧
      displaced.stepBackward = (.error (.undoStackUnderflow 2 .input), displaced) := by
  have hp : misfed.program.WellFormed := rfl
  have hpc : misfed.state.pc < misfed.program.size := by decide
  have hpc' : displaced.state.pc < displaced.program.size := by decide
  have hfault : (misfed.run 9).1 = .error (.invalidInputValue 2 300 256) := rfl
  have hback : displaced.stepBackward.1 = .error (.undoStackUnderflow 2 .input) := rfl
  obtain ⟨-, -, -, hrun, hbuffer⟩ := all_or_nothing hp hpc
  obtain ⟨n, hn, last, hadvances, -, -, huntouched⟩ := hrun 9 _ _ (Prod.ext hfault rfl)
  obtain ⟨hatomic, -⟩ := all_or_nothing (m := displaced) hp hpc'
  refine ⟨hp, hpc, hfault, ⟨n, hn, ?_⟩, hp, hpc', Prod.ext hback ?_⟩
  · have hlast : (misfed.run 9).2.unread [300] = last := hbuffer _ _ _ huntouched
    rwa [hlast]
  · exact hatomic.back (Prod.ext hback rfl) (by simp)

end Machine

end ReversibleTape
