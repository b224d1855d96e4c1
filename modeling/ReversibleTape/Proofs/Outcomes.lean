import ReversibleTape.Proofs.Calls
import ReversibleTape.Proofs.Dispatch

/-!
# What a step comes to

A step is about one instruction, the next one or the last one, and on a well-formed program its
answer can be told in advance. `Machine.Prospect` says for each answer exactly when it is given: a
step forward halts at the end, waits for a value, refuses a value that no cell can hold, refuses a
move to where there is no cell, and is executed otherwise; a step back is refused at the beginning
and executed otherwise. So **no loop is ever found without its other end, nothing is ever taken from
an empty record, and no index is ever out of range**.

`Machine.prospect_through` shows this for every machine that a load leads to, by any calls and with
anything happening to the device in between. What an instruction comes to is worked out on any state
(`State.perform_fst_iff`); that the pointer is in its range and that steps back never fail are
matters of trails.
-/

namespace ReversibleTape

/-- What is answered to the one who asked for a step. -/
def Outcome.answer : Outcome → Except Fault Progress
  | .executed _ => .ok .executed
  | .inputPending => .ok .inputPending
  | .halted => .ok .halted
  | .failed fault => .error fault

@[simp] theorem Outcome.answer_eq_inputPending_iff {outcome : Outcome} :
    outcome.answer = .ok .inputPending ↔ outcome = .inputPending := by
  cases outcome <;> simp [answer]

@[simp] theorem Outcome.answer_eq_halted_iff {outcome : Outcome} :
    outcome.answer = .ok .halted ↔ outcome = .halted := by
  cases outcome <;> simp [answer]

@[simp] theorem Outcome.answer_eq_error_iff {outcome : Outcome} {fault : Fault} :
    outcome.answer = .error fault ↔ outcome = .failed fault := by
  cases outcome <;> simp [answer]

/-- Which instructions are not executed: one that reads without an answer or an answer that does not
fit, one that moves the pointer out of its range, and the frame itself. -/
theorem State.perform_fst_iff {p : Program} {width : UInt32} {answer : Option Int} {s : State}
    {i : Nat} (hlinked : p.kindAt i = .loopOpen → (p.tokenAt i).partner ≠ none) :
    ((s.perform p width answer i).1 = .inputPending ↔ p.kindAt i = .input ∧ answer = none) ∧
      ((s.perform p width answer i).1 = .halted ↔
        (p.kindAt i = .start ∨ p.kindAt i = .loopClose ∨ p.kindAt i = .finish) ∧ i = s.pc) ∧
      ∀ fault, (s.perform p width answer i).1 = .failed fault ↔
        (∃ value, p.kindAt i = .input ∧ answer = some value ∧ Cell.ofInput? width value = none ∧
          fault = .invalidInputValue i value width) ∨
        (p.kindAt i = .shift ∧ Pointer.shift? s.pointer (p.tokenAt i).delta = none ∧
          fault = .pointerUnderflow i s.pointer (p.tokenAt i).delta) := by
  rw [Program.kindAt] at *
  simp only [perform]
  cases hkind : (p.tokenAt i).kind with
  | add | output | zero => simp
  | shift => cases hmoved : Pointer.shift? s.pointer (p.tokenAt i).delta <;> simp [eq_comm]
  | input =>
    cases answer with
    | none => simp
    | some value => cases hfits : Cell.ofInput? width value <;> simp [hfits, eq_comm]
  | loopOpen =>
    obtain ⟨tail, htail⟩ := Option.ne_none_iff_exists'.mp (hlinked hkind)
    simp [htail]
  | start | loopClose | finish => by_cases hrests : i = s.pc <;> simp [hrests]

/-- The execution rests at the frame exactly if it is at the end. -/
theorem Program.WellFormed.rests_at_frame_iff {p : Program} {pc i : Nat} (hp : p.WellFormed)
    (hpc : pc ≤ p.endIndex) (hnext : p.next? pc = some i) :
    (p.kindAt i = .start ∨ p.kindAt i = .loopClose ∨ p.kindAt i = .finish) ∧ i = pc ↔
      pc = p.endIndex := by
  constructor
  · rintro ⟨hkind, rfl⟩
    obtain ⟨j, hj, hpos, -, htail⟩ := hp.exists_next? hpc
    obtain rfl : j = i := Option.some.inj (hj.symm.trans hnext)
    refine Nat.le_antisymm hpc (Nat.le_of_not_lt fun hlt => ?_)
    obtain ⟨hstart, hfinish⟩ := hp.kindAt_inner hpos hlt
    simp [hstart, hfinish, htail] at hkind
  · rintro rfl
    obtain rfl : i = p.endIndex := by
      rcases hp.next?_cases hpc hnext with ⟨hzero, -⟩ | ⟨-, heq, -⟩ | hlink
      · exact absurd hzero (Nat.ne_of_gt hp.endIndex_pos)
      · exact heq
      · exact absurd (hp.tail_lt_endIndex hlink) (Nat.lt_irrefl _)
    exact ⟨.inr (.inr hp.kindAt_endIndex), rfl⟩

namespace Machine

variable {δ : Type} [Device δ] {p : Program} {config : Config} {m : Machine δ} {i : Nat}

/-- The instruction reads, and the device has no value yet. -/
def Waits (m : Machine δ) (i : Nat) : Prop :=
  m.program.kindAt i = .input ∧ (Device.read m.device).1 = none

/-- The instruction reads, and the device has a value that no cell can hold. -/
def Refuses (m : Machine δ) (i : Nat) (value : Int) : Prop :=
  m.program.kindAt i = .input ∧ (Device.read m.device).1 = some value ∧
    ¬(0 ≤ value ∧ value < m.config.cellWidth.toNat)

/-- The instruction moves the pointer to where there is no cell. -/
def Overruns (m : Machine δ) (i : Nat) : Prop :=
  m.program.kindAt i = .shift ∧
    ¬(0 ≤ (m.state.pointer : Int) + (m.program.tokenAt i).delta ∧
      (m.state.pointer : Int) + (m.program.tokenAt i).delta ≤ Word.greatest)

instance (m : Machine δ) (i : Nat) : Decidable (m.Waits i) := inferInstanceAs (Decidable (_ ∧ _))

instance (m : Machine δ) (i : Nat) (value : Int) : Decidable (m.Refuses i value) :=
  inferInstanceAs (Decidable (_ ∧ _))

instance (m : Machine δ) (i : Nat) : Decidable (m.Overruns i) :=
  inferInstanceAs (Decidable (_ ∧ _))

/-- What the steps from a machine come to, if `i` is the index of its next instruction. -/
structure Prospect (m : Machine δ) (i : Nat) : Prop where
  next?_eq : m.program.next? m.state.pc = some i
  lt_size : i < m.program.size
  halted_iff : m.stepForward.1 = .ok .halted ↔ m.state.pc = m.program.endIndex
  inputPending_iff : m.stepForward.1 = .ok .inputPending ↔ m.Waits i
  /-- There are no faults but these two. -/
  error_iff : ∀ fault, m.stepForward.1 = .error fault ↔
    (∃ value, m.Refuses i value ∧
      fault = .invalidInputValue i value m.config.cellWidth) ∨
    (m.Overruns i ∧
      fault = .pointerUnderflow i m.state.pointer (m.program.tokenAt i).delta)
  executed_iff : m.stepForward.1 = .ok .executed ↔
    m.state.pc ≠ m.program.endIndex ∧ ¬m.Waits i ∧ (∀ value, ¬m.Refuses i value) ∧
      ¬m.Overruns i
  back : m.stepBackward.1 =
    if m.state.pc = 0 then .error .reverseAtBeginning else .ok .executed
  /-- A step forward is over after three rounds, none of which gets lost. -/
  rounds_forward : ∀ answer, m.state.forwardWithin m.program m.config.cellWidth answer 3 =
    some (m.state.forward m.program m.config.cellWidth answer)
  /-- So is a step back. -/
  rounds_back : m.state.backwardWithin m.program m.config.cellWidth 3 =
    some (m.state.backward m.program m.config.cellWidth)

/-- The answer to a step forward is the outcome for the state. -/
theorem stepForward_fst (m : Machine δ) :
    m.stepForward.1 = (m.state.forward m.program m.config.cellWidth
      (consult (m.program.readsAt m.state.pc) m.device).1).1.answer := by
  cases m
  simp only [stepForward]
  split <;> simp_all [Outcome.answer]

/-- The next instruction decides over the answer to a step forward, on a device that is asked only
if that instruction reads. -/
theorem stepForward_fst_of_next? (hnext : m.program.next? m.state.pc = some i) :
    ∃ answer, (m.program.kindAt i = .input → answer = (Device.read m.device).1) ∧
      m.stepForward.1 = (m.state.perform m.program m.config.cellWidth answer i).1.answer := by
  refine ⟨_, fun hkind => ?_, m.stepForward_fst.trans (by rw [State.forward, hnext])⟩
  rw [Program.readsAt, hnext]
  simp [consult, hkind]

/-- If nothing stands in the way of a step, it is executed. -/
theorem stepForward_executed_iff {halts waits : Prop} {fails : Fault → Prop}
    (hhalted : m.stepForward.1 = .ok .halted ↔ halts)
    (hpending : m.stepForward.1 = .ok .inputPending ↔ waits)
    (herror : ∀ fault, m.stepForward.1 = .error fault ↔ fails fault) :
    m.stepForward.1 = .ok .executed ↔ ¬halts ∧ ¬waits ∧ ∀ fault, ¬fails fault := by
  simp only [← hhalted, ← hpending, ← herror]
  cases m.stepForward.1 with
  | error fault => simp
  | ok progress => cases progress <;> simp

/-- **A machine on a trail knows what its steps come to.** -/
theorem Follows.exists_prospect (hp : p.WellFormed) (hw : 0 < config.cellWidth)
    (h : Follows p config m) : ∃ i, Prospect m i := by
  obtain ⟨rfl, rfl, history, htrail⟩ := h
  have hs := htrail.orderly hp hw
  obtain ⟨i, hnext, hpos, hle, htail⟩ := hp.exists_next? hs.pc_le
  have hlinked : m.program.kindAt i = .loopOpen → (m.program.tokenAt i).partner ≠ none := by
    intro hhead
    obtain ⟨c, hlink, -⟩ := hp.link_of_head hhead
    simp [hlink.partner_head]
  obtain ⟨answer, hanswer, hstep⟩ := stepForward_fst_of_next? hnext
  have hhalted : m.stepForward.1 = .ok .halted ↔ m.state.pc = m.program.endIndex := by
    rw [hstep, Outcome.answer_eq_halted_iff, (State.perform_fst_iff hlinked).2.1,
      hp.rests_at_frame_iff hs.pc_le hnext]
  have hpending : m.stepForward.1 = .ok .inputPending ↔ m.Waits i := by
    rw [hstep, Outcome.answer_eq_inputPending_iff, (State.perform_fst_iff hlinked).1]
    exact and_congr_right fun hkind => by rw [hanswer hkind]
  have herror : ∀ fault, m.stepForward.1 = .error fault ↔
      (∃ value, m.Refuses i value ∧ fault = .invalidInputValue i value m.config.cellWidth) ∨
      (m.Overruns i ∧
        fault = .pointerUnderflow i m.state.pointer (m.program.tokenAt i).delta) := by
    intro fault
    rw [hstep, Outcome.answer_eq_error_iff, (State.perform_fst_iff hlinked).2.2]
    simp only [Refuses, Overruns, Cell.ofInput?_eq_none_iff,
      Pointer.shift?_eq_none_iff hs.pointer_le, and_assoc]
    refine or_congr_left (exists_congr fun value => and_congr_right fun hkind => ?_)
    rw [hanswer hkind]
  exact ⟨i,
    { next?_eq := hnext
      lt_size := Nat.lt_of_le_of_lt hle hp.endIndex_lt_size
      halted_iff := hhalted
      inputPending_iff := hpending
      error_iff := herror
      executed_iff := by
        rw [stepForward_executed_iff hhalted hpending herror]
        grind
      back := by
        rw [stepBackward_eq, htrail.backward hp hw]
        simp only [htrail.pc_eq_zero_iff hp hw]
        cases history <;> rfl
      rounds_forward := fun answer => State.forwardWithin_eq hp hs.pc_le
      rounds_back := State.backwardWithin_eq hp hs.pc_le }⟩

/-! ### Calls and devices -/

/-- What happens to a machine. -/
inductive Event (δ : Type)
  /-- It is asked for something. -/
  | call (c : Call)
  /-- Something happens to its device from outside, as when a value is fed to it. -/
  | device (device : δ)

/-- The machine after an event. -/
def event (m : Machine δ) : Event δ → Machine δ
  | .call c => m.call c
  | .device device => { m with device }

/-- The machine after a sequence of events. -/
def through (m : Machine δ) (events : List (Event δ)) : Machine δ := events.foldl event m

theorem Follows.event (hp : p.WellFormed) (hw : 0 < config.cellWidth) (h : Follows p config m)
    (e : Event δ) : Follows p config (m.event e) := by
  cases e with
  | call c => exact h.call hp hw c
  | device device => exact ⟨h.program_eq, h.config_eq, h.exists_trail⟩

theorem Follows.through (hp : p.WellFormed) (hw : 0 < config.cellWidth) (h : Follows p config m)
    (events : List (Event δ)) : Follows p config (m.through events) := by
  induction events generalizing m with
  | nil => exact h
  | cons e events ih => exact ih (h.event hp hw e)

/-- **The outcome of a step is exactly what its instruction says.** Load any program that passes its
checks, make any sequence of calls, and let anything happen to the device in between. The steps from
there come to what their prospect says. -/
theorem prospect_through {m₀ : Machine δ} (hw : 0 < m₀.config.cellWidth)
    (hload : m₀.install p = (.ok (), m)) (events : List (Event δ)) :
    (m.through events).program = p ∧ (m.through events).config = m₀.config ∧
      ∃ i, Prospect (m.through events) i := by
  obtain ⟨hp, -⟩ := install_eq_ok_iff.mp hload
  have hfollows := (follows_of_install hload).through hp hw events
  exact ⟨hfollows.program_eq, hfollows.config_eq, hfollows.exists_prospect hp hw⟩

/-- A machine that reads a number and moves to the left of the first cell. -/
def stray : Machine Buffer where
  program := { tokens := #[.start, { kind := .input }, { kind := .shift, delta := -1 }, .finish] }
  config := {}
  state := .fresh 4
  device := {}

theorem prospect_through_stray :
    let waiting := stray.through [.call (.run 5)]
    let fed := stray.through [.call (.run 5), .device { inputs := [7] }, .call (.step false)]
    0 < stray.config.cellWidth ∧ stray.install stray.program = (.ok (), stray) ∧
      waiting.stepForward.1 = .ok .inputPending ∧
      waiting.stepBackward.1 = .error .reverseAtBeginning ∧
      fed.stepForward.1 = .error (.pointerUnderflow 2 0 (-1)) ∧
      fed.stepBackward.1 = .ok .executed := by
  intro waiting fed
  have hw : 0 < stray.config.cellWidth := by decide
  have hload : stray.install stray.program = (.ok (), stray) := rfl
  obtain ⟨-, -, i, hwaiting⟩ := prospect_through hw hload [.call (.run 5)]
  obtain ⟨-, -, j, hfed⟩ := prospect_through hw hload
    [.call (.run 5), .device { inputs := [7] }, .call (.step false)]
  obtain rfl : i = 1 := Option.some.inj (hwaiting.next?_eq.symm.trans (by decide +kernel))
  obtain rfl : j = 2 := Option.some.inj (hfed.next?_eq.symm.trans (by decide +kernel))
  refine ⟨hw, hload, hwaiting.inputPending_iff.mpr (by decide +kernel), ?_, ?_, ?_⟩
  · exact hwaiting.back.trans (if_pos (by decide +kernel))
  · exact (hfed.error_iff _).mpr (.inr ⟨by decide +kernel, by decide +kernel⟩)
  · exact hfed.back.trans (if_neg (by decide +kernel))

end Machine

end ReversibleTape
