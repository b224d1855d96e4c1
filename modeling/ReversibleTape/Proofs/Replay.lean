import ReversibleTape.Proofs.Calls

/-!
# Steps forward repeat what steps back took back

The other half of reversibility: **a step back and then a step forward leave a machine where it
was**, all records included (`Machine.stepForward_stepBackward`). It does not follow from the first
half alone, since a step forward may be told something else by its device than it was told before.
A step asks for a value only if its instruction is an input, and then what it was told is in the
current cell; so the step is repeated if the device offers the value of that cell once more.
Characters that were emitted are not taken back, and are emitted again.
-/

namespace ReversibleTape

namespace State

variable {p : Program} {width : UInt32} {answer answer' : Option Int} {s s' : State} {i : Nat}
  {emitted : Option Char}

/-! ### The same step on another answer -/

/-- Only an input looks at the answer of the device. -/
theorem perform_eq_perform (hkind : p.kindAt i ≠ .input) (answer answer' : Option Int) :
    s.perform p width answer i = s.perform p width answer' i := by
  rw [Program.kindAt] at hkind
  cases h : (p.tokenAt i).kind with
  | input => exact absurd h hkind
  | _ => simp only [perform, h]

/-- **One step** is repeated on another answer, which has to be the value of the current cell if
there is a question at all. -/
theorem forward_again (h : s.forward p width answer = (.executed emitted, s'))
    (hcell : s'.cell < width)
    (hanswer : p.readsAt s.pc = true → answer' = some (s'.cell.toNat : Int)) :
    s.forward p width answer' = (.executed emitted, s') := by
  obtain ⟨i, hnext, heffect⟩ := effect_of_forward h
  have hreads : p.readsAt s.pc = (p.kindAt i == .input) := by rw [Program.readsAt, hnext]
  rw [forward, hnext] at h ⊢
  simp only at h ⊢
  cases heffect with
  | add hkind | shift hkind | output hkind | zero hkind | head hkind =>
    rwa [perform_eq_perform (by simp [hkind]) answer' answer]
  | frame hkind =>
    have hne : p.kindAt i ≠ .input := by rcases hkind with hkind | hkind | hkind <;> simp [hkind]
    rwa [perform_eq_perform hne answer' answer]
  | @input hkind number value _ hfits =>
    have hvalue : (setCell _ value).cell = value :=
      cell_setCell (s.setRecord i ((s.ledger.recordAt i).save s.cell)) value
    obtain rfl : answer' = some (value.toNat : Int) := hvalue ▸ hanswer (by simp [hreads, hkind])
    rw [Program.kindAt] at hkind
    simp only [perform, hkind, Cell.ofInput?_toNat (Cell.ofInput?_lt hfits)]

/-- **The instruction to undo** is the one that was executed. It asked for a value if it is an
input, and emitted the current cell if it is an output. -/
theorem Effect.exists_previous? (hp : p.WellFormed) (hs : Sound p width s)
    (hnext : p.next? s.pc = some i) (h : Effect p width answer s i emitted s') :
    ∃ k, p.previous? s'.pc = some k ∧ p.readsAt s.pc = (p.kindAt k == .input) ∧
      emitted = if p.kindAt k = .output then some (Cell.char s'.cell) else none := by
  have hreads : p.readsAt s.pc = (p.kindAt i == .input) := by rw [Program.readsAt, hnext]
  cases h with
  | add hkind | shift hkind | input hkind | zero hkind =>
    exact ⟨i, Program.previous?_succ (by simp [hkind]), hreads, by simp [hkind]⟩
  | output hkind =>
    exact ⟨i, Program.previous?_succ (by simp [hkind]), hreads, by simp [hkind, cell]⟩
  | head hkind hpartner =>
    obtain ⟨c, hlink, -⟩ := hp.link_of_head hkind
    obtain rfl := Option.some.inj (hlink.partner_head.symm.trans hpartner)
    refine ⟨i, ?_, hreads, by simp [hkind]⟩
    show p.previous? (if s.cell != 0 then i + 1 else c + 1) = some i
    split
    · exact Program.previous?_succ (by simp [hkind])
    · exact hlink.previous?_tail_succ
  | frame hkind hmoved =>
    -- the step of the empty program is undone as a step behind the beginning
    obtain ⟨hzero, rfl, hend⟩ := hp.endIndex_eq_one hs.pc_le hnext hkind hmoved
    have hfinish : p.kindAt 1 = .finish := hend ▸ hp.kindAt_endIndex
    refine ⟨0, Program.previous?_succ (by simp [hp.kindAt_zero]), ?_, by simp [hp.kindAt_zero]⟩
    rw [hreads, hfinish, hp.kindAt_zero]
    rfl

/-- On a trail, a state that is not at the beginning was reached from the state below. -/
theorem Trail.exists_before {history : List State} (h : Trail p width (s :: history))
    (hpc : s.pc ≠ 0) : ∃ before rest answer emitted, history = before :: rest ∧
      before.forward p width answer = (.executed emitted, s) := by
  cases h with
  | fresh => exact absurd rfl hpc
  | step trail moved => exact ⟨_, _, _, _, rfl, moved⟩

end State

namespace Machine

variable {δ : Type} [Device δ] {p : Program} {m : Machine δ}

theorem stepForward_of_forward {answer : Option Int} {device : δ} {emitted : Option Char}
    {state : State} (hconsult : consult (m.program.readsAt m.state.pc) m.device = (answer, device))
    (hforward : m.state.forward m.program m.config.cellWidth answer = (.executed emitted, state)) :
    m.stepForward = (.ok .executed, { m with state, device := deliver device emitted }) := by
  obtain ⟨program, config, state', device'⟩ := m
  simp only [stepForward, hconsult, hforward]

/-- The device after an instruction is executed again: an input reads from it, an output emits the
current cell to it, and nothing else makes use of it. -/
def attend (kind : Kind) (cell : UInt32) (device : δ) : δ :=
  match kind with
  | .input => (Device.read device).2
  | .output => Device.emit device (Cell.char cell)
  | _ => device

theorem deliver_consult (kind : Kind) (cell : UInt32) (device : δ) :
    deliver (consult (kind == .input) device).2
      (if kind = .output then some (Cell.char cell) else none) = attend kind cell device := by
  cases kind <;> rfl

/-- **Back and forth.** Load any program that passes its checks, and make any sequence of steps
forward and back, on any device. Unless the machine is at the beginning, a step back succeeds and
does not touch the device. The step forward that follows, on whatever device there is by then,
succeeds and leads to the machine as it was, all records included; if the instruction that was
undone is an input, the device has to offer the value that the current cell had. The device is
read only in that case, and emitted to only if the instruction is an output. -/
theorem stepForward_stepBackward {m₀ : Machine δ} (hw : 0 < m₀.config.cellWidth)
    (hload : m₀.install p = (.ok (), m)) (moves : List Bool)
    (hpc : (m.walk moves).machine.state.pc ≠ 0) (device : δ) :
    let now := (m.walk moves).machine
    ∃ k before, p.previous? now.state.pc = some k ∧
      now.stepBackward = (.ok .executed, before) ∧ before.device = now.device ∧
      ((p.kindAt k = .input → (Device.read device).1 = some (now.state.cell.toNat : Int)) →
        stepForward { before with device } =
          (.ok .executed, { now with device := attend (p.kindAt k) now.state.cell device })) := by
  intro now
  obtain ⟨hp, -⟩ := install_eq_ok_iff.mp hload
  obtain ⟨hprogram, hconfig, history, htrail⟩ := (follows_of_install hload).walk hp hw moves
  obtain ⟨before, rest, answer, emitted, rfl, hforward⟩ := htrail.exists_before hpc
  have hs := htrail.tail.sound hp hw
  obtain ⟨i, hnext, heffect⟩ := State.effect_of_forward hforward
  obtain ⟨k, hprevious, hreads, hemitted⟩ := heffect.exists_previous? hp hs hnext
  have hback : now.stepBackward = (.ok .executed, { now with state := before }) := by
    rw [stepBackward_eq, hprogram, hconfig, htrail.backward hp hw]
    rfl
  refine ⟨k, { now with state := before }, hprevious, hback, rfl, fun hoffer => ?_⟩
  have hasked (hreads' : p.readsAt before.pc = true) :
      (consult (p.readsAt before.pc) device).1 = some (now.state.cell.toNat : Int) := by
    rw [consult, if_pos hreads']
    exact hoffer (by simpa [hreads] using hreads')
  have hagain := State.forward_again hforward ((htrail.sound hp hw).cell_lt _) hasked
  rw [← hprogram, ← hconfig] at hagain
  rw [stepForward_of_forward (by rw [hprogram]) hagain, hreads, hemitted, deliver_consult]

theorem stepForward_stepBackward_countdown :
    0 < countdown.config.cellWidth ∧
      countdown.install countdown.program = (.ok (), countdown) ∧
      (countdown.walk [false]).machine.state.pc ≠ 0 ∧
      countdown.program.previous? (countdown.walk [false]).machine.state.pc = some 1 ∧
      (Device.read ({ inputs := [2] } : Buffer)).1 =
        some ((countdown.walk [false]).machine.state.cell.toNat : Int) ∧
      ∃ before, (countdown.walk [false]).machine.stepBackward = (.ok .executed, before) ∧
        stepForward { before with device := { inputs := [2] } } =
          (.ok .executed, (countdown.walk [false]).machine) := by
  have hw : 0 < countdown.config.cellWidth := by decide
  have hload : countdown.install countdown.program = (.ok (), countdown) := rfl
  have hpc : (countdown.walk [false]).machine.state.pc ≠ 0 := by decide +kernel
  have hprevious : countdown.program.previous? (countdown.walk [false]).machine.state.pc =
    some 1 := by decide +kernel
  have hoffer : (Device.read ({ inputs := [2] } : Buffer)).1 =
    some ((countdown.walk [false]).machine.state.cell.toNat : Int) := by decide +kernel
  obtain ⟨k, before, hk, hback, -, hforth⟩ :=
    stepForward_stepBackward hw hload [false] hpc { inputs := [2] }
  obtain rfl : 1 = k := Option.some.inj (hprevious.symm.trans hk)
  refine ⟨hw, hload, hpc, hprevious, hoffer, before, hback, ?_⟩
  rw [hforth fun _ => hoffer]
  rfl

end Machine

end ReversibleTape
