import ReversibleTape.Proofs.Evaluation
import ReversibleTape.Proofs.Runs

/-!
# The machine follows its code

The machine jumps from index to index; evaluation follows the tree. **They go the same way**, in
both directions and step for step.

Two places of the machine are one place of the code: a step from the tail of a loop is a step
from its head, and a step from the beginning is one from the first instruction. So a machine is
taken to be *at* an index when its next instruction is the one of a machine that rests there
(`Machine.At`), and the simulation never asks where it rests.

* `Machine.At.reaches`: an evaluation is a sequence of steps of the machine.
* `Machine.At.exists_eval`: a machine that stops has evaluated its code. The induction is on the
  code, and inside a loop on the number of steps that are left.
-/

namespace ReversibleTape

namespace Program

variable {p : Program} {i o c : Nat}

theorem next?_of_kindAt (hstart : p.kindAt i ≠ .start) (htail : p.kindAt i ≠ .loopClose) :
    p.next? i = some i := by
  rw [next?]
  split
  · contradiction
  · contradiction
  · rfl

theorem next?_of_instr? {x : Instr} (h : (p.tokenAt i).instr? = some x) : p.next? i = some i :=
  next?_of_kindAt (kindAt_of_instr? h).1 (kindAt_of_instr? h).2.2.1

theorem Link.next?_head (h : p.Link o c) : p.next? o = some o :=
  next?_of_kindAt (by simp [h.kind_head]) (by simp [h.kind_head])

theorem Link.next?_tail (h : p.Link o c) : p.next? c = some o := by
  rw [next?, h.kind_tail]
  exact h.partner_tail

namespace WellFormed

theorem next?_endIndex (hp : p.WellFormed) : p.next? p.endIndex = some p.endIndex :=
  next?_of_kindAt (by simp [hp.kindAt_endIndex]) (by simp [hp.kindAt_endIndex])

/-- From the beginning the execution goes on as from the first instruction. -/
theorem next?_zero (hp : p.WellFormed) : p.next? 0 = p.next? 1 := by
  have hstart : p.kindAt 1 ≠ .start := fun hstart => by
    rcases Nat.lt_or_eq_of_le hp.endIndex_pos with hlt | heq
    · exact (hp.kindAt_inner Nat.one_pos hlt).1 hstart
    · rw [show (1 : Nat) = p.endIndex from heq, hp.kindAt_endIndex] at hstart
      cases hstart
  have htail : p.kindAt 1 ≠ .loopClose := fun htail => by
    obtain ⟨o, hlink, -⟩ := hp.link_of_tail htail
    have hpos := hp.head_pos hlink
    have hlt := hlink.lt
    omega
  rw [next?_of_kindAt hstart htail, next?, hp.kindAt_zero]

end WellFormed

end Program

/-- What a step answers when an evaluation ends in this way. -/
def Ending.Answers (width : UInt32) : Ending → Except Fault Progress → Prop
  | .normal, answer => answer = .ok .executed
  | .pending, answer => answer = .ok .inputPending
  | .underflow, answer => ∃ pc pointer delta, answer = .error (.pointerUnderflow pc pointer delta)
  | .invalid value, answer => ∃ pc, answer = .error (.invalidInputValue pc value width)

namespace Machine

variable {p : Program} {width : UInt32} {m m' : Machine Buffer} {σ σ' : Store} {i j o c n : Nat}
  {e : Ending} {code : Code}

/-- The part of a machine that evaluation knows. -/
def store (m : Machine Buffer) : Store :=
  { pointer := m.state.pointer, tape := m.state.tape, buffer := m.device }

/-- The machine runs the program and executes next what stands at the index. -/
structure At (p : Program) (width : UInt32) (i : Nat) (σ : Store) (m : Machine Buffer) : Prop where
  program_eq : m.program = p
  width_eq : m.config.cellWidth = width
  next?_eq : p.next? m.state.pc = p.next? i
  store_eq : m.store = σ

/-! ### Single instructions -/

/-- A step asks the device if the next instruction is an input, and executes it. -/
theorem stepForward_of_perform {answer : Option Int} {device' : Buffer} {outcome : Outcome}
    {state' : State} (hnext : m.program.next? m.state.pc = some i)
    (hconsult : consult (m.program.kindAt i == .input) m.device = (answer, device'))
    (h : m.state.perform m.program m.config.cellWidth answer i = (outcome, state')) :
    m.stepForward =
      match outcome with
      | .executed emitted =>
        (.ok .executed, { m with state := state', device := deliver device' emitted })
      | .inputPending => (.ok .inputPending, { m with state := state', device := device' })
      | .halted => (.ok .halted, { m with state := state', device := device' })
      | .failed fault => (.error fault, { m with state := state', device := device' }) := by
  have hreads : m.program.readsAt m.state.pc = (m.program.kindAt i == .input) := by
    rw [Program.readsAt, hnext]
  have hforward : m.state.forward m.program m.config.cellWidth answer = (outcome, state') := by
    rw [State.forward, hnext, ← h]
  obtain ⟨program, config, state, device⟩ := m
  simp only [stepForward, hreads, hconsult, hforward]
  cases outcome <;> rfl

theorem consult_of_kindAt (hkind : p.kindAt i ≠ .input) (device : Buffer) :
    consult (p.kindAt i == .input) device = (none, device) := by
  rw [consult, if_neg (by simpa using hkind)]

theorem consult_of_input (hkind : p.kindAt i = .input) (device : Buffer) :
    consult (p.kindAt i == .input) device = device.read := by
  rw [consult, if_pos (by simpa using hkind)]
  rfl

/-- **One instruction.** The step of the machine does what the instruction does. -/
theorem At.stepForward_instr (h : At p width i σ m) {x : Instr}
    (hx : (p.tokenAt i).instr? = some x) (hrange : (σ.pointer : Int) ≤ Word.greatest)
    (hexec : x.exec width σ = (e, σ')) :
    e.Answers width m.stepForward.1 ∧ m.stepForward.2.store = σ' ∧
      (e = .normal → At p width (i + 1) σ' m.stepForward.2) := by
  obtain ⟨rfl, rfl, hnext, rfl⟩ := h
  rw [Program.next?_of_instr? hx] at hnext
  have htoken := Token.instr?_eq_some_iff.mp hx
  cases x with
  | add delta =>
    obtain ⟨hkind, rfl, -⟩ := htoken
    rw [Instr.exec_add] at hexec
    cases hexec
    rw [stepForward_of_perform hnext (consult_of_kindAt (by simp [Program.kindAt, hkind]) _)
      (by simp only [State.perform, hkind]; rfl)]
    exact ⟨rfl, rfl, fun _ => ⟨rfl, rfl, rfl, rfl⟩⟩
  | shift delta =>
    obtain ⟨hkind, rfl, -⟩ := htoken
    rw [Instr.exec] at hexec
    split at hexec
    · rename_i hfits
      cases hexec
      have hmoved : Pointer.shift? m.state.pointer (m.program.tokenAt i).delta =
          some (m.state.pointer + (m.program.tokenAt i).delta : Int).toNat := by
        rw [Pointer.shift?_eq_some_iff]
        exact ⟨hrange, hfits.2, (Int.toNat_of_nonneg hfits.1).symm⟩
      rw [stepForward_of_perform hnext (consult_of_kindAt (by simp [Program.kindAt, hkind]) _)
        (by simp only [State.perform, hkind, hmoved]; rfl)]
      exact ⟨rfl, rfl, fun _ => ⟨rfl, rfl, rfl, rfl⟩⟩
    · rename_i hfits
      cases hexec
      have hnone : Pointer.shift? m.state.pointer (m.program.tokenAt i).delta = none := by
        rw [Option.eq_none_iff_forall_ne_some]
        intro moved hmoved
        rw [Pointer.shift?_eq_some_iff] at hmoved
        exact hfits ⟨hmoved.2.2 ▸ Int.natCast_nonneg _, hmoved.2.1⟩
      rw [stepForward_of_perform hnext (consult_of_kindAt (by simp [Program.kindAt, hkind]) _)
        (by simp only [State.perform, hkind, hnone]; rfl)]
      exact ⟨⟨_, _, _, rfl⟩, rfl, fun h => absurd h (by decide)⟩
  | output =>
    have hkind : (m.program.tokenAt i).kind = .output := htoken
    cases hexec
    rw [stepForward_of_perform hnext (consult_of_kindAt (by simp [Program.kindAt, hkind]) _)
      (by simp only [State.perform, hkind]; rfl)]
    exact ⟨rfl, rfl, fun _ => ⟨rfl, rfl, rfl, rfl⟩⟩
  | input =>
    have hkind : (m.program.tokenAt i).kind = .input := htoken
    cases hinputs : m.device.inputs with
    | nil =>
      have hread : m.device.read = (none, m.device) := by rw [Buffer.read, hinputs]
      rw [Instr.exec, show m.store.buffer.inputs = [] from hinputs] at hexec
      cases hexec
      rw [stepForward_of_perform hnext ((consult_of_input hkind _).trans hread)
        (by simp only [State.perform, hkind]; rfl)]
      exact ⟨rfl, rfl, fun h => absurd h (by decide)⟩
    | cons value inputs =>
      have hread : m.device.read = (some value, { m.device with inputs }) := by
        rw [Buffer.read, hinputs]
      rw [Instr.exec, show m.store.buffer.inputs = value :: inputs from hinputs] at hexec
      simp only at hexec
      split at hexec
      · rename_i hfits
        cases hexec
        have hvalue : Cell.ofInput? m.config.cellWidth value = some (UInt32.ofNat value.toNat) :=
          if_pos hfits
        rw [stepForward_of_perform hnext ((consult_of_input hkind _).trans hread)
          (by simp only [State.perform, hkind, hvalue]; rfl)]
        exact ⟨rfl, rfl, fun _ => ⟨rfl, rfl, rfl, rfl⟩⟩
      · rename_i hfits
        cases hexec
        have hvalue : Cell.ofInput? m.config.cellWidth value = none := if_neg hfits
        rw [stepForward_of_perform hnext ((consult_of_input hkind _).trans hread)
          (by simp only [State.perform, hkind, hvalue]; rfl)]
        exact ⟨⟨i, rfl⟩, rfl, fun h => absurd h (by simp)⟩
  | zero =>
    have hkind : (m.program.tokenAt i).kind = .zero := htoken
    cases hexec
    rw [stepForward_of_perform hnext (consult_of_kindAt (by simp [Program.kindAt, hkind]) _)
      (by simp only [State.perform, hkind]; rfl)]
    exact ⟨rfl, rfl, fun _ => ⟨rfl, rfl, rfl, rfl⟩⟩

/-- The head of a loop leads behind the loop or into its body, and changes nothing else. -/
theorem At.stepForward_head (hlink : p.Link o c) (h : At p width o σ m) :
    ∃ m', Advances 1 m m' ∧ At p width (if σ.cell != 0 then o + 1 else c + 1) σ m' := by
  obtain ⟨rfl, rfl, hnext, rfl⟩ := h
  rw [hlink.next?_head] at hnext
  have hkind : (m.program.tokenAt o).kind = .loopOpen := hlink.kind_head
  have hstep := stepForward_of_perform hnext
    (consult_of_kindAt (by simp [hlink.kind_head]) _)
    (by simp only [State.perform, hkind, hlink.partner_head]; rfl)
  exact ⟨_, .single hstep, rfl, rfl, rfl, rfl⟩

theorem At.enter (hlink : p.Link o c) (h : At p width o σ m) (hcell : σ.cell ≠ 0) :
    ∃ m', Advances 1 m m' ∧ At p width (o + 1) σ m' := by
  obtain ⟨m', hadvance, hat⟩ := h.stepForward_head hlink
  rw [if_pos (by simpa using hcell)] at hat
  exact ⟨m', hadvance, hat⟩

theorem At.leave (hlink : p.Link o c) (h : At p width o σ m) (hcell : σ.cell = 0) :
    ∃ m', Advances 1 m m' ∧ At p width (c + 1) σ m' := by
  obtain ⟨m', hadvance, hat⟩ := h.stepForward_head hlink
  rw [if_neg (by simpa using hcell)] at hat
  exact ⟨m', hadvance, hat⟩

/-- At the tail of a loop, the machine is at the head. -/
theorem At.head_of_tail (hlink : p.Link o c) (h : At p width c σ m) : At p width o σ m :=
  ⟨h.program_eq, h.width_eq, by rw [h.next?_eq, hlink.next?_tail, hlink.next?_head], h.store_eq⟩

/-! ### From evaluations to steps -/

/-- After a number of steps the machine is at an index, or it is stuck and answers so. -/
inductive Reaches (p : Program) (width : UInt32) (j n : Nat) (m : Machine Buffer) :
    Ending → Store → Prop
  | normal {m' : Machine Buffer} {σ : Store} (advances : Advances n m m')
      (at_end : At p width j σ m') : Reaches p width j n m .normal σ
  | stuck {m' : Machine Buffer} {e : Ending} {σ : Store} (advances : Advances n m m')
      (abnormal : e ≠ .normal) (answers : e.Answers width m'.stepForward.1)
      (store_eq : m'.stepForward.2.store = σ) : Reaches p width j n m e σ

theorem Reaches.prepend {k : Nat} (h : Advances k m m') (h' : Reaches p width j n m' e σ) :
    Reaches p width j (k + n) m e σ := by
  cases h' with
  | normal advances at_end => exact .normal (h.trans advances) at_end
  | stuck advances abnormal answers store_eq =>
    exact .stuck (h.trans advances) abnormal answers store_eq

/-- **The machine follows an evaluation**, one step for each unit of the cost. -/
theorem At.reaches (hw : 0 < width) (h : At p width i σ m) (hspells : p.Spells i code j)
    (hrange : σ.InRange width) (heval : Eval width code σ n e σ') :
    Reaches p width j n m e σ' := by
  induction heval generalizing i j m with
  | skip =>
    cases hspells
    exact .normal (.refl m) h
  | instr exec =>
    cases hspells with
    | instr token =>
      obtain ⟨hanswer, -, hat⟩ := h.stepForward_instr token hrange.pointer_le exec
      exact .normal (.single (Prod.ext hanswer rfl)) (hat rfl)
  | instrStuck exec stuck =>
    cases hspells with
    | instr token =>
      obtain ⟨hanswer, hstore, -⟩ := h.stepForward_instr token hrange.pointer_le exec
      exact .stuck (.refl m) stuck hanswer hstore
  | seq first second ih₁ ih₂ =>
    cases hspells with
    | seq spells₁ spells₂ =>
      cases ih₁ h spells₁ hrange with
      | normal advances at_end =>
        exact (ih₂ at_end spells₂ (hrange.eval hw first)).prepend advances
      | stuck _ abnormal => exact absurd rfl abnormal
  | seqStuck first stuck ih =>
    cases hspells with
    | seq spells₁ spells₂ =>
      cases ih h spells₁ hrange with
      | normal => exact absurd rfl stuck
      | stuck advances abnormal answers store_eq => exact .stuck advances abnormal answers store_eq
  | loopDone zero =>
    cases hspells with
    | loop link inner =>
      obtain ⟨m', hadvance, hat⟩ := h.leave link zero
      exact .normal hadvance hat
  | loopPass nonzero pass again ih₁ ih₂ =>
    cases hspells with
    | loop link inner =>
      obtain ⟨m', hadvance, hat⟩ := h.enter link nonzero
      cases ih₁ hat inner hrange with
      | normal advances at_end =>
        -- at the tail the machine is at the head again, where the rest of the passes begins
        exact (ih₂ (at_end.head_of_tail link) (.loop link inner) (hrange.eval hw pass)).prepend
          (hadvance.trans advances)
      | stuck _ abnormal => exact absurd rfl abnormal
  | loopStuck nonzero pass stuck ih =>
    cases hspells with
    | loop link inner =>
      obtain ⟨m', hadvance, hat⟩ := h.enter link nonzero
      cases ih hat inner hrange with
      | normal => exact absurd rfl stuck
      | stuck advances abnormal answers store_eq =>
        exact (Reaches.stuck advances abnormal answers store_eq).prepend hadvance

/-! ### From steps to evaluations -/

/-- **A machine that stops has evaluated its code**, as far as it got. -/
theorem At.exists_eval (hw : 0 < width) {budget : Nat} (h : At p width i σ m)
    (hspells : p.Spells i code j) (hrange : σ.InRange width) (hstop : StopsWithin budget m) :
    ∃ n e σ', Eval width code σ n e σ' := by
  induction hspells generalizing σ m budget with
  | skip => exact ⟨0, .normal, σ, .skip σ⟩
  | @instr i x token => exact ⟨_, _, _, Eval.instr_iff.mpr ⟨rfl, rfl⟩⟩
  | seq first second ih₁ ih₂ =>
    obtain ⟨n, e, σ', heval⟩ := ih₁ h hrange hstop
    by_cases he : e = .normal
    · subst he
      cases h.reaches hw first hrange heval with
      | normal advances at_end =>
        obtain ⟨k, e', σ'', heval'⟩ :=
          ih₂ at_end (hrange.eval hw heval) (advances.stopsWithin hstop).2
        exact ⟨n + k, e', σ'', .seq heval heval'⟩
      | stuck _ abnormal => exact absurd rfl abnormal
    · exact ⟨n, e, σ', .seqStuck heval he⟩
  | @loop o c body link inner ih =>
    -- each pass takes a step at least, so the budget goes down
    induction budget using Nat.strongRecOn generalizing σ m with
    | ind budget ihBudget =>
      by_cases hcell : σ.cell = 0
      · exact ⟨1, .normal, σ, .loopDone hcell⟩
      · obtain ⟨m₁, hadvance, hat⟩ := h.enter link hcell
        obtain ⟨hpos, hstop₁⟩ := hadvance.stopsWithin hstop
        obtain ⟨n, e, σ', heval⟩ := ih hat hrange hstop₁
        by_cases he : e = .normal
        · subst he
          cases hat.reaches hw inner hrange heval with
          | normal advances at_end =>
            obtain ⟨k, e', σ'', heval'⟩ := ihBudget (budget - 1 - n) (by omega)
              (at_end.head_of_tail link) (hrange.eval hw heval) (advances.stopsWithin hstop₁).2
            exact ⟨1 + n + k, e', σ'', .loopPass hcell heval heval'⟩
          | stuck _ abnormal => exact absurd rfl abnormal
        · exact ⟨1 + n, e, σ', .loopStuck hcell heval he⟩

end Machine

end ReversibleTape
