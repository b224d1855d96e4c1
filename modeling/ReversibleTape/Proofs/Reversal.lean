import ReversibleTape.Proofs.Invariant
import ReversibleTape.Proofs.Runs

/-!
# Steps back undo steps forward

`State.backward_of_forward` is the local law: from a sound state, **a step back takes back what
the last step forward did**, all records included. The one delicate case is the head of a loop,
whose record has to tell from where the head was reached; the law of the flags
(`State.Sound.inProgress_iff`) is what makes that record tell the truth.

A walk is any sequence of steps forward and back on a machine, on whatever device. Beside it runs
a history of all states (`Machine.walk`). The states of a history are a *trail*: each comes from
the one below it by a step forward (`State.Trail`). Trails are what a walk preserves, and
`Machine.walk_reversible` reads the result off them.
-/

namespace ReversibleTape

/-! ### What is written is taken back -/

theorem Ledger.write_write_recordAt (l : Ledger) (i : Nat) (r : Record) :
    (l.write i r).write i (l.recordAt i) = l := by
  refine Array.ext_getElem? fun j => ?_
  simp only [write, Array.getElem?_setIfInBounds, Array.size_setIfInBounds]
  by_cases hij : i = j
  · subst hij
    by_cases hi : i < l.size <;> simp [hi, recordAt]
  · simp [hij]

/-- The first evaluation of a loop head is told apart by a counter that is zero. -/
theorem Record.unevaluate?_evaluate_above {r : Record} (h : r.inProgress = false)
    (entered : Bool) : (r.evaluate entered).unevaluate? = some (.above, r) := by
  cases r
  simp_all [evaluate, unevaluate?]

/-- A return to a loop head is told apart by a counter that is positive. -/
theorem Record.unevaluate?_evaluate_tail {r : Record} (h : r.inProgress = true)
    (hpasses : r.passes ≠ []) (entered : Bool) :
    (r.evaluate entered).unevaluate? = some (.tail, r) := by
  obtain ⟨n, rest, hcons⟩ := List.exists_cons_of_ne_nil hpasses
  cases r
  simp_all [evaluate, unevaluate?, bump]

/-! ### The index of the instruction to undo -/

namespace Program

variable {p : Program} {i o c : Nat}

theorem previous?_succ (h : p.kindAt i ≠ .loopClose) : p.previous? (i + 1) = some i := by
  rw [previous?, Nat.add_sub_cancel]
  split
  · contradiction
  · rfl

theorem Link.previous?_tail_succ (h : p.Link o c) : p.previous? (c + 1) = some o := by
  rw [previous?, Nat.add_sub_cancel, h.kind_tail]
  exact h.partner_tail

end Program

namespace State

variable {p : Program} {width : UInt32} {answer : Option Int} {s s' : State} {i o c : Nat}
  {emitted : Option Char}

/-- An instruction that was not reached from the tail of a loop is the one at which the
execution rests again once it is undone. -/
theorem Sound.settle_eq (hp : p.WellFormed) (hs : Sound p width s)
    (hnext : p.next? s.pc = some i) (hkind : p.kindAt i ≠ .finish) (htail : ¬p.Link i s.pc) :
    Program.settle i = s.pc := by
  rcases hp.next?_cases hs.pc_le hnext with ⟨hzero, rfl⟩ | ⟨-, rfl, -⟩ | hlink
  · rw [hzero]
    rfl
  · have hne : s.pc ≠ 1 := fun hone => by
      have hend := hs.pc_ne_one hone
      rw [hone, ← hend] at hkind
      exact hkind hp.kindAt_endIndex
    rw [Program.settle, if_neg hne]
  · exact absurd hlink htail

/-- The step back from behind an instruction that is no end of a loop undoes it. -/
theorem backward_of_pc_eq_succ (hpc : s.pc = i + 1) (hkind : p.kindAt i ≠ .loopClose) :
    s.backward p width = s.undo p width i := by
  rw [backward, hpc, if_neg (Nat.succ_ne_zero i), Program.previous?_succ hkind]

/-- The step back from behind the tail of a loop undoes the evaluation of its head. -/
theorem backward_of_pc_eq_tail (hpc : s.pc = c + 1) (hlink : p.Link o c) :
    s.backward p width = s.undo p width o := by
  rw [backward, hpc, if_neg (Nat.succ_ne_zero c), hlink.previous?_tail_succ]

/-- Undoing an evaluation of a loop head restores the record and the place from which the head
was reached. -/
theorem Sound.undo_head (hp : p.WellFormed) (hs : Sound p width s)
    (hnext : p.next? s.pc = some o) (hlink : p.Link o c) (pc : Nat) :
    ({ s.setRecord o ((s.ledger.recordAt o).evaluate (s.cell != 0)) with pc } : State).undo
      p width o = (.ok (), s) := by
  have hsize : o < s.ledger.size := by
    have := hp.tail_lt_endIndex hlink
    have := hp.endIndex_lt_size
    have := hlink.lt
    rw [hs.size_ledger]
    omega
  have hread : (s.ledger.write o ((s.ledger.recordAt o).evaluate (s.cell != 0))).recordAt o =
      (s.ledger.recordAt o).evaluate (s.cell != 0) := by
    rw [Ledger.recordAt_write, if_pos ⟨rfl, hsize⟩]
  have hkind : (p.tokenAt o).kind = .loopOpen := hlink.kind_head
  by_cases htail : p.Link o s.pc
  · -- a head that was reached from the tail was in progress, and its counter says so
    obtain rfl := hlink.tail_unique htail
    have hin := (hs.inProgress_iff hlink).mpr ⟨hlink.lt, Nat.le_refl _⟩
    simp only [undo, hkind, hlink.partner_head, setRecord, hread,
      Record.unevaluate?_evaluate_tail hin (hs.passes_ne_nil hlink hin),
      Ledger.write_write_recordAt]
  · have hsettle := hs.settle_eq hp hnext (by rw [hlink.kind_head]; decide) htail
    -- one that was reached from above was not, since the execution did not rest inside of the loop
    have hout : (s.ledger.recordAt o).inProgress = false := by
      refine Bool.eq_false_iff.mpr fun hin => ?_
      have hinside := (hs.inProgress_iff hlink).mp hin
      rw [Program.settle] at hsettle
      split at hsettle <;> omega
    simp only [undo, hkind, hlink.partner_head, setRecord, hread,
      Record.unevaluate?_evaluate_above hout, Ledger.write_write_recordAt, hsettle]

/-- Undoing an instruction that overwrote the current cell restores the cell and the record. -/
theorem Sound.undo_overwrite (hs : Sound p width s)
    (hkind : p.kindAt i = .input ∨ p.kindAt i = .zero) (value : UInt32) (pc : Nat) :
    ({ (s.setRecord i ((s.ledger.recordAt i).save s.cell)).setCell value with pc } : State).undo
      p width i = (.ok (), { s with pc := Program.settle i }) := by
  have hi : i < s.ledger.size := by
    rw [hs.size_ledger]
    exact Program.lt_size_of_kindAt (by rcases hkind with h | h <;> simp [h])
  have hread : (s.ledger.write i ((s.ledger.recordAt i).save s.cell)).recordAt i =
      (s.ledger.recordAt i).save s.cell := by
    rw [Ledger.recordAt_write, if_pos ⟨rfl, hi⟩]
  rw [Program.kindAt] at hkind
  rcases hkind with hkind | hkind <;>
    simp only [undo, hkind, setRecord, setCell, hread, Record.restore?_save,
      Ledger.write_write_recordAt] <;>
    rw [cell, Tape.set_set, Tape.set_get]

/-- **The local law.** From a sound state, a step back takes back what a step forward did. -/
theorem backward_of_forward (hp : p.WellFormed) (hs : Sound p width s)
    (h : s.forward p width answer = (.executed emitted, s')) :
    s'.backward p width = (.ok (), s) := by
  obtain ⟨i, hnext, heffect⟩ := effect_of_forward h
  have hsettle : p.kindAt i ≠ .loopOpen → p.kindAt i ≠ .finish → Program.settle i = s.pc :=
    fun hhead hfinish => hs.settle_eq hp hnext hfinish fun hlink => hhead hlink.kind_head
  cases heffect with
  | add hkind =>
    have hpc := hsettle (by simp [hkind]) (by simp [hkind])
    rw [backward_of_pc_eq_succ rfl (by simp [hkind])]
    rw [Program.kindAt] at hkind
    simp only [undo, hkind, setCell, cell, Tape.get_set, if_true, hpc]
    rw [Cell.sub_add (hs.cell_lt _), Tape.set_set, Tape.set_get]
  | shift hkind hmoved =>
    have hpc := hsettle (by simp [hkind]) (by simp [hkind])
    rw [backward_of_pc_eq_succ rfl (by simp [hkind])]
    rw [Program.kindAt] at hkind
    simp only [undo, hkind, Pointer.shift?_negate hmoved, hpc]
  | output hkind =>
    have hpc := hsettle (by simp [hkind]) (by simp [hkind])
    rw [backward_of_pc_eq_succ rfl (by simp [hkind])]
    rw [Program.kindAt] at hkind
    simp only [undo, hkind, hpc]
  | input hkind _ _ =>
    have hpc := hsettle (by simp [hkind]) (by simp [hkind])
    rw [backward_of_pc_eq_succ rfl (by simp [hkind]), hs.undo_overwrite (.inl hkind), hpc]
  | zero hkind =>
    have hpc := hsettle (by simp [hkind]) (by simp [hkind])
    rw [backward_of_pc_eq_succ rfl (by simp [hkind]), hs.undo_overwrite (.inr hkind), hpc]
  | head hkind hpartner =>
    obtain ⟨c, hlink, -⟩ := hp.link_of_head hkind
    obtain rfl := Option.some.inj (hlink.partner_head.symm.trans hpartner)
    rw [← hs.undo_head hp hnext hlink (if s.cell != 0 then i + 1 else c + 1)]
    -- the execution rests behind the head or behind the tail, and both lead to the head
    by_cases hcell : (s.cell != 0) = true
    · exact backward_of_pc_eq_succ (if_pos hcell) (by simp [hkind])
    · exact backward_of_pc_eq_tail (if_neg hcell) hlink
  | frame hkind hmoved =>
    obtain ⟨hzero, rfl, -⟩ := hp.endIndex_eq_one hs.pc_le hnext hkind hmoved
    have hstart : (p.tokenAt 0).kind = .start := hp.kindAt_zero
    rw [backward_of_pc_eq_succ (i := 0) rfl (by rw [hp.kindAt_zero]; decide)]
    simp only [undo, hstart]
    rw [show Program.settle 0 = s.pc from hzero.symm]

/-! ### Steps that are not executed -/

/-- A step that waits, that is at the end, or that fails leaves the state as it was. -/
theorem forward_eq_self {outcome : Outcome} (h : s.forward p width answer = (outcome, s'))
    (hnot : ∀ emitted, outcome ≠ .executed emitted) : s' = s := by
  rw [forward] at h
  cases hnext : p.next? s.pc with
  | none =>
    simp only [hnext] at h
    cases h
    rfl
  | some i =>
    simp only [hnext, perform] at h
    split at h
    all_goals try split at h
    all_goals try split at h
    all_goals
      cases h
      first | rfl | exact absurd rfl (hnot _)

/-- A step raises no counter by more than one. -/
theorem passes_le_of_forward {bound : Nat}
    (h : s.forward p width answer = (.executed emitted, s'))
    (hbound : ∀ k, ∀ n ∈ (s.ledger.recordAt k).passes, n ≤ bound) :
    ∀ k, ∀ n ∈ (s'.ledger.recordAt k).passes, n ≤ bound + 1 := by
  have hkeep : ∀ k, ∀ n ∈ (s.ledger.recordAt k).passes, n ≤ bound + 1 :=
    fun k n hn => Nat.le_succ_of_le (hbound k n hn)
  have hwrite : ∀ i r, (∀ n ∈ r.passes, n ≤ bound + 1) →
      ∀ k, ∀ n ∈ ((s.ledger.write i r).recordAt k).passes, n ≤ bound + 1 := fun i r hr k => by
    rw [Ledger.recordAt_write]
    split
    · exact hr
    · exact hkeep k
  obtain ⟨i, -, heffect⟩ := effect_of_forward h
  cases heffect with
  | add | shift | output | frame => exact hkeep
  | input | zero => exact hwrite i _ (hkeep i)
  | head =>
    refine hwrite i _ fun n hn => ?_
    have hold := hbound i
    rw [Record.evaluate] at hn
    cases hpasses : (s.ledger.recordAt i).passes with
    | nil =>
      simp only [hpasses, Record.bump] at hn
      split at hn <;> simp_all
    | cons top rest =>
      simp only [hpasses, List.mem_cons, forall_eq_or_imp] at hold
      simp only [hpasses, Record.bump] at hn
      split at hn
      · rcases List.mem_cons.mp hn with rfl | hn
        · omega
        · exact Nat.le_succ_of_le (hold.2 n hn)
      · rcases List.mem_cons.mp hn with rfl | hn
        · omega
        · rcases List.mem_cons.mp hn with rfl | hn
          · omega
          · exact Nat.le_succ_of_le (hold.2 n hn)

/-! ### Trails -/

/-- The states of an execution that was never rewound, latest first: the first is that of a
program just loaded, and each of the others comes from the one before it by a step forward. -/
inductive Trail (p : Program) (width : UInt32) : List State → Prop
  | fresh : Trail p width [fresh p.size]
  | step {s s' : State} {history : List State} {answer : Option Int} {emitted : Option Char}
      (trail : Trail p width (s :: history))
      (moved : s.forward p width answer = (.executed emitted, s')) :
      Trail p width (s' :: s :: history)

namespace Trail

variable {history : List State}

/-- What holds at the beginning and is kept by steps forward holds along trails. -/
theorem invariant {motive : State → Prop} (fresh : motive (State.fresh p.size))
    (forward : ∀ {s s' : State} {answer : Option Int} {emitted : Option Char}, motive s →
      s.forward p width answer = (.executed emitted, s') → motive s')
    (h : Trail p width (s :: history)) : motive s := by
  generalize htrail : s :: history = trail at h
  induction h generalizing s history with
  | fresh =>
    cases htrail
    exact fresh
  | step trail moved ih =>
    cases htrail
    exact forward (ih rfl) moved

theorem sound (hp : p.WellFormed) (hw : 0 < width) (h : Trail p width (s :: history)) :
    Sound p width s :=
  h.invariant (sound_fresh hw) fun hs moved => hs.forward hp hw moved

theorem tail {before : State} (h : Trail p width (s :: before :: history)) :
    Trail p width (before :: history) := by
  cases h with
  | step trail moved => exact trail

/-- On a trail, a step back leads to the state below, and from the first state nowhere. -/
theorem backward (hp : p.WellFormed) (hw : 0 < width) (h : Trail p width (s :: history)) :
    s.backward p width =
      match history with
      | [] => (.error .reverseAtBeginning, s)
      | before :: _ => (.ok (), before) := by
  cases h with
  | fresh => rfl
  | step trail moved => exact backward_of_forward hp (trail.sound hp hw) moved

/-- On a trail, the execution rests at the beginning exactly if nothing came before. -/
theorem pc_eq_zero_iff (hp : p.WellFormed) (hw : 0 < width)
    (h : Trail p width (s :: history)) : s.pc = 0 ↔ history = [] := by
  have hback := h.backward hp hw
  cases history with
  | nil =>
    cases h
    exact iff_of_true rfl rfl
  | cons before history =>
    simp only [reduceCtorEq, iff_false]
    intro hzero
    rw [State.backward, if_pos hzero] at hback
    cases hback

theorem passes_le (h : Trail p width (s :: history)) :
    ∀ k, ∀ n ∈ (s.ledger.recordAt k).passes, n ≤ history.length := by
  generalize htrail : s :: history = trail at h
  induction h generalizing s history with
  | fresh =>
    cases htrail
    simp [State.fresh, Record.blank]
  | step trail moved ih =>
    cases htrail
    exact passes_le_of_forward moved (ih rfl)

end Trail

end State

/-! ### Walks -/

namespace Machine

variable {δ : Type}

/-- A step back touches nothing but the state. -/
theorem stepBackward_eq (m : Machine δ) :
    m.stepBackward = ((m.state.backward m.program m.config.cellWidth).1.map fun _ => .executed,
      { m with state := (m.state.backward m.program m.config.cellWidth).2 }) := by
  cases m
  rw [stepBackward]
  split <;> simp_all [Except.map]

section
variable [Device δ]

/-- A step forward keeps the program and the configuration. It is executed as a step of the state
on some answer of the device, or the state is as before. -/
theorem stepForward_cases (m : Machine δ) :
    m.stepForward.2.program = m.program ∧ m.stepForward.2.config = m.config ∧
      ((m.stepForward.1 = .ok .executed ∧ ∃ answer emitted,
          m.state.forward m.program m.config.cellWidth answer =
            (.executed emitted, m.stepForward.2.state)) ∨
        (m.stepForward.1 ≠ .ok .executed ∧ m.stepForward.2.state = m.state)) := by
  obtain ⟨program, config, state, device⟩ := m
  simp only [stepForward]
  split
  · rename_i emitted state' hforward
    exact ⟨rfl, rfl, .inl ⟨rfl, _, emitted, hforward⟩⟩
  all_goals
    rename_i state' hforward
    exact ⟨rfl, rfl, .inr ⟨by simp, State.forward_eq_self hforward (by simp)⟩⟩

/-- One call: a step forward, or a step back. -/
def step (reverse : Bool) (m : Machine δ) : Except Fault Progress × Machine δ :=
  if reverse then m.stepBackward else m.stepForward

end

/-- A machine together with the history of its states, latest first. -/
structure Walk (δ : Type) where
  machine : Machine δ
  history : List State

namespace Walk

/-- The history after a call: an executed step forward adds the new state, a successful step back
takes one off, and no other call counts. -/
def record (reverse : Bool) (answer : Except Fault Progress) (now : State)
    (history : List State) : List State :=
  match reverse, answer with
  | false, .ok .executed => now :: history
  | true, .ok _ => history.tail
  | _, _ => history

theorem record_of_ne_executed {answer : Except Fault Progress} (h : answer ≠ .ok .executed)
    (now : State) (history : List State) : record false answer now history = history := by
  unfold record
  split
  · contradiction
  · contradiction
  · rfl

/-- Makes one call. -/
def step [Device δ] (walk : Walk δ) (reverse : Bool) : Walk δ where
  machine := (walk.machine.step reverse).2
  history := record reverse (walk.machine.step reverse).1 (walk.machine.step reverse).2.state
    walk.history

/-- What all calls preserve: the machine is in the latest state of a trail of the program, which
is no longer than the number of calls allows. -/
structure OnTrail (p : Program) (config : Config) (calls : Nat) (walk : Walk δ) : Prop where
  program_eq : walk.machine.program = p
  config_eq : walk.machine.config = config
  trail : State.Trail p config.cellWidth walk.history
  head_eq : walk.history.head? = some walk.machine.state
  length_le : walk.history.length ≤ calls + 1

variable {p : Program} {config : Config} {calls : Nat} {walk : Walk δ}

/-- On a trail, a step back succeeds unless only one state is left. -/
theorem OnTrail.stepBackward (hp : p.WellFormed) (hw : 0 < config.cellWidth)
    (h : OnTrail p config calls walk) :
    walk.machine.stepBackward =
      match walk.history.tail with
      | [] => (.error .reverseAtBeginning, walk.machine)
      | before :: _ => (.ok .executed, { walk.machine with state := before }) := by
  obtain ⟨⟨program, config', state, device⟩, history⟩ := walk
  obtain ⟨rfl, rfl, htrail, hhead, -⟩ := h
  cases history with
  | nil => simp at hhead
  | cons s history =>
    obtain rfl : s = state := Option.some.inj hhead
    rw [stepBackward_eq, htrail.backward hp hw]
    cases history <;> rfl

theorem OnTrail.exists_cons (h : OnTrail p config calls walk) :
    ∃ rest, walk.history = walk.machine.state :: rest := by
  have hhead := h.head_eq
  cases hhistory : walk.history with
  | nil => simp [hhistory] at hhead
  | cons s rest =>
    rw [hhistory] at hhead
    exact ⟨rest, by rw [Option.some.inj hhead]⟩

/-- **One call** keeps the machine on a trail. -/
theorem OnTrail.step [Device δ] (hp : p.WellFormed) (hw : 0 < config.cellWidth)
    (h : OnTrail p config calls walk) (reverse : Bool) :
    OnTrail p config (calls + 1) (walk.step reverse) := by
  obtain ⟨rest, hhistory⟩ := h.exists_cons
  have htrail := h.trail
  have hlength := h.length_le
  cases reverse with
  | true =>
    have hback : walk.machine.step true = walk.machine.stepBackward := rfl
    rw [h.stepBackward hp hw, hhistory] at hback
    cases rest with
    | nil =>
      refine ⟨?_, ?_, ?_, ?_, ?_⟩ <;> simp only [Walk.step, hback, record, List.tail_cons]
      · exact h.program_eq
      · exact h.config_eq
      · exact h.trail
      · exact h.head_eq
      · exact Nat.le_succ_of_le hlength
    | cons before rest =>
      rw [hhistory] at htrail hlength
      refine ⟨?_, ?_, ?_, ?_, ?_⟩ <;>
        simp only [Walk.step, hback, record, hhistory, List.tail_cons]
      · exact h.program_eq
      · exact h.config_eq
      · exact htrail.tail
      · rfl
      · simp only [List.length_cons] at hlength ⊢
        omega
  | false =>
    have hforth : walk.machine.step false = walk.machine.stepForward := rfl
    obtain ⟨hprogram, hconfig, ⟨hanswer, answer, emitted, hforward⟩ | ⟨hanswer, hstate⟩⟩ :=
      walk.machine.stepForward_cases
    · rw [h.program_eq, h.config_eq] at hforward
      refine ⟨?_, ?_, ?_, ?_, ?_⟩ <;> simp only [Walk.step, hforth, hanswer, record]
      · exact hprogram.trans h.program_eq
      · exact hconfig.trans h.config_eq
      · rw [hhistory] at htrail ⊢
        exact htrail.step hforward
      · rfl
      · exact Nat.succ_le_succ hlength
    · refine ⟨?_, ?_, ?_, ?_, ?_⟩ <;>
        simp only [Walk.step, hforth, record_of_ne_executed hanswer]
      · exact hprogram.trans h.program_eq
      · exact hconfig.trans h.config_eq
      · exact htrail
      · rw [hstate, h.head_eq]
      · exact Nat.le_succ_of_le hlength

/-- **Any number of calls** keeps the machine on a trail. -/
theorem OnTrail.foldl_step [Device δ] (hp : p.WellFormed) (hw : 0 < config.cellWidth)
    (h : OnTrail p config calls walk) (moves : List Bool) :
    OnTrail p config (calls + moves.length) (moves.foldl Walk.step walk) := by
  induction moves generalizing calls walk with
  | nil => exact h
  | cons reverse moves ih =>
    rw [List.foldl_cons, List.length_cons, Nat.add_comm moves.length, ← Nat.add_assoc]
    exact ih (h.step hp hw reverse)

end Walk

/-- Makes calls one after another, `true` for a step back, from a history of one state. -/
def walk [Device δ] (m : Machine δ) (moves : List Bool) : Walk δ :=
  moves.foldl Walk.step { machine := m, history := [m.state] }

/-- **Walks are reversible.** Load any program that passes its checks, and make any sequence of
steps forward and back, on any device. After every sequence of calls the machine is exactly in
the latest state of the history, records included; the next step back fails if that state is the
only one and succeeds otherwise, and does not touch the device. No counter of a loop exceeds the
number of calls. -/
theorem walk_reversible [Device δ] {m₀ m : Machine δ} {p : Program}
    (hw : 0 < m₀.config.cellWidth) (hload : m₀.install p = (.ok (), m)) (moves : List Bool) :
    (m.walk moves).history.head? = some (m.walk moves).machine.state ∧
      (m.walk moves).machine.stepBackward.1 =
        (if (m.walk moves).history.length = 1 then .error .reverseAtBeginning
          else .ok .executed) ∧
      (m.walk moves).machine.stepBackward.2.device = (m.walk moves).machine.device ∧
      ∀ i, ∀ n ∈ ((m.walk moves).machine.state.ledger.recordAt i).passes, n ≤ moves.length := by
  obtain ⟨hp, rfl⟩ := install_eq_ok_iff.mp hload
  have hstart : Walk.OnTrail p m₀.config 0
      { machine := { m₀ with program := p, state := .fresh p.size }, history := [.fresh p.size] } :=
    ⟨rfl, rfl, .fresh, rfl, Nat.le_refl _⟩
  have hwalk := hstart.foldl_step hp hw moves
  change Walk.OnTrail p m₀.config (0 + moves.length)
    (walk { m₀ with program := p, state := .fresh p.size } moves) at hwalk
  generalize walk { m₀ with program := p, state := .fresh p.size } moves = w at hwalk
  obtain ⟨rest, hhistory⟩ := hwalk.exists_cons
  have htrail := hwalk.trail
  have hlength := hwalk.length_le
  refine ⟨hwalk.head_eq, ?_, ?_, fun i n hn => ?_⟩
  · rw [hwalk.stepBackward hp hw, hhistory]
    cases rest <;> simp
  · rw [stepBackward_eq]
  · rw [hhistory] at htrail hlength
    have hn := htrail.passes_le i n hn
    simp only [List.length_cons] at hlength
    omega

/-- A machine that reads a number and counts it down in a loop, with the number 2 to read. -/
def countdown : Machine Buffer where
  program := { tokens := #[.start, { kind := .input }, { kind := .loopOpen, partner := some 4 },
    { kind := .add, delta := -1 }, { kind := .loopClose, partner := some 2 }, .finish] }
  config := {}
  state := .fresh 6
  device := { inputs := [2] }

theorem walk_reversible_countdown :
    0 < countdown.config.cellWidth ∧
      countdown.install countdown.program = (.ok (), countdown) ∧
      (countdown.walk [false, false, false, false, true, true]).history.length = 3 ∧
      (countdown.walk [false, false, false, false, true, true]).machine.stepBackward.1 =
        .ok .executed := by
  have hw : 0 < countdown.config.cellWidth := by decide
  have hload : countdown.install countdown.program = (.ok (), countdown) := rfl
  have hlength : (countdown.walk [false, false, false, false, true, true]).history.length = 3 := by
    decide +kernel
  obtain ⟨-, hback, -⟩ := walk_reversible hw hload [false, false, false, false, true, true]
  refine ⟨hw, hload, hlength, ?_⟩
  rw [hback, hlength]
  rfl

end Machine

end ReversibleTape
