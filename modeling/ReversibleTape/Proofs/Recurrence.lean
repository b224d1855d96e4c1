import ReversibleTape.Proofs.Rewinding

/-!
# No state recurs

An execution may come back to the same place with the same pointer and the same tape, again and
again if it is caught in a loop. It does not come back to the same state: **the place and the
counters of the loops tell how many steps were made** (`Machine.net_eq_of_passes_eq`). Nothing else
that is written down is needed for that, although most instructions write nothing into a counter.

The number of steps is nowhere stored, and it is not computed here either. The place and the
counters are a clock (`State.clock`), and where a step back moves the clock depends on the clock
alone (`State.clock_of_backward`). So two executions that agree on the clock agree on it all the
way back, and come to the beginning at the same time (`State.Trail.length_eq_of_clock_eq`).
-/

namespace ReversibleTape

/-- The place of an execution and the counters of all loops. -/
@[ext] structure Clock where
  pc : Nat
  /-- The returns to the head of a loop, by its index. -/
  passes : Nat → List Nat

namespace Clock

/-- The clock with other counters for one loop. -/
def setPasses (c : Clock) (i : Nat) (passes : List Nat) : Clock :=
  { c with passes := fun k => if k = i then passes else c.passes k }

theorem setPasses_self (c : Clock) (i : Nat) : c.setPasses i (c.passes i) = c := by
  refine Clock.ext rfl (funext fun k => ?_)
  by_cases hk : k = i <;> simp [setPasses, hk]

/-- The clock before the last step: only at the head of a loop has a counter turned. -/
def back (p : Program) (c : Clock) : Clock :=
  match p.previous? c.pc with
  | none => c
  | some i =>
    if p.kindAt i = .loopOpen then
      match c.passes i with
      | [] => c
      | 0 :: passes => { c.setPasses i passes with pc := Program.settle i }
      | (n + 1) :: passes =>
        { c.setPasses i (n :: passes) with pc := (p.tokenAt i).partner.getD i }
    else { c with pc := Program.settle i }

end Clock

namespace State

variable {p : Program} {width width' : UInt32} {s s' t : State} {history history' : List State}

/-- The clock of a state. -/
def clock (s : State) : Clock where
  pc := s.pc
  passes i := (s.ledger.recordAt i).passes

/-- A record shows on the clock by its counters. -/
theorem clock_setRecord {i : Nat} (hi : i < s.ledger.size) (r : Record) (pc : Nat) :
    clock { s.setRecord i r with pc } = { s.clock.setPasses i r.passes with pc } := by
  refine Clock.ext rfl (funext fun k => ?_)
  simp only [clock, setRecord, Clock.setPasses, Ledger.recordAt_write, hi, and_true]
  by_cases hk : k = i
  · simp [hk]
  · simp [hk, Ne.symm hk]

/-- Saved values do not show on the clock. -/
theorem clock_restore {i : Nat} {value : UInt32} {r : Record} (hi : i < s.ledger.size)
    (h : (s.ledger.recordAt i).restore? = some (value, r)) (pc : Nat) :
    clock { s.setRecord i r with pc } = { s.clock with pc } := by
  have hpasses : r.passes = s.clock.passes i := by
    rw [Record.restore?] at h
    split at h
    · cases h
    · cases h
      rfl
  rw [clock_setRecord hi, hpasses, Clock.setPasses_self]

/-- **A step back moves the clock as the clock says.** -/
theorem clock_of_backward (hsize : s.ledger.size = p.size)
    (h : s.backward p width = (.ok (), s')) : s'.clock = s.clock.back p := by
  rw [backward] at h
  split at h
  · cases h
  · cases hprevious : p.previous? s.pc with
    | none => simp [hprevious] at h
    | some i =>
      have hlt : (p.tokenAt i).kind ≠ .finish → i < s.ledger.size := fun hkind =>
        hsize ▸ Program.lt_size_of_kindAt hkind
      rw [Clock.back, show p.previous? s.clock.pc = some i from hprevious]
      simp only [hprevious, undo] at h ⊢
      rw [Program.kindAt]
      cases hkind : (p.tokenAt i).kind with
      | add | start | loopClose | output | finish =>
        simp only [hkind] at h
        cases h
        rfl
      | shift =>
        simp only [hkind] at h
        split at h
        · cases h
        · cases h
          rfl
      | input | zero =>
        simp only [hkind] at h
        split at h
        · cases h
        · rename_i hrestore
          cases h
          exact clock_restore (hlt (by simp [hkind])) hrestore _
      | loopOpen =>
        have hi : i < s.ledger.size := hlt (by simp [hkind])
        simp only [hkind] at h
        split at h
        · cases h
        · rename_i tail hpartner
          rw [if_pos rfl, show s.clock.passes i = (s.ledger.recordAt i).passes from rfl, hpartner]
          -- the counter that the step back looks at is on the clock
          cases hpasses : (s.ledger.recordAt i).passes with
          | nil => simp [Record.unevaluate?, hpasses] at h
          | cons passes rest =>
            cases passes with
            | zero | succ n =>
              simp only [Record.unevaluate?, hpasses] at h
              cases h
              exact clock_setRecord hi _ _

/-- **The clock tells how many steps were made**, on whatever answers and for whatever width. -/
theorem Trail.length_eq_of_clock_eq (hp : p.WellFormed) (hw : 0 < width) (hw' : 0 < width')
    (h : Trail p width (s :: history)) (h' : Trail p width' (t :: history'))
    (hclock : s.clock = t.clock) : history.length = history'.length := by
  induction history generalizing s t history' with
  | nil =>
    have hzero : t.pc = 0 := by
      rw [← show s.pc = t.pc from congrArg Clock.pc hclock]
      exact (h.pc_eq_zero_iff hp hw).mpr rfl
    rw [(h'.pc_eq_zero_iff hp hw').mp hzero]
  | cons before history ih =>
    cases history' with
    | nil =>
      have hzero : s.pc = 0 := by
        rw [show s.pc = t.pc from congrArg Clock.pc hclock]
        exact (h'.pc_eq_zero_iff hp hw').mpr rfl
      exact absurd ((h.pc_eq_zero_iff hp hw).mp hzero) (List.cons_ne_nil _ _)
    | cons before' history' =>
      have hback := clock_of_backward (h.sound hp hw).size_ledger (h.backward hp hw)
      have hback' := clock_of_backward (h'.sound hp hw').size_ledger (h'.backward hp hw')
      have hclock' : before.clock = before'.clock := by rw [hback, hback', hclock]
      rw [List.length_cons, List.length_cons, ih h.tail h'.tail hclock']

/-- A state on a trail is the latest one of a shorter trail. -/
theorem Trail.exists_of_mem (h : Trail p width history) (hs : s ∈ history) :
    ∃ earlier, Trail p width (s :: earlier) ∧ earlier.length < history.length := by
  induction h with
  | fresh =>
    obtain rfl := List.mem_singleton.mp hs
    exact ⟨[], .fresh, Nat.one_pos⟩
  | step trail moved ih =>
    rcases List.mem_cons.mp hs with rfl | hs
    · exact ⟨_, trail.step moved, Nat.lt_succ_self _⟩
    · obtain ⟨earlier, htrail, hlt⟩ := ih hs
      exact ⟨earlier, htrail, Nat.lt_succ_of_lt hlt⟩

/-- **No state comes twice on a trail.** -/
theorem Trail.nodup (hp : p.WellFormed) (hw : 0 < width) (h : Trail p width history) :
    history.Nodup := by
  induction h with
  | fresh => simp
  | @step s s' history _ _ trail moved ih =>
    refine List.nodup_cons.mpr ⟨fun hmem => ?_, ih⟩
    obtain ⟨earlier, hearlier, hlt⟩ := trail.exists_of_mem hmem
    have hlength := (trail.step moved).length_eq_of_clock_eq hp hw hw hearlier rfl
    omega

end State

namespace Machine

variable {δ ε : Type} [Device δ] [Device ε] {p : Program}

/-- **No state recurs.** Load a program that passes its checks into two machines, on any devices
and with any cell widths, and make any sequences of steps forward and back on each of them. If the
executions rest at the same place and all loops have the same counters, then the same number of
steps forward is left of both. In particular the states of a history, which are all that a walk
came through and did not take back, are different from each other. -/
theorem net_eq_of_passes_eq {m₀ m : Machine δ} {l₀ l : Machine ε}
    (hw : 0 < m₀.config.cellWidth) (hw' : 0 < l₀.config.cellWidth)
    (hload : m₀.install p = (.ok (), m)) (hload' : l₀.install p = (.ok (), l))
    (moves moves' : List Bool) :
    let s := (m.walk moves).machine.state
    let t := (l.walk moves').machine.state
    (s.pc = t.pc → (∀ i, (s.ledger.recordAt i).passes = (t.ledger.recordAt i).passes) →
        m.net moves = l.net moves') ∧
      (m.walk moves).history.Nodup := by
  intro s t
  obtain ⟨hp, -⟩ := install_eq_ok_iff.mp hload
  obtain ⟨-, ⟨rest, hhistory⟩, hlog, hnet⟩ := chronicle_walk hw hload moves
  obtain ⟨-, ⟨rest', hhistory'⟩, hlog', hnet'⟩ := chronicle_walk hw' hload' moves'
  refine ⟨fun hpc hpasses => ?_, hlog.trail.nodup hp hw⟩
  have hlength := hlog.length_eq
  have hlength' := hlog'.length_eq
  rw [hhistory] at hlog hlength
  rw [hhistory'] at hlog' hlength'
  have hsame := hlog.trail.length_eq_of_clock_eq hp hw hw' hlog'.trail
    (Clock.ext hpc (funext hpasses))
  simp only [List.length_cons] at hlength hlength'
  omega

/-- A machine that is caught in an empty loop. -/
def spinner : Machine Buffer where
  program := { tokens := #[.start, { kind := .add, delta := 1 },
    { kind := .loopOpen, partner := some 3 }, { kind := .loopClose, partner := some 2 }, .finish] }
  config := {}
  state := .fresh 5
  device := {}

theorem net_eq_of_passes_eq_spinner :
    let earlier := (spinner.walk [false, false, false]).machine.state
    let later := (spinner.walk [false, false, false, false, false]).machine.state
    let back := (spinner.walk [false, false, false, false, true]).machine.state
    0 < spinner.config.cellWidth ∧ spinner.install spinner.program = (.ok (), spinner) ∧
      (earlier.pc, earlier.pointer, earlier.tape) = (later.pc, later.pointer, later.tape) ∧
      earlier ≠ later ∧
      (spinner.walk [false, false, false, false, false]).history.Nodup ∧
      earlier.pc = back.pc ∧
      (∀ i, (earlier.ledger.recordAt i).passes = (back.ledger.recordAt i).passes) ∧
      spinner.net [false, false, false] = spinner.net [false, false, false, false, true] ∧
      spinner.net [false, false, false] = 3 := by
  intro earlier later back
  have hw : 0 < spinner.config.cellWidth := by decide
  have hload : spinner.install spinner.program = (.ok (), spinner) := rfl
  have hback : earlier = back := by decide +kernel
  have hpasses (i : Nat) :
      (earlier.ledger.recordAt i).passes = (back.ledger.recordAt i).passes := by rw [hback]
  refine ⟨hw, hload, by decide +kernel, by decide +kernel, ?_, congrArg State.pc hback, hpasses,
    ?_, by decide +kernel⟩
  · exact (net_eq_of_passes_eq hw hw hload hload [false, false, false, false, false] []).2
  · exact (net_eq_of_passes_eq hw hw hload hload [false, false, false]
      [false, false, false, false, true]).1 (congrArg State.pc hback) hpasses

end Machine

end ReversibleTape
