import ReversibleTape.Proofs.Reversal

/-!
# What all calls preserve

Besides steps, a machine can be asked for runs, for rewinds and for a new start. All of these are
made of steps forward and back, so they keep a machine on a trail of its program
(`Machine.Follows`), and **whatever holds along trails holds after any sequence of calls**. Trails
only ever go forward; what steps back do need not be looked at again.

`State.Orderly` collects what is known of the states on trails. It adds to the invariant of
reversal (`State.Sound`) the range of pointers and of the values that are written down, which
instructions write down anything at all, and what the current cell tells at the two places right
behind the ends of a loop: inside it is not zero, and beyond it is.
-/

namespace ReversibleTape

namespace State

variable {p : Program} {width : UInt32} {answer : Option Int} {s s' : State} {i k : Nat}
  {emitted : Option Char}

/-! ### Parts of an effect -/

/-- A step writes into one record at most: it saves the cell that it overwrites, or it evaluates
the head of a loop. -/
theorem Effect.recordAt_cases (h : Effect p width answer s i emitted s') (k : Nat) :
    s'.ledger.recordAt k = s.ledger.recordAt k ∨
      (k = i ∧ (p.kindAt i = .zero ∨ p.kindAt i = .input) ∧
        s'.ledger.recordAt k = (s.ledger.recordAt k).save s.cell) ∨
      (k = i ∧ p.kindAt i = .loopOpen ∧
        s'.ledger.recordAt k = (s.ledger.recordAt k).evaluate (s.cell != 0)) := by
  have hwrite : ∀ r, (s.ledger.write i r).recordAt k = s.ledger.recordAt k ∨
      (k = i ∧ (s.ledger.write i r).recordAt k = r) := by
    intro r
    rw [Ledger.recordAt_write]
    split
    · rename_i hk
      exact .inr ⟨hk.1.symm, rfl⟩
    · exact .inl rfl
  cases h with
  | add | shift | output | frame => exact .inl rfl
  | input hkind | zero hkind =>
    rcases hwrite ((s.ledger.recordAt i).save s.cell) with hsame | ⟨rfl, hnew⟩
    · exact .inl hsame
    · exact .inr (.inl ⟨rfl, by simp [hkind], hnew⟩)
  | head hkind =>
    rcases hwrite ((s.ledger.recordAt i).evaluate (s.cell != 0)) with hsame | ⟨rfl, hnew⟩
    · exact .inl hsame
    · exact .inr (.inr ⟨rfl, hkind, hnew⟩)

/-- Where a step leads: behind its instruction, or behind one of the ends of a loop, where the
current cell tells which. -/
theorem Effect.pc_cases (hp : p.WellFormed) (hs : Sound p width s)
    (hnext : p.next? s.pc = some i) (h : Effect p width answer s i emitted s') :
    (s'.pc = i + 1 ∧ p.kindAt i ≠ .loopOpen ∧ p.kindAt i ≠ .loopClose) ∨
      (∃ c, p.Link i c ∧ s'.cell = s.cell ∧
        ((s.cell ≠ 0 ∧ s'.pc = i + 1) ∨ (s.cell = 0 ∧ s'.pc = c + 1))) ∨
      p.endIndex = 1 := by
  cases h with
  | add hkind | shift hkind | output hkind | input hkind | zero hkind =>
    exact .inl ⟨rfl, by simp [hkind], by simp [hkind]⟩
  | head hkind hpartner =>
    obtain ⟨c, hlink, -⟩ := hp.link_of_head hkind
    obtain rfl := Option.some.inj (hlink.partner_head.symm.trans hpartner)
    refine .inr (.inl ⟨c, hlink, rfl, ?_⟩)
    by_cases hcell : s.cell = 0
    · exact .inr ⟨hcell, by simp [hcell]⟩
    · exact .inl ⟨hcell, by simp [hcell]⟩
  | frame hkind hmoved => exact .inr (.inr (hp.endIndex_eq_one hs.pc_le hnext hkind hmoved).2.2)

/-! ### Orderly states -/

/-- What holds of every state that a machine comes to. The law of the flags and what depends on it
are part of `State.Sound`. -/
structure Orderly (p : Program) (width : UInt32) (s : State) : Prop extends Sound p width s where
  pointer_le : (s.pointer : Int) ≤ Word.greatest
  undo_lt : ∀ {i}, ∀ value ∈ (s.ledger.recordAt i).undo, value < width
  /-- Only instructions that overwrite a cell save values. -/
  kind_of_undo : ∀ {i}, (s.ledger.recordAt i).undo ≠ [] →
    p.kindAt i = .zero ∨ p.kindAt i = .input
  /-- Only heads of loops count passes and are in progress. -/
  kind_of_passes : ∀ {i}, (s.ledger.recordAt i).passes ≠ [] ∨
    (s.ledger.recordAt i).inProgress = true → p.kindAt i = .loopOpen
  /-- A loop is entered only if the current cell is not zero. -/
  cell_ne_zero : ∀ {o c}, p.Link o c → s.pc = o + 1 → s.cell ≠ 0
  /-- A loop is left only if the current cell is zero. -/
  cell_eq_zero : ∀ {o c}, p.Link o c → s.pc = c + 1 → s.cell = 0

/-- A program that is just loaded is in an orderly state. -/
theorem orderly_fresh (hw : 0 < width) : Orderly p width (fresh p.size) where
  toSound := sound_fresh hw
  pointer_le := by simp [fresh, Word.greatest]
  undo_lt := by simp [fresh, Record.blank]
  kind_of_undo := by simp [fresh, Record.blank]
  kind_of_passes := by simp [fresh, Record.blank]
  cell_ne_zero _ hpc := absurd hpc (Nat.zero_ne_add_one _)
  cell_eq_zero _ hpc := absurd hpc (Nat.zero_ne_add_one _)

/-- A step keeps the pointer in its range. -/
theorem Effect.pointer_le (h : Effect p width answer s i emitted s')
    (hs : (s.pointer : Int) ≤ Word.greatest) : (s'.pointer : Int) ≤ Word.greatest := by
  cases h with
  | shift _ hmoved =>
    obtain ⟨-, hle, hpointer⟩ := Pointer.shift?_eq_some_iff.mp hmoved
    exact hpointer ▸ hle
  | add | output | input | zero | head | frame => exact hs

/-- **Steps forward keep states orderly.** -/
theorem Orderly.forward (hp : p.WellFormed) (hw : 0 < width) (hs : Orderly p width s)
    (h : s.forward p width answer = (.executed emitted, s')) : Orderly p width s' := by
  obtain ⟨i, hnext, heffect⟩ := effect_of_forward h
  have hpc := heffect.pc_cases hp hs.toSound hnext
  have hsmall : p.endIndex = 1 → ∀ {o c}, ¬p.Link o c := by
    intro hend o c hlink
    have hpos := hp.head_pos hlink
    have hlt := hlink.lt
    have hc := hp.tail_lt_endIndex hlink
    omega
  refine
    { toSound := hs.toSound.forward hp hw h
      pointer_le := heffect.pointer_le hs.pointer_le
      undo_lt := ?_
      kind_of_undo := ?_
      kind_of_passes := ?_
      cell_ne_zero := ?_
      cell_eq_zero := ?_ }
  · intro k value hvalue
    rcases heffect.recordAt_cases k with hsame | ⟨rfl, -, hnew⟩ | ⟨rfl, -, hnew⟩
    · exact hs.undo_lt value (hsame ▸ hvalue)
    · rw [hnew] at hvalue
      rcases List.mem_cons.mp hvalue with rfl | hold
      · exact hs.cell_lt _
      · exact hs.undo_lt value hold
    · rw [hnew] at hvalue
      exact hs.undo_lt value hvalue
  · intro k hundo
    rcases heffect.recordAt_cases k with hsame | ⟨rfl, hkind, -⟩ | ⟨rfl, -, hnew⟩
    · exact hs.kind_of_undo (hsame ▸ hundo)
    · exact hkind
    · rw [hnew] at hundo
      exact hs.kind_of_undo hundo
  · intro k hpasses
    rcases heffect.recordAt_cases k with hsame | ⟨rfl, -, hnew⟩ | ⟨rfl, hkind, -⟩
    · exact hs.kind_of_passes (hsame ▸ hpasses)
    · rw [hnew] at hpasses
      exact hs.kind_of_passes hpasses
    · exact hkind
  · intro o c hlink hbehind
    rcases hpc with ⟨hpc, hhead, -⟩ | ⟨c', hlink', hcell, ⟨hne, -⟩ | ⟨-, hpc⟩⟩ | hend
    · obtain rfl : i = o := by omega
      exact absurd hlink.kind_head hhead
    · exact hcell ▸ hne
    · obtain rfl : o = c' := by omega
      exact absurd rfl (hlink.head_ne_tail hlink')
    · exact absurd hlink (hsmall hend)
  · intro o c hlink hbehind
    rcases hpc with ⟨hpc, -, htail⟩ | ⟨c', hlink', hcell, ⟨-, hpc⟩ | ⟨hzero, -⟩⟩ | hend
    · obtain rfl : i = c := by omega
      exact absurd hlink.kind_tail htail
    · obtain rfl : i = c := by omega
      exact absurd rfl (hlink'.head_ne_tail hlink)
    · exact hcell.trans hzero
    · exact absurd hlink (hsmall hend)

/-- **All states on a trail are orderly.** -/
theorem Trail.orderly (hp : p.WellFormed) (hw : 0 < width) {history : List State}
    (h : Trail p width (s :: history)) : Orderly p width s :=
  h.invariant (orderly_fresh hw) fun hs moved => hs.forward hp hw moved

end State

/-! ### Machines on a trail -/

namespace Machine

variable {δ : Type} {p : Program} {config : Config} {m : Machine δ}

/-- The machine runs the program under the configuration, and its state is the latest of a
trail. -/
structure Follows (p : Program) (config : Config) (m : Machine δ) : Prop where
  program_eq : m.program = p
  config_eq : m.config = config
  exists_trail : ∃ history, State.Trail p config.cellWidth (m.state :: history)

theorem follows_of_install {m₀ : Machine δ} (h : m₀.install p = (.ok (), m)) :
    Follows p m₀.config m := by
  obtain ⟨-, rfl⟩ := install_eq_ok_iff.mp h
  exact ⟨rfl, rfl, [], .fresh⟩

namespace Follows

/-- A step back stays on the trail. -/
theorem stepBackward (hp : p.WellFormed) (hw : 0 < config.cellWidth) (h : Follows p config m) :
    Follows p config m.stepBackward.2 := by
  obtain ⟨rfl, rfl, history, htrail⟩ := h
  rw [stepBackward_eq, htrail.backward hp hw]
  cases history with
  | nil => exact ⟨rfl, rfl, _, htrail⟩
  | cons before history => exact ⟨rfl, rfl, _, htrail.tail⟩

theorem rewindFrom (hp : p.WellFormed) (hw : 0 < config.cellWidth) (h : Follows p config m)
    (steps budget : Nat) : Follows p config (m.rewindFrom steps budget).2 := by
  induction budget generalizing m steps with
  | zero =>
    rw [Machine.rewindFrom]
    split <;> exact h
  | succ budget ih =>
    have hback := h.stepBackward hp hw
    rw [Machine.rewindFrom]
    split
    · exact h
    · split
      · rename_i m' hstep
        rw [hstep] at hback
        exact ih hback _
      · rename_i m' hstep
        rw [hstep] at hback
        exact hback

/-- A new start begins another trail. -/
theorem reset (h : Follows p config m) : Follows p config m.reset := by
  obtain ⟨rfl, rfl, -⟩ := h
  exact ⟨rfl, rfl, [], .fresh⟩

theorem reset_eq (h : Follows p config m) :
    m.reset = { program := p, config, state := .fresh p.size, device := m.device } := by
  obtain ⟨rfl, rfl, -⟩ := h
  rfl

variable [Device δ]

/-- A step forward makes the trail longer, or leaves the state as it was. -/
theorem stepForward (h : Follows p config m) : Follows p config m.stepForward.2 := by
  obtain ⟨rfl, rfl, history, htrail⟩ := h
  obtain ⟨hprogram, hconfig, ⟨-, answer, emitted, hforward⟩ | ⟨-, hstate⟩⟩ :=
    m.stepForward_cases
  · exact ⟨hprogram, hconfig, _, htrail.step hforward⟩
  · exact ⟨hprogram, hconfig, history, hstate ▸ htrail⟩

theorem step (hp : p.WellFormed) (hw : 0 < config.cellWidth) (h : Follows p config m)
    (reverse : Bool) : Follows p config (m.step reverse).2 := by
  cases reverse with
  | false => exact h.stepForward
  | true => exact h.stepBackward hp hw

theorem runFrom (h : Follows p config m) (steps budget : Nat) :
    Follows p config (m.runFrom steps budget).2 := by
  induction budget generalizing m steps with
  | zero =>
    rw [Machine.runFrom]
    split <;> exact h
  | succ budget ih =>
    have hforth := h.stepForward
    rw [Machine.runFrom]
    split
    · exact h
    · split
      all_goals
        rename_i m' hstep
        rw [hstep] at hforth
      · exact ih hforth _
      all_goals exact hforth

/-- Any walk stays on a trail. -/
theorem walk (hp : p.WellFormed) (hw : 0 < config.cellWidth) (h : Follows p config m)
    (moves : List Bool) : Follows p config (m.walk moves).machine := by
  have hfold : ∀ {walk : Walk δ}, Follows p config walk.machine →
      Follows p config (moves.foldl Walk.step walk).machine := by
    induction moves with
    | nil => exact id
    | cons reverse moves ih => exact fun hwalk => ih (hwalk.step hp hw reverse)
  exact hfold h

end Follows

/-! ### Calls -/

/-- What a machine can be asked for. -/
inductive Call
  /-- One step, forward or back. -/
  | step (reverse : Bool)
  /-- Steps forward, up to a number. -/
  | run (budget : Nat)
  /-- Steps back, up to a number. -/
  | rewind (budget : Nat)
  /-- A new start. -/
  | reset

variable [Device δ]

/-- The machine after a call. -/
def call (m : Machine δ) : Call → Machine δ
  | .step reverse => (m.step reverse).2
  | .run budget => (m.run budget).2
  | .rewind budget => (m.rewind budget).2
  | .reset => m.reset

/-- The machine after a sequence of calls. -/
def after (m : Machine δ) (calls : List Call) : Machine δ := calls.foldl call m

/-- **One call** keeps the machine on a trail. -/
theorem Follows.call (hp : p.WellFormed) (hw : 0 < config.cellWidth) (h : Follows p config m)
    (c : Call) : Follows p config (m.call c) := by
  cases c with
  | step reverse => exact h.step hp hw reverse
  | run budget => exact h.runFrom 0 budget
  | rewind budget => exact h.rewindFrom hp hw 0 budget
  | reset => exact h.reset

/-- **Any sequence of calls** keeps the machine on a trail. -/
theorem Follows.after (hp : p.WellFormed) (hw : 0 < config.cellWidth) (h : Follows p config m)
    (calls : List Call) : Follows p config (m.after calls) := by
  induction calls generalizing m with
  | nil => exact h
  | cons c calls ih => exact ih (h.call hp hw c)

/-- **Machines stay orderly.** Load any program that passes its checks, and make any sequence of
calls, on any device. The state is orderly, the program and the configuration are those that were
loaded, and a new start leads to the machine as it was right after the load, on the device that it
has by now. In such a program every head of a loop has a tail, so the laws of orderly states speak
of all loops. -/
theorem orderly_after {m₀ : Machine δ} (hw : 0 < m₀.config.cellWidth)
    (hload : m₀.install p = (.ok (), m)) (calls : List Call) :
    State.Orderly p m₀.config.cellWidth (m.after calls).state ∧
      (∀ o, p.kindAt o = .loopOpen → ∃ c, p.Link o c) ∧
      (m.after calls).program = p ∧ (m.after calls).config = m₀.config ∧
      (m.after calls).reset = { m with device := (m.after calls).device } := by
  obtain ⟨hp, hm⟩ := install_eq_ok_iff.mp hload
  have hfollows := (follows_of_install hload).after hp hw calls
  obtain ⟨history, htrail⟩ := hfollows.exists_trail
  refine ⟨htrail.orderly hp hw, fun o ho => ?_, hfollows.program_eq, hfollows.config_eq, ?_⟩
  · obtain ⟨c, hlink, -⟩ := hp.link_of_head ho
    exact ⟨c, hlink⟩
  · rw [hfollows.reset_eq]
    generalize (m.after calls).device = device
    rw [hm]

theorem orderly_after_countdown :
    0 < countdown.config.cellWidth ∧
      countdown.install countdown.program = (.ok (), countdown) ∧
      (countdown.after [.run 3, .step true]).state.pc = 3 ∧
      ((countdown.after [.run 3, .step true]).state.ledger.recordAt 2).inProgress = true ∧
      (countdown.after [.run 3, .step true]).state.cell ≠ 0 ∧
      (countdown.after [.run 3, .step true]).reset = { countdown with device := {} } := by
  have hw : 0 < countdown.config.cellWidth := by decide
  have hload : countdown.install countdown.program = (.ok (), countdown) := rfl
  have hpc : (countdown.after [.run 3, .step true]).state.pc = 3 := by decide +kernel
  have hlink : countdown.program.Link 2 4 := ⟨rfl, rfl, rfl, rfl, by decide⟩
  obtain ⟨horderly, -, -, -, hreset⟩ := orderly_after hw hload [.run 3, .step true]
  refine ⟨hw, hload, hpc, ?_, horderly.cell_ne_zero hlink hpc, hreset⟩
  rw [horderly.inProgress_iff hlink, hpc]
  decide

end Machine

end ReversibleTape
