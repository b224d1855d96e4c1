import ReversibleTape.Proofs.Reversal

/-!
# Steps in rounds

A step forward or back looks up the instruction that it executes or undoes, and then does its
work once (`Program.next?`, `Program.previous?`). Told differently, it is a loop without a bound:
look at the token at which the execution rests, and either work on it or be redirected to another
place and look again. `State.forwardRound` and `State.backwardRound` are one turn of this loop.
Here a token is fetched by its index, and a round gets lost where there is none.

**Both accounts agree** on well-formed programs (`State.forwardWithin_eq`,
`State.backwardWithin_eq`), and the loop never takes more than three rounds: a step forward goes
from the beginning to the first instruction or from the tail of a loop to its head, and a step back
goes from the tail of a loop to its head and, if that is the first instruction, once more to the
beginning.
-/

namespace ReversibleTape

/-- What one round of a step comes to. -/
inductive Round (α : Type)
  /-- The execution was redirected, and another round follows. -/
  | again (s : State)
  /-- The step is over. -/
  | over (answer : α) (s : State)
  /-- There is no token at the index. -/
  | lost

/-- The execution may have left the place where the step began. -/
def Outcome.moves : Outcome → Bool
  | .executed _ | .halted => true
  | .inputPending | .failed _ => false

namespace Program

/-- From every place in a well-formed program there is a next instruction, and it is neither the
opening frame nor the tail of a loop. -/
theorem WellFormed.exists_next? {p : Program} {pc : Nat} (hp : p.WellFormed)
    (hpc : pc ≤ p.endIndex) :
    ∃ i, p.next? pc = some i ∧ 0 < i ∧ i ≤ p.endIndex ∧ p.kindAt i ≠ .loopClose := by
  obtain ⟨i, hnext⟩ : ∃ i, p.next? pc = some i := by
    rw [next?]
    split
    · exact ⟨_, rfl⟩
    · rename_i htail
      obtain ⟨o, hlink, -⟩ := hp.link_of_tail htail
      exact ⟨o, hlink.partner_tail⟩
    · exact ⟨_, rfl⟩
  refine ⟨i, hnext, ?_⟩
  rcases hp.next?_cases hpc hnext with ⟨-, rfl⟩ | ⟨hpos, rfl, htail⟩ | hlink
  · refine ⟨Nat.one_pos, hp.endIndex_pos, fun hone => ?_⟩
    -- in front of the tail of a loop there is room for the head behind the opening frame
    obtain ⟨o, hlink, -⟩ := hp.link_of_tail hone
    have hlt := hlink.lt
    have hpos := hp.head_pos hlink
    omega
  · exact ⟨hpos, hpc, htail⟩
  · have hlt := hlink.lt
    exact ⟨hp.head_pos hlink, by omega, by simp [hlink.kind_head]⟩

end Program

namespace State

variable {α : Type} {p : Program} {width : UInt32} {answer : Option Int} {s s' : State}
  {i : Nat}

/-- Goes on from round to round, for a number of rounds. There is no answer if the step is not over
by then, or if a round got lost. -/
def rounds (round : State → Round α) : Nat → State → Option (α × State)
  | 0, _ => none
  | n + 1, s =>
    match round s with
    | .again s => rounds round n s
    | .over answer s => some (answer, s)
    | .lost => none

/-- A step that is refused goes back to where it began, from wherever it was redirected to. -/
def putBack (moves : α → Bool) (entry : Nat) (r : α × State) : α × State :=
  if moves r.1 then r else (r.1, { r.2 with pc := entry })

theorem rounds_again {round : State → Round α} (h : round s = .again s') (n : Nat) :
    rounds round (n + 1) s = rounds round n s' := by
  rw [rounds, h]

theorem rounds_over {round : State → Round α} {a : α} (h : round s = .over a s') (n : Nat) :
    rounds round (n + 1) s = some (a, s') := by
  rw [rounds, h]

/-! ### Forward -/

/-- One round of a step forward that began at the index `entry`. -/
def forwardRound (p : Program) (width : UInt32) (answer : Option Int) (entry : Nat) (s : State) :
    Round Outcome :=
  match p.tokens[s.pc]? with
  | none => .lost
  | some t =>
    match t.kind with
    | .start => .again { s with pc := s.pc + 1 }
    | .finish => .over (if s.pc = entry then .halted else .executed none) s
    | .loopClose =>
      match t.partner with
      | none => .over (.failed (.unlinkedLoop s.pc)) s
      | some head => .again { s with pc := head }
    | _ => .over (s.perform p width answer s.pc).1 (s.perform p width answer s.pc).2

/-- A step forward, in a number of rounds. -/
def forwardWithin (p : Program) (width : UInt32) (answer : Option Int) (n : Nat) (s : State) :
    Option (Outcome × State) :=
  (rounds (forwardRound p width answer s.pc) n s).map (putBack Outcome.moves s.pc)

/-- Wherever the execution rests, an instruction does the same. -/
theorem putBack_perform (hstart : p.kindAt i ≠ .start) (htail : p.kindAt i ≠ .loopClose)
    (hfinish : p.kindAt i ≠ .finish) :
    putBack Outcome.moves s.pc (perform p width answer i { s with pc := i }) =
      s.perform p width answer i := by
  rw [Program.kindAt] at hstart htail hfinish
  cases hkind : (p.tokenAt i).kind with
  | start => exact absurd hkind hstart
  | loopClose => exact absurd hkind htail
  | finish => exact absurd hkind hfinish
  | add | output | zero =>
    simp only [perform, hkind]
    rfl
  | shift =>
    simp only [perform, hkind]
    cases Pointer.shift? s.pointer (p.tokenAt i).delta <;> rfl
  | input =>
    simp only [perform, hkind]
    cases answer with
    | none => rfl
    | some value =>
      simp only
      cases Cell.ofInput? width value <;> rfl
  | loopOpen =>
    simp only [perform, hkind]
    cases (p.tokenAt i).partner <;> rfl

/-- The last round of a step forward executes the instruction at which the execution rests. -/
theorem rounds_forward_instr {entry : Nat} (hi : i < p.size) (hstart : p.kindAt i ≠ .start)
    (htail : p.kindAt i ≠ .loopClose) (hfinish : p.kindAt i ≠ .finish) (n : Nat) :
    (rounds (forwardRound p width answer entry) (n + 1) { s with pc := i }).map
        (putBack Outcome.moves s.pc) = some (s.perform p width answer i) := by
  have hround : forwardRound p width answer entry { s with pc := i } =
      .over (perform p width answer i { s with pc := i }).1
        (perform p width answer i { s with pc := i }).2 := by
    rw [forwardRound, Program.tokens_getElem? hi]
    rw [Program.kindAt] at hstart htail hfinish
    cases hkind : (p.tokenAt i).kind with
    | start => exact absurd hkind hstart
    | loopClose => exact absurd hkind htail
    | finish => exact absurd hkind hfinish
    | add | shift | output | input | zero | loopOpen => simp only [hkind]
  rw [rounds_over hround, Option.map_some]
  exact congrArg some (putBack_perform hstart htail hfinish)

/-- The last round of a step forward at the closing frame. -/
theorem rounds_forward_finish (hi : i < p.size) (hfinish : p.kindAt i = .finish) (n : Nat) :
    (rounds (forwardRound p width answer s.pc) (n + 1) { s with pc := i }).map
        (putBack Outcome.moves s.pc) = some (s.perform p width answer i) := by
  have hkind : (p.tokenAt i).kind = .finish := hfinish
  have hround : forwardRound p width answer s.pc { s with pc := i } =
      .over (if i = s.pc then .halted else .executed none) { s with pc := i } := by
    simp only [forwardRound, Program.tokens_getElem? hi, hkind]
  rw [rounds_over hround, Option.map_some]
  simp only [perform, hkind]
  split
  · rename_i heq
    subst heq
    rfl
  · rfl

/-- **A step forward takes three rounds at most** from any place in a well-formed program, and comes
to what `State.forward` says. -/
theorem forwardWithin_eq (hp : p.WellFormed) (hpc : s.pc ≤ p.endIndex) :
    s.forwardWithin p width answer 3 = some (s.forward p width answer) := by
  have hsize := hp.endIndex_lt_size
  obtain ⟨i, hnext, hpos, hle, htail⟩ := hp.exists_next? hpc
  have hwork : ∀ n, (rounds (forwardRound p width answer s.pc) (n + 1) { s with pc := i }).map
      (putBack Outcome.moves s.pc) = some (s.perform p width answer i) := by
    intro n
    rcases Nat.lt_or_eq_of_le hle with hlt | rfl
    · obtain ⟨hstart, hfinish⟩ := hp.kindAt_inner hpos hlt
      exact rounds_forward_instr (by omega) hstart htail hfinish n
    · exact rounds_forward_finish hsize hp.kindAt_endIndex n
  rw [forwardWithin, forward, hnext]
  rcases hp.next?_cases hpc hnext with ⟨hzero, rfl⟩ | ⟨-, rfl, -⟩ | hlink
  · have hkind : (p.tokenAt s.pc).kind = .start := by
      rw [hzero]
      exact hp.kindAt_zero
    have hround : forwardRound p width answer s.pc s = .again { s with pc := 1 } := by
      simp only [forwardRound, Program.tokens_getElem? (Nat.lt_of_le_of_lt hpc hsize), hkind]
      rw [hzero]
    rw [rounds_again hround]
    exact hwork 1
  · exact hwork 2
  · have hkind : (p.tokenAt s.pc).kind = .loopClose := hlink.kind_tail
    have hround : forwardRound p width answer s.pc s = .again { s with pc := i } := by
      simp only [forwardRound, Program.tokens_getElem? (Nat.lt_of_le_of_lt hpc hsize), hkind,
        hlink.partner_tail]
    rw [rounds_again hround]
    exact hwork 1

/-! ### Back -/

/-- The execution rests at an index from which a step was taken back, but not in front of the first
instruction: there it goes on to the beginning. -/
def restAt (i : Nat) (s : State) : Round (Except Fault Unit) :=
  if i = 1 then .again { s with pc := i } else .over (.ok ()) { s with pc := i }

/-- One round of a step back. -/
def backwardRound (p : Program) (width : UInt32) (s : State) : Round (Except Fault Unit) :=
  match s.pc with
  | 0 => .lost
  | i + 1 =>
    match p.tokens[i]? with
    | none => .lost
    | some t =>
      match t.kind with
      | .start | .output | .finish => restAt i s
      | .add => restAt i (s.setCell (Cell.sub width s.cell t.delta))
      | .shift =>
        match Pointer.shift? s.pointer (Word.negate t.delta) with
        | none => .over (.error (.pointerUnderflow i s.pointer (Word.negate t.delta))) s
        | some pointer => restAt i { s with pointer }
      | .input | .zero =>
        match (s.ledger.recordAt i).restore? with
        | none => .over (.error (.undoStackUnderflow i t.kind)) s
        | some (old, record) => restAt i ((s.setRecord i record).setCell old)
      | .loopOpen =>
        match t.partner with
        | none => .over (.error (.unlinkedLoop i)) s
        | some tail =>
          match (s.ledger.recordAt i).unevaluate? with
          | none => .over (.error (.undoStackUnderflow i t.kind)) s
          | some (.tail, record) => .over (.ok ()) { s.setRecord i record with pc := tail }
          | some (.above, record) => restAt i (s.setRecord i record)
      | .loopClose =>
        match t.partner with
        | none => .over (.error (.unlinkedLoop i)) s
        | some head => .again { s with pc := head + 1 }

/-- A step back, in a number of rounds. Nothing is behind the beginning. -/
def backwardWithin (p : Program) (width : UInt32) (n : Nat) (s : State) :
    Option (Except Fault Unit × State) :=
  if s.pc = 0 then some (.error .reverseAtBeginning, s)
  else (rounds (backwardRound p width) n s).map (putBack Except.isOk s.pc)

/-- A round that undoes an instruction is refused and changes nothing, goes back to the tail of a
loop, or rests at the instruction. -/
theorem backwardRound_cases (hi : i < p.size) (htail : p.kindAt i ≠ .loopClose) :
    (∃ fault, backwardRound p width { s with pc := i + 1 } =
        .over (.error fault) { s with pc := i + 1 } ∧
      s.undo p width i = (.error fault, s)) ∨
    (∃ s', backwardRound p width { s with pc := i + 1 } = .over (.ok ()) s' ∧
      s.undo p width i = (.ok (), s')) ∨
    ∃ s', backwardRound p width { s with pc := i + 1 } = restAt i s' ∧
      s.undo p width i = (.ok (), { s' with pc := Program.settle i }) := by
  rw [Program.kindAt] at htail
  simp only [backwardRound, undo, Program.tokens_getElem? hi]
  cases hkind : (p.tokenAt i).kind with
  | loopClose => exact absurd hkind htail
  | start | output | finish => exact .inr (.inr ⟨_, rfl, rfl⟩)
  | add => exact .inr (.inr ⟨_, rfl, rfl⟩)
  | shift =>
    simp only
    cases Pointer.shift? s.pointer (Word.negate (p.tokenAt i).delta) with
    | none => exact .inl ⟨_, rfl, rfl⟩
    | some pointer => exact .inr (.inr ⟨_, rfl, rfl⟩)
  | input | zero =>
    simp only
    cases (s.ledger.recordAt i).restore? with
    | none => exact .inl ⟨_, rfl, rfl⟩
    | some saved => exact .inr (.inr ⟨_, rfl, rfl⟩)
  | loopOpen =>
    simp only
    cases (p.tokenAt i).partner with
    | none => exact .inl ⟨_, rfl, rfl⟩
    | some tail =>
      simp only
      cases (s.ledger.recordAt i).unevaluate? with
      | none => exact .inl ⟨_, rfl, rfl⟩
      | some evaluation =>
        obtain ⟨origin, record⟩ := evaluation
        cases origin with
        | tail => exact .inr (.inl ⟨_, rfl, rfl⟩)
        | above => exact .inr (.inr ⟨_, rfl, rfl⟩)

/-- The last two rounds of a step back undo the instruction in front of which the execution is, and
lead on to the beginning if it is the first one. -/
theorem rounds_backward_instr (hp : p.WellFormed) (hi : i < p.size)
    (htail : p.kindAt i ≠ .loopClose) (n : Nat) :
    (rounds (backwardRound p width) (n + 2) { s with pc := i + 1 }).map
        (putBack Except.isOk s.pc) = some (s.undo p width i) := by
  rcases backwardRound_cases hi htail with ⟨fault, hround, hundo⟩ | ⟨s', hround, hundo⟩ |
    ⟨s', hround, hundo⟩
  · rw [rounds_over hround, hundo]
    rfl
  · rw [rounds_over hround, hundo]
    rfl
  · rw [restAt] at hround
    rw [hundo, Program.settle]
    split at hround
    · rename_i hone
      have hkind : (p.tokenAt 0).kind = .start := hp.kindAt_zero
      have hstart :
          backwardRound p width { s' with pc := 1 } = .over (.ok ()) { s' with pc := 0 } := by
        simp only [backwardRound, Program.tokens_getElem? (Nat.zero_lt_of_lt hi), hkind]
        rfl
      subst hone
      rw [rounds_again hround, rounds_over hstart, if_pos rfl]
      rfl
    · rename_i hne
      rw [rounds_over hround, if_neg hne]
      rfl

/-- **A step back takes three rounds at most** from any place in a well-formed program, and comes to
what `State.backward` says. -/
theorem backwardWithin_eq (hp : p.WellFormed) (hpc : s.pc ≤ p.endIndex) :
    s.backwardWithin p width 3 = some (s.backward p width) := by
  have hsize := hp.endIndex_lt_size
  rw [backwardWithin]
  split
  · rename_i hzero
    rw [backward, if_pos hzero]
  · rename_i hne
    obtain ⟨i, hi⟩ := Nat.exists_eq_succ_of_ne_zero hne
    by_cases hkind : p.kindAt i = .loopClose
    · obtain ⟨o, hlink, -⟩ := hp.link_of_tail hkind
      have hround : backwardRound p width s = .again { s with pc := o + 1 } := by
        have hkind' : (p.tokenAt i).kind = .loopClose := hkind
        simp only [backwardRound, hi, Program.tokens_getElem? (show i < p.size by omega), hkind',
          hlink.partner_tail]
      have hlt := hlink.lt
      rw [rounds_again hround, backward_of_pc_eq_tail hi hlink]
      exact rounds_backward_instr hp (by omega) (by simp [hlink.kind_head]) 0
    · have hrounds : (rounds (backwardRound p width) 3 { s with pc := i + 1 }).map
          (putBack Except.isOk s.pc) = some (s.undo p width i) :=
        rounds_backward_instr hp (by omega) hkind 1
      rw [show i + 1 = s.pc from hi.symm] at hrounds
      rw [backward_of_pc_eq_succ hi hkind]
      exact hrounds

end State

end ReversibleTape
