import ReversibleTape.Proofs.Replay

/-!
# Rewinding

How far a walk has come is the number of its executed steps forward less that of its successful
steps back (`Machine.net`). A rewind has no measure of its own to go by: it steps back until the
execution rests at the beginning, and on the way jumps from heads of loops to their tails. It ends
because the history is a trail, of which **each step back takes off one state**
(`Machine.rewindFrom_of_trail`), and the states of a history are one more than how far the walk
has come.

What was taken back can be done again. `Machine.exchanges` is what the steps that were not taken
back read and emitted, and a `State.Chronicle` is a trail together with these exchanges. **On a
buffer that offers what was read, a run goes through the same states again** and emits the same
characters (`Machine.advances_of_chronicle`).
-/

namespace ReversibleTape

/-- What a step read from its device, and what it emitted. -/
structure Exchange where
  read : Option Int
  emitted : Option Char
  deriving DecidableEq

namespace Exchange

/-- The values that were read, in order. -/
def values (log : List Exchange) : List Int := log.filterMap read

/-- The characters that were emitted, in order. -/
def text (log : List Exchange) : String := String.ofList (log.filterMap emitted)

theorem values_append (log log' : List Exchange) :
    values (log ++ log') = values log ++ values log' :=
  List.filterMap_append

theorem text_append (log log' : List Exchange) : text (log ++ log') = text log ++ text log' := by
  rw [text, List.filterMap_append, String.ofList_append]
  rfl

theorem values_singleton (e : Exchange) : values [e] = e.read.toList := by
  cases e with
  | mk read emitted => cases read <;> rfl

theorem text_singleton (e : Exchange) : text [e] = String.ofList e.emitted.toList := by
  cases e with
  | mk read emitted => cases emitted <;> rfl

end Exchange

/-! ### Chronicles -/

namespace State

variable {p : Program} {width : UInt32} {s : State} {history : List State} {log : List Exchange}
  {k : Nat}

/-- A trail together with what its steps read and emitted, latest first. -/
inductive Chronicle (p : Program) (width : UInt32) : List State → List Exchange → Prop
  | fresh : Chronicle p width [fresh p.size] []
  | step {s s' : State} {history : List State} {log : List Exchange} {e : Exchange}
      (chronicle : Chronicle p width (s :: history) log)
      (asked : e.read.isSome = p.readsAt s.pc)
      (moved : s.forward p width e.read = (.executed e.emitted, s')) :
      Chronicle p width (s' :: s :: history) (e :: log)

namespace Chronicle

theorem trail (h : Chronicle p width history log) : Trail p width history := by
  induction h with
  | fresh => exact .fresh
  | step _ _ moved ih => exact ih.step moved

theorem length_eq (h : Chronicle p width history log) : history.length = log.length + 1 := by
  induction h with
  | fresh => rfl
  | step _ _ _ ih => simpa using ih

theorem tail {before : State} (h : Chronicle p width (s :: before :: history) log) :
    Chronicle p width (before :: history) log.tail := by
  cases h with
  | step chronicle asked moved => exact chronicle

/-- Without its latest steps a chronicle is a chronicle. -/
theorem drop (h : Chronicle p width history log) (hk : k ≤ log.length) :
    Chronicle p width (history.drop k) (log.drop k) := by
  induction h generalizing k with
  | fresh =>
    obtain rfl : k = 0 := Nat.le_zero.mp hk
    exact .fresh
  | step chronicle asked moved ih =>
    cases k with
    | zero => exact chronicle.step asked moved
    | succ k => exact ih (Nat.le_of_succ_le_succ hk)

/-- Where a chronicle begins, a program is just loaded. -/
theorem getElem?_length (h : Chronicle p width history log) :
    history[log.length]? = some (State.fresh p.size) := by
  induction h with
  | fresh => rfl
  | step _ _ _ ih => simpa using ih

end Chronicle

/-- An input that is executed was given a value. -/
theorem Effect.isSome_of_input {answer : Option Int} {i : Nat} {emitted : Option Char} {s' : State}
    (h : Effect p width answer s i emitted s') (hkind : p.kindAt i = .input) :
    answer.isSome = true := by
  cases h with
  | input _ read => rw [read]; rfl
  | add hkind' | shift hkind' | output hkind' | zero hkind' | head hkind' => simp [hkind'] at hkind
  | frame hkind' => simp [hkind] at hkind'

end State

/-! ### How far a walk has come -/

namespace Machine

section
variable {δ : Type} [Device δ] {p : Program} {config : Config} {calls : Nat} {m m' : Machine δ}
  {walk : Walk δ} {log : List Exchange}

/-- What a call counts: one for an executed step forward, and one less for a successful step
back. -/
def worth (reverse : Bool) (answer : Except Fault Progress) : Int :=
  match reverse, answer with
  | false, .ok .executed => 1
  | true, .ok _ => -1
  | _, _ => 0

/-- The number of executed steps forward less that of successful steps back. -/
def net : Machine δ → List Bool → Int
  | _, [] => 0
  | m, reverse :: moves => worth reverse (m.step reverse).1 + net (m.step reverse).2 moves

/-- What the next step forward reads and emits. -/
def exchange (m : Machine δ) : Exchange :=
  let answer := (consult (m.program.readsAt m.state.pc) m.device).1
  { read := answer
    emitted :=
      match (m.state.forward m.program m.config.cellWidth answer).1 with
      | .executed emitted => emitted
      | _ => none }

/-- The exchanges after a call: an executed step forward adds its own, and a successful step back
takes one off. -/
def note (m : Machine δ) (reverse : Bool) (log : List Exchange) : List Exchange :=
  match reverse, (m.step reverse).1 with
  | false, .ok .executed => m.exchange :: log
  | true, .ok _ => log.tail
  | _, _ => log

/-- The exchanges after a sequence of calls, if there were some before. -/
def exchangesFrom (log : List Exchange) : Machine δ → List Bool → List Exchange
  | _, [] => log
  | m, reverse :: moves => exchangesFrom (m.note reverse log) (m.step reverse).2 moves

/-- What the executed steps that were not taken back read and emitted, latest first. -/
def exchanges (m : Machine δ) (moves : List Bool) : List Exchange := m.exchangesFrom [] moves

/-- An executed step read a value exactly if its instruction asks for one. -/
theorem exchange_of_executed (h : m.stepForward.1 = .ok .executed) :
    m.exchange.read.isSome = m.program.readsAt m.state.pc ∧
      m.state.forward m.program m.config.cellWidth m.exchange.read =
        (.executed m.exchange.emitted, m.stepForward.2.state) := by
  have hforward : m.state.forward m.program m.config.cellWidth m.exchange.read =
      (.executed m.exchange.emitted, m.stepForward.2.state) := by
    obtain ⟨program, config, state, device⟩ := m
    simp only [stepForward] at h ⊢
    simp only [exchange]
    split at h <;> simp_all
  refine ⟨?_, hforward⟩
  obtain ⟨i, hnext, heffect⟩ := State.effect_of_forward hforward
  have hreads : m.program.readsAt m.state.pc = (m.program.kindAt i == .input) := by
    rw [Program.readsAt, hnext]
  by_cases hkind : m.program.kindAt i = .input
  · rw [heffect.isSome_of_input hkind, hreads, hkind]
    rfl
  · have hfalse : m.program.readsAt m.state.pc = false := by simpa [hreads] using hkind
    simp [exchange, consult, hfalse]

/-- **One call** keeps the chronicle, and changes the length of the history by what it counts. -/
theorem Walk.OnTrail.chronicle_step (hp : p.WellFormed) (hw : 0 < config.cellWidth)
    (h : Walk.OnTrail p config calls walk)
    (hlog : State.Chronicle p config.cellWidth walk.history log) (reverse : Bool) :
    State.Chronicle p config.cellWidth (walk.step reverse).history
        (walk.machine.note reverse log) ∧
      ((walk.step reverse).history.length : Int) =
        walk.history.length + worth reverse (walk.machine.step reverse).1 := by
  obtain ⟨rest, hhistory⟩ := h.exists_cons
  cases reverse with
  | true =>
    have hback : walk.machine.step true = walk.machine.stepBackward := rfl
    rw [h.stepBackward hp hw, hhistory] at hback
    cases rest with
    | nil =>
      simp only [Walk.step, Walk.record, note, worth, hback, List.tail_cons]
      exact ⟨hlog, by simp⟩
    | cons before rest =>
      simp only [Walk.step, Walk.record, note, worth, hback, hhistory, List.tail_cons]
      rw [hhistory] at hlog
      refine ⟨hlog.tail, ?_⟩
      simp only [List.length_cons]
      omega
  | false =>
    have hforth : walk.machine.step false = walk.machine.stepForward := rfl
    by_cases hanswer : walk.machine.stepForward.1 = .ok .executed
    · obtain ⟨hasked, hmoved⟩ := exchange_of_executed hanswer
      rw [h.program_eq] at hasked hmoved
      rw [h.config_eq] at hmoved
      simp only [Walk.step, Walk.record, note, worth, hforth, hanswer]
      rw [hhistory] at hlog ⊢
      exact ⟨hlog.step hasked hmoved, by simp⟩
    · have hnote : walk.machine.note false log = log := by
        unfold note
        rw [hforth]
        split <;> simp_all
      have hworth : worth false walk.machine.stepForward.1 = 0 := by
        unfold worth
        split <;> simp_all
      simp only [Walk.step, hforth, Walk.record_of_ne_executed hanswer, hnote, hworth]
      exact ⟨hlog, by simp⟩

/-- **Any number of calls** keeps the chronicle, and the history grows by what the calls count. -/
theorem Walk.OnTrail.chronicle_foldl (hp : p.WellFormed) (hw : 0 < config.cellWidth)
    (h : Walk.OnTrail p config calls walk)
    (hlog : State.Chronicle p config.cellWidth walk.history log) (moves : List Bool) :
    State.Chronicle p config.cellWidth (moves.foldl Walk.step walk).history
        (walk.machine.exchangesFrom log moves) ∧
      ((moves.foldl Walk.step walk).history.length : Int) =
        walk.history.length + walk.machine.net moves := by
  induction moves generalizing calls walk log with
  | nil => exact ⟨hlog, by simp [net]⟩
  | cons reverse moves ih =>
    obtain ⟨hlog', hlength⟩ := h.chronicle_step hp hw hlog reverse
    obtain ⟨hfold, hfold_length⟩ := ih (h.step hp hw reverse) hlog'
    refine ⟨hfold, ?_⟩
    rw [List.foldl_cons, hfold_length, hlength, net, Int.add_assoc]
    rfl

/-- After a walk, the history is chronicled, and is as long as the walk has come far. -/
theorem chronicle_walk {m₀ : Machine δ} (hw : 0 < m₀.config.cellWidth)
    (hload : m₀.install p = (.ok (), m)) (moves : List Bool) :
    Follows p m₀.config (m.walk moves).machine ∧
      (∃ rest, (m.walk moves).history = (m.walk moves).machine.state :: rest) ∧
      State.Chronicle p m₀.config.cellWidth (m.walk moves).history (m.exchanges moves) ∧
      ((m.exchanges moves).length : Int) = m.net moves := by
  obtain ⟨hp, rfl⟩ := install_eq_ok_iff.mp hload
  have hstart : Walk.OnTrail p m₀.config 0
      { machine := { m₀ with program := p, state := .fresh p.size }, history := [.fresh p.size] } :=
    ⟨rfl, rfl, .fresh, rfl, Nat.le_refl _⟩
  obtain ⟨hlog, hlength⟩ := hstart.chronicle_foldl hp hw .fresh moves
  refine ⟨(follows_of_install hload).walk hp hw moves,
    (hstart.foldl_step hp hw moves).exists_cons, hlog, ?_⟩
  rw [hlog.length_eq, List.length_singleton, Int.natCast_add, Int.add_comm] at hlength
  exact Int.add_left_cancel hlength

end

/-! ### Rewinds -/

/-- **A rewind goes back along the trail**, one state a step, to its first state or as far as the
budget goes. -/
theorem rewindFrom_of_trail {δ : Type} {m : Machine δ} {history : List State}
    (hp : m.program.WellFormed) (hw : 0 < m.config.cellWidth)
    (htrail : State.Trail m.program m.config.cellWidth (m.state :: history))
    (steps budget : Nat) :
    ∃ before, (m.state :: history)[min budget history.length]? = some before ∧
      m.rewindFrom steps budget =
        (.ok { steps := steps + min budget history.length,
               stop := if history.length ≤ budget then .rewound else .stepLimit },
          { m with state := before }) := by
  have hbegin := htrail.pc_eq_zero_iff hp hw
  induction budget generalizing m steps history with
  | zero =>
    refine ⟨m.state, by simp, ?_⟩
    cases history with
    | nil => simp [rewindFrom, atBeginning, hbegin]
    | cons before history => simp [rewindFrom, atBeginning, hbegin]
  | succ budget ih =>
    cases history with
    | nil => exact ⟨m.state, by simp, by simp [rewindFrom, atBeginning, hbegin]⟩
    | cons before history =>
      have hback : m.stepBackward = (.ok .executed, { m with state := before }) := by
        rw [stepBackward_eq, htrail.backward hp hw]
        rfl
      obtain ⟨first, hfirst, hrewind⟩ := ih (m := { m with state := before }) hp hw htrail.tail
        (steps + 1) (htrail.tail.pc_eq_zero_iff hp hw)
      refine ⟨first, ?_, ?_⟩
      · rw [List.length_cons, Nat.add_min_add_right, List.getElem?_cons_succ, hfirst]
      · simp only [rewindFrom, atBeginning, hbegin, hback, hrewind, List.length_cons,
          Nat.add_min_add_right, Nat.add_le_add_iff_right, reduceCtorEq, beq_iff_eq, if_false]
        rw [Nat.add_right_comm, Nat.add_assoc]

/-! ### Doing again what was taken back -/

/-- The machine in another state and on a buffer. -/
def onBuffer {δ : Type} (m : Machine δ) (state : State) (buffer : Buffer) : Machine Buffer :=
  { program := m.program, config := m.config, state, device := buffer }

/-- A run that is allowed as many steps as the machine makes follows them. -/
theorem Advances.run_eq {δ : Type} [Device δ] {m m' : Machine δ} {n : Nat} (h : Advances n m m') :
    m.run n =
      (.ok { steps := n, stop := if m'.atEnd then .finished else .stepLimit }, m') := by
  have hrun := h.runFrom_eq 0 0
  rw [run, ← Nat.add_zero n, hrun, runFrom]
  cases m'.atEnd <;> simp

/-- **One step** is made again on a buffer that offers what it read. -/
theorem stepForward_of_exchange {δ : Type} {m : Machine δ} {s s' : State} {e : Exchange}
    (asked : e.read.isSome = m.program.readsAt s.pc)
    (moved : s.forward m.program m.config.cellWidth e.read = (.executed e.emitted, s'))
    (rest : List Int) (text : String) :
    (m.onBuffer s { inputs := e.read.toList ++ rest, output := text }).stepForward =
      (.ok .executed,
        m.onBuffer s' { inputs := rest, output := text ++ String.ofList e.emitted.toList }) := by
  have hconsult : consult (m.program.readsAt s.pc)
      ({ inputs := e.read.toList ++ rest, output := text } : Buffer) =
        (e.read, { inputs := rest, output := text }) := by
    rw [← asked]
    cases e.read <;> rfl
  have hdeliver : deliver ({ inputs := rest, output := text } : Buffer) e.emitted =
      { inputs := rest, output := text ++ String.ofList e.emitted.toList } := by
    cases e.emitted with
    | none => simp [deliver]
    | some c =>
      rw [Option.toList_some, ← String.singleton_eq_ofList, String.append_singleton]
      rfl
  rw [stepForward_of_forward hconsult moved, hdeliver]
  rfl

/-- **A chronicle is gone through again** from any of its states, on a buffer that offers what was
read from there on. -/
theorem advances_of_chronicle {δ : Type} {m : Machine δ} {s : State} {history : List State}
    {log : List Exchange} {k : Nat}
    (h : State.Chronicle m.program m.config.cellWidth (s :: history) log) (hk : k ≤ log.length)
    (rest : List Int) (text : String) :
    ∃ before, (s :: history)[k]? = some before ∧
      Advances k
        (m.onBuffer before
          { inputs := Exchange.values (log.take k).reverse ++ rest, output := text })
        (m.onBuffer s
          { inputs := rest, output := text ++ Exchange.text (log.take k).reverse }) := by
  induction k generalizing s history log rest with
  | zero => exact ⟨s, rfl, by simpa [Exchange.values, Exchange.text] using Advances.refl _⟩
  | succ k ih =>
    cases h with
    | fresh => exact absurd hk (Nat.not_succ_le_zero k)
    | @step s₁ _ history log e chronicle asked moved =>
      -- the steps before lead to where the latest one was made, which then finds its own value
      obtain ⟨before, hbefore, hadvances⟩ :=
        ih chronicle (Nat.le_of_succ_le_succ hk) (e.read.toList ++ rest)
      refine ⟨before, hbefore, ?_⟩
      have hlast := stepForward_of_exchange asked moved rest
        (text ++ Exchange.text (log.take k).reverse)
      have hall := hadvances.trans (.single hlast)
      rw [List.take_succ_cons, List.reverse_cons, Exchange.values_append, Exchange.text_append,
        Exchange.values_singleton, Exchange.text_singleton, List.append_assoc]
      rwa [String.append_assoc] at hall

/-- A part of a chronicle is gone through again, on a buffer that offers all that was read. -/
theorem advances_within_chronicle {δ : Type} {m : Machine δ} {history : List State}
    {log : List Exchange} {k n : Nat}
    (h : State.Chronicle m.program m.config.cellWidth history log) (hn : n ≤ log.length)
    (hk : k ≤ n) (rest : List Int) (text : String) :
    let undone := (log.take n).reverse
    ∃ before again, history[n]? = some before ∧ history[n - k]? = some again ∧
      Advances k
        (m.onBuffer before { inputs := Exchange.values undone ++ rest, output := text })
        (m.onBuffer again
          { inputs := Exchange.values (undone.drop k) ++ rest
            output := text ++ Exchange.text (undone.take k) }) := by
  intro undone
  have hundone : undone.take k = ((log.drop (n - k)).take k).reverse := by
    rw [List.take_reverse, List.length_take, Nat.min_eq_left hn, List.take_drop,
      Nat.sub_add_cancel hk]
  have hdrop := h.drop (k := n - k) (by omega)
  obtain ⟨again, later, hagain⟩ : ∃ again later, history.drop (n - k) = again :: later := by
    refine List.exists_cons_of_ne_nil fun hnil => ?_
    have hlength := hdrop.length_eq
    simp [hnil] at hlength
  rw [hagain] at hdrop
  obtain ⟨before, hbefore, hadvances⟩ := advances_of_chronicle hdrop
    (k := k) (by rw [List.length_drop]; omega) (Exchange.values (undone.drop k) ++ rest) text
  rw [← hagain, List.getElem?_drop, Nat.sub_add_cancel hk] at hbefore
  refine ⟨before, again, hbefore, ?_, ?_⟩
  · rw [← List.head?_drop, hagain, List.head?_cons]
  · rwa [← hundone, ← List.append_assoc, ← Exchange.values_append, List.take_append_drop]
      at hadvances

/-- **Rewinding restores the past.** Load any program that passes its checks, and make any sequence
of steps forward and back, on any device, of which `n` more went forward than back. A rewind comes
to its end without touching the device: it takes back all `n` steps and reaches the state in which
the program was loaded, or as many as its budget allows and reaches the state that the history
holds there. What it took back is done again by a run on a buffer that offers the values that were
read: for every number of steps the run is in the state that the history holds there, has read
those values that were read so far, and has emitted the characters that were emitted so far. -/
theorem rewind_restores {δ : Type} [Device δ] {m₀ m : Machine δ} {p : Program}
    (hw : 0 < m₀.config.cellWidth) (hload : m₀.install p = (.ok (), m)) (moves : List Bool)
    (budget : Nat) :
    let walk := m.walk moves
    ∃ n : Nat, (n : Int) = m.net moves ∧
      ∃ before, walk.history[min budget n]? = some before ∧
        (n ≤ budget → before = .fresh p.size) ∧
        walk.machine.rewind budget =
          (.ok { steps := min budget n, stop := if n ≤ budget then .rewound else .stepLimit },
            { walk.machine with state := before }) ∧
        let undone := ((m.exchanges moves).take (min budget n)).reverse
        ∀ (rest : List Int) (text : String), ∀ k ≤ min budget n,
          ∃ again, walk.history[min budget n - k]? = some again ∧
            (walk.machine.onBuffer before
                { inputs := Exchange.values undone ++ rest, output := text }).run k =
              (.ok { steps := k,
                     stop := if p.kindAt again.pc = .finish then .finished else .stepLimit },
                walk.machine.onBuffer again
                  { inputs := Exchange.values (undone.drop k) ++ rest
                    output := text ++ Exchange.text (undone.take k) }) := by
  intro walk
  obtain ⟨hp, -⟩ := install_eq_ok_iff.mp hload
  obtain ⟨⟨hprogram, hconfig, -⟩, ⟨rest, hhistory⟩, hlog, hnet⟩ := chronicle_walk hw hload moves
  have hlength := hlog.length_eq
  rw [hhistory, List.length_cons, Nat.add_right_cancel_iff] at hlength
  subst hprogram
  rw [← hconfig] at hw hlog
  obtain ⟨before, hbefore, hrewind⟩ :=
    rewindFrom_of_trail hp hw (hhistory ▸ hlog.trail) 0 budget
  rw [hlength, ← hhistory] at hbefore
  rw [hlength, Nat.zero_add] at hrewind
  refine ⟨_, hnet, before, hbefore, fun hle => ?_, hrewind, fun inputs text k hk => ?_⟩
  · rw [Nat.min_eq_right hle, hlog.getElem?_length] at hbefore
    exact (Option.some.inj hbefore).symm
  · obtain ⟨before', again, hbefore', hagain, hadvances⟩ :=
      advances_within_chronicle hlog (Nat.min_le_right _ _) hk inputs text
    obtain rfl : before = before' := Option.some.inj (hbefore.symm.trans hbefore')
    refine ⟨again, hagain, ?_⟩
    rw [hadvances.run_eq]
    simp [atEnd, currentKind, onBuffer, walk]

/-- A machine that reads a number and emits it while it counts it down, with the number 2 to
read. -/
def announcer : Machine Buffer where
  program := { tokens := #[.start, { kind := .input }, { kind := .loopOpen, partner := some 5 },
    { kind := .output }, { kind := .add, delta := -1 }, { kind := .loopClose, partner := some 2 },
    .finish] }
  config := {}
  state := .fresh 7
  device := { inputs := [2] }

theorem rewind_restores_announcer :
    let moves := List.replicate 7 false ++ [true, false, false]
    let now := (announcer.walk moves).machine
    0 < announcer.config.cellWidth ∧
      announcer.install announcer.program = (.ok (), announcer) ∧
      announcer.net moves = 8 ∧
      now.rewind 10 = (.ok { steps := 8, stop := .rewound }, { now with state := .fresh 7 }) ∧
      (now.onBuffer (.fresh 7) { inputs := [2] }).run 8 =
        (.ok { steps := 8, stop := .finished },
          now.onBuffer now.state { output := "\x02\x01" }) := by
  intro moves now
  have hw : 0 < announcer.config.cellWidth := by decide
  have hload : announcer.install announcer.program = (.ok (), announcer) := rfl
  have hnet : announcer.net moves = 8 := by decide +kernel
  obtain ⟨n, hn, before, -, hfresh, hrewind, hagain⟩ := rewind_restores hw hload moves 10
  obtain rfl : n = 8 := by omega
  obtain rfl := hfresh (by decide)
  obtain ⟨again, hstate, hrun⟩ := hagain [] "" 8 (by decide)
  refine ⟨hw, hload, hnet, hrewind, ?_⟩
  have hnow : (announcer.walk moves).history[0]? = some now.state := by decide +kernel
  obtain rfl : now.state = again := Option.some.inj (hnow.symm.trans hstate)
  have hread : Exchange.values ((announcer.exchanges moves).take 8).reverse = [2] := by
    decide +kernel
  have hrest : Exchange.values (((announcer.exchanges moves).take 8).reverse.drop 8) = [] := by
    decide +kernel
  have htext : Exchange.text (((announcer.exchanges moves).take 8).reverse.take 8) =
      "\x02\x01" := by
    decide +kernel
  have hkind : announcer.program.kindAt now.state.pc = .finish := by decide +kernel
  simp only [show min 10 8 = 8 from rfl, hread, hrest, htext, hkind, if_true] at hrun
  exact hrun

end Machine

end ReversibleTape
