import Mathlib.Logic.Basic
import ReversibleTape.Proofs.Calls

/-!
# Conservation of records

The records of different instructions are not independent. Each time the execution goes through
the body of a loop, it comes once past every instruction that belongs to the body itself, and the
counters of the head say how often it did. So **the depth of the stack of an instruction is the sum
of the counters of the loop around it**, and one more while the execution is inside the loop and
past the instruction (`Machine.depth_eq_sum_passes`). An instruction around which there is no loop
is passed once.

Both cases are one, if the whole program counts as a loop that is gone through once: a
`Program.Scope` of an index is the innermost loop around it, or the program. A step changes at most
one record, and it moves past at most one instruction of each scope or, at the tail of a loop, back
to the front of the scope; the places inside scopes are compared by the nesting of loops
(`Program.Scope.position`).
-/

namespace ReversibleTape

/-! ### Scopes -/

namespace Program

variable {p : Program} {o c o' c' t e i pc : Nat} {h : Option Nat}

/-- The instructions that write something down. -/
def Records (p : Program) (t : Nat) : Prop :=
  p.kindAt t = .zero ∨ p.kindAt t = .input ∨ p.kindAt t = .loopOpen

/-- The loop from `o` to `c` is the innermost one around the index `t`. -/
structure Innermost (p : Program) (o c t : Nat) : Prop where
  link : p.Link o c
  head_lt : o < t
  lt_tail : t < c
  head_le : ∀ {o' c'}, p.Link o' c' → o' < t → t < c' → o' ≤ o

/-- There is no loop around the index. -/
def Outside (p : Program) (t : Nat) : Prop := ∀ ⦃o c⦄, p.Link o c → ¬(o < t ∧ t < c)

/-- An index with a loop around it has an innermost loop around it. -/
theorem exists_innermost (hlink : p.Link o c) (ho : o < t) (hc : t < c) :
    ∃ o' c', p.Innermost o' c' t := by
  -- the induction is on the distance of the head
  induction hn : t - o using Nat.strongRecOn generalizing o c with
  | ind n ih =>
    by_cases hmax : ∀ {o' c'}, p.Link o' c' → o' < t → t < c' → o' ≤ o
    · exact ⟨o, c, hlink, ho, hc, hmax⟩
    · simp only [not_forall] at hmax
      obtain ⟨o', c', hlink', ho', hc', hlt⟩ := hmax
      exact ih (t - o') (by omega) hlink' ho' hc' rfl

theorem innermost_or_outside (p : Program) (t : Nat) :
    (∃ o c, p.Innermost o c t) ∨ p.Outside t := by
  by_cases houtside : p.Outside t
  · exact .inr houtside
  · simp only [Outside, not_forall, not_not] at houtside
    obtain ⟨o, c, hlink, ho, hc⟩ := houtside
    exact .inl (exists_innermost hlink ho hc)

/-- The innermost loop around an index, given by its head and its tail, or the whole program. -/
inductive Scope (p : Program) (t : Nat) : Option Nat → Nat → Prop
  | loop {o c : Nat} (innermost : p.Innermost o c t) : Scope p t (some o) c
  | whole (outside : p.Outside t) : Scope p t none p.endIndex

theorem Records.pos (hp : p.WellFormed) (ht : p.Records t) : 0 < t := by
  refine Nat.pos_of_ne_zero ?_
  rintro rfl
  simp [Records, hp.kindAt_zero] at ht

theorem Records.lt_endIndex (hp : p.WellFormed) (ht : p.Records t) : t < p.endIndex := by
  have hkind : p.kindAt t ≠ .finish := by rcases ht with ht | ht | ht <;> simp [ht]
  have hlt := lt_size_of_kindAt hkind
  have hne : t ≠ p.endIndex := fun heq => hkind (heq ▸ hp.kindAt_endIndex)
  rw [endIndex] at hne ⊢
  omega

namespace Scope

/-- A scope ends behind its index. -/
theorem lt (hp : p.WellFormed) (hscope : p.Scope t h e) (ht : p.Records t) : t < e := by
  cases hscope with
  | loop hinner => exact hinner.lt_tail
  | whole => exact ht.lt_endIndex hp

/-- A scope ends at the tail of a loop or at the frame. -/
theorem kindAt_end (hp : p.WellFormed) (hscope : p.Scope t h e) :
    p.kindAt e = .loopClose ∨ p.kindAt e = .finish := by
  cases hscope with
  | loop hinner => exact .inl hinner.link.kind_tail
  | whole => exact .inr hp.kindAt_endIndex

/-- The scope of an index inside a loop, given by its head, ends at the tail. -/
theorem eq_tail (hscope : p.Scope t (some o) e) (hlink : p.Link o c) : e = c ∧ o < t := by
  cases hscope with
  | loop hinner => exact ⟨hinner.link.tail_unique hlink, hinner.head_lt⟩

/-- The scope of a head ends behind the tail. -/
theorem tail_lt (hp : p.WellFormed) (hscope : p.Scope o h e) (hlink : p.Link o c) : c < e := by
  cases hscope with
  | loop hinner => exact hp.tail_lt_tail hinner.link hlink hinner.head_lt hinner.lt_tail
  | whole => exact hp.tail_lt_endIndex hlink

/-- **Scopes and loops.** Seen from an index, a loop that is not its scope comes later, as a whole
inside the scope or behind it, or it lies around the whole scope, or it came before. -/
theorem position (hp : p.WellFormed) (hscope : p.Scope t h e) (hlink : p.Link o c)
    (hne : h ≠ some o) (ho : t ≠ o) (hc : t ≠ c) :
    o ≠ e ∧ c ≠ e ∧
      ((t < o ∧ (o < e ↔ c < e)) ∨ (o < t ∧ t < c ∧ e < c) ∨ c < t) := by
  have hlt := hlink.lt
  cases hscope with
  | @loop o' _ hinner =>
    have hlt' := hinner.link.lt
    have hhead := hinner.head_lt
    have htail := hinner.lt_tail
    have hne' : o ≠ o' := fun heq => hne (congrArg some heq.symm)
    have hce : c ≠ e := by
      rintro rfl
      exact hne' (hlink.head_unique hinner.link)
    have hoc := hlink.head_ne_tail hinner.link
    have hinside : o' < o → o < e → c < e := hp.tail_lt_tail hinner.link hlink
    have haround : o < o' → o' < c → e < c := hp.tail_lt_tail hlink hinner.link
    have hle : o < t → t < c → o ≤ o' := hinner.head_le hlink
    omega
  | whole houtside =>
    have hend := hp.tail_lt_endIndex hlink
    have hnot := houtside hlink
    omega

/-! ### The place of the execution in a scope -/

/-- A step past an instruction that is no end of a loop takes the execution past this instruction
and no other one of the scope. -/
theorem passed_straight_iff (hp : p.WellFormed) (hscope : p.Scope t h e) (ht : p.Records t)
    (hpc : pc ≤ p.endIndex) (hnext : p.next? pc = some i) (hhead : p.kindAt i ≠ .loopOpen)
    (htail : p.kindAt i ≠ .loopClose) (hfinish : p.kindAt i ≠ .finish) :
    (t < i + 1 ∧ i + 1 ≤ e ↔ t = i ∨ (t < pc ∧ pc ≤ e)) ∧ ¬(i < pc ∧ pc ≤ e) := by
  have hpos := ht.pos hp
  have hlt := hscope.lt hp ht
  have hne : i ≠ e := by
    rintro rfl
    rcases hscope.kindAt_end hp with hend | hend
    · exact htail hend
    · exact hfinish hend
  rcases hp.next?_cases hpc hnext with ⟨rfl, rfl⟩ | ⟨-, rfl, -⟩ | hlink
  · omega
  · omega
  · exact absurd hlink.kind_head hhead

/-- The head of a loop is reached from above or from the tail, and left to the place behind it or
behind the tail. For an instruction of another scope that makes no difference. -/
theorem passed_head_iff (hp : p.WellFormed) (hscope : p.Scope t h e) (ht : p.Records t)
    (hpc : pc ≤ p.endIndex) (hlink : p.Link o c) (hnext : p.next? pc = some o) (hne : h ≠ some o)
    (hto : t ≠ o) {pc' : Nat} (hpc' : pc' = o + 1 ∨ pc' = c + 1) :
    t < pc' ∧ pc' ≤ e ↔ t < pc ∧ pc ≤ e := by
  have hpos := ht.pos hp
  have hlt := hlink.lt
  have hte := hscope.lt hp ht
  have htc : t ≠ c := by
    rintro rfl
    simp [Records, hlink.kind_tail] at ht
  obtain ⟨hoe, hce, hposition⟩ := hscope.position hp hlink hne hto htc
  rcases hp.next?_cases hpc hnext with ⟨rfl, rfl⟩ | ⟨-, rfl, -⟩ | htail
  · omega
  · omega
  · obtain rfl := hlink.tail_unique htail
    omega

end Scope

end Program

/-! ### Records of loop heads -/

namespace Record

/-- The sum of the counters of a loop head. -/
def total (r : Record) : Nat := r.passes.foldr (· + ·) 0

/-- A loop that is entered anew has one more counter. -/
theorem length_passes_evaluate (r : Record) (entered : Bool) :
    (r.evaluate entered).passes.length = r.passes.length + if r.inProgress then 0 else 1 := by
  cases hin : r.inProgress with
  | false => simp [evaluate, hin]
  | true => cases hpasses : r.passes <;> simp [evaluate, hin, hpasses, bump]

/-- A return from the tail counts one. -/
theorem total_evaluate {r : Record} (h : r.inProgress = true → r.passes ≠ [])
    (entered : Bool) : (r.evaluate entered).total = r.total + if r.inProgress then 1 else 0 := by
  cases hin : r.inProgress with
  | false => simp [total, evaluate, hin]
  | true =>
    obtain ⟨n, rest, hpasses⟩ := List.exists_cons_of_ne_nil (h hin)
    simp only [total, evaluate, hin, hpasses, bump, if_true, List.foldr_cons]
    omega

end Record

/-! ### Balanced states -/

namespace State

variable {p : Program} {width : UInt32} {answer : Option Int} {s s' : State} {i o c : Nat}
  {emitted : Option Char}

/-- The depth of the stack of an instruction: the counters of the head of a loop, and the saved
values of any other instruction. -/
def depth (s : State) (p : Program) (t : Nat) : Nat :=
  if p.kindAt t = .loopOpen then (s.ledger.recordAt t).passes.length
  else (s.ledger.recordAt t).undo.length

/-- How often the execution has come back to the front of a scope. -/
def returns (s : State) : Option Nat → Nat
  | none => 0
  | some o => (s.ledger.recordAt o).total

/-- **The balance.** Every instruction has written down one thing for each return to the front of
its scope, and one more if the execution is past it by now. -/
def Balanced (p : Program) (s : State) : Prop :=
  ∀ ⦃t h e⦄, p.Records t → p.Scope t h e →
    s.depth p t = s.returns h + if t < s.pc ∧ s.pc ≤ e then 1 else 0

theorem balanced_fresh (p : Program) : Balanced p (fresh p.size) := by
  intro t h e _ _
  cases h <;> simp [depth, returns, Record.total, fresh, Record.blank]

/-- Only the records of loop heads matter for returns, and a scope begins at one. -/
theorem returns_eq {t e : Nat} {h : Option Nat} (hscope : p.Scope t h e)
    (hrecord : ∀ o, p.kindAt o = .loopOpen → s'.ledger.recordAt o = s.ledger.recordAt o) :
    s'.returns h = s.returns h := by
  cases hscope with
  | loop hinner => rw [returns, returns, hrecord _ hinner.link.kind_head]
  | whole => rfl

/-- An instruction that is no end of a loop keeps the balance, if it puts one thing on its own
stack and touches no other. -/
theorem Balanced.of_straight (hp : p.WellFormed) (hs : Sound p width s) (hb : Balanced p s)
    (hnext : p.next? s.pc = some i) (hhead : p.kindAt i ≠ .loopOpen)
    (htail : p.kindAt i ≠ .loopClose) (hfinish : p.kindAt i ≠ .finish) (hpc : s'.pc = i + 1)
    (hrecord : ∀ o, p.kindAt o = .loopOpen → s'.ledger.recordAt o = s.ledger.recordAt o)
    (hdepth : ∀ t, p.Records t → s'.depth p t = s.depth p t + if t = i then 1 else 0) :
    Balanced p s' := by
  intro t h e ht hscope
  obtain ⟨hpassed, hnot⟩ :=
    hscope.passed_straight_iff hp ht hs.pc_le hnext hhead htail hfinish
  rw [hdepth t ht, hb ht hscope, returns_eq hscope hrecord, hpc]
  simp only [hpassed]
  by_cases hti : t = i
  · subst hti
    simp [hnot]
  · simp [hti]

/-- Saving the overwritten cell puts one value on the stack of the instruction. -/
theorem depth_save (hs : Sound p width s) (hi : p.kindAt i = .zero ∨ p.kindAt i = .input)
    {value : UInt32} {pc : Nat} (t : Nat) :
    depth { (s.setRecord i ((s.ledger.recordAt i).save s.cell)).setCell value with pc } p t =
      s.depth p t + if t = i then 1 else 0 := by
  have hlt : i < s.ledger.size := by
    rw [hs.size_ledger]
    exact Program.lt_size_of_kindAt (by rcases hi with hi | hi <;> simp [hi])
  have hhead : p.kindAt i ≠ .loopOpen := by rcases hi with hi | hi <;> simp [hi]
  simp only [depth, setRecord, setCell, Ledger.recordAt_write]
  by_cases hti : t = i
  · subst hti
    simp [hlt, hhead, Record.save]
  · simp [hti, Ne.symm hti]

/-- Evaluating the head of a loop puts a counter on its stack unless the loop is in progress. -/
theorem depth_evaluate (hs : Sound p width s) (ho : p.kindAt o = .loopOpen) {entered : Bool}
    {pc : Nat} (t : Nat) :
    depth { s.setRecord o ((s.ledger.recordAt o).evaluate entered) with pc } p t =
      s.depth p t + if t = o ∧ (s.ledger.recordAt o).inProgress = false then 1 else 0 := by
  have hlt : o < s.ledger.size := by
    rw [hs.size_ledger]
    exact Program.lt_size_of_kindAt (by simp [ho])
  simp only [depth, setRecord, Ledger.recordAt_write]
  by_cases hto : t = o
  · subst hto
    cases hin : (s.ledger.recordAt t).inProgress <;>
      simp [hlt, ho, Record.length_passes_evaluate, hin]
  · simp [hto, Ne.symm hto]

/-- Evaluating the head of a loop that is in progress counts a return to the front of its body. -/
theorem returns_evaluate (hs : Sound p width s) (hlink : p.Link o c) {entered : Bool} {pc : Nat}
    (h : Option Nat) :
    returns { s.setRecord o ((s.ledger.recordAt o).evaluate entered) with pc } h =
      s.returns h + if h = some o ∧ (s.ledger.recordAt o).inProgress = true then 1 else 0 := by
  have hlt : o < s.ledger.size := by
    rw [hs.size_ledger]
    exact Program.lt_size_of_kindAt (by simp [hlink.kind_head])
  have hsum := Record.total_evaluate (hs.passes_ne_nil hlink) entered
  cases h with
  | none => simp [returns]
  | some k =>
    simp only [returns, setRecord, Ledger.recordAt_write]
    by_cases hk : k = o
    · subst hk
      simp [hlt, hsum]
    · simp [hk, Ne.symm hk]

/-- A loop is in progress exactly if its head is reached from the tail, and not from above. -/
theorem Sound.reached_head (hp : p.WellFormed) (hs : Sound p width s)
    (hnext : p.next? s.pc = some o) (hlink : p.Link o c) :
    (s.ledger.recordAt o).inProgress = true ∧ s.pc = c ∨
      (s.ledger.recordAt o).inProgress = false ∧ s.pc ≤ o := by
  have hlt := hlink.lt
  rw [← Bool.not_eq_true, hs.inProgress_iff hlink]
  rcases hp.next?_cases hs.pc_le hnext with ⟨hzero, -⟩ | ⟨-, heq, -⟩ | htail
  · omega
  · omega
  · have htail_eq := hlink.tail_unique htail
    omega

/-- **The head of a loop** keeps the balance. Reached from above it has one counter more, and is
passed; reached from the tail it counts one return, and so all of its body is in front of the
execution again. -/
theorem Balanced.of_head (hp : p.WellFormed) (hs : Sound p width s) (hb : Balanced p s)
    (hnext : p.next? s.pc = some o) (hlink : p.Link o c) :
    Balanced p
      { s.setRecord o ((s.ledger.recordAt o).evaluate (s.cell != 0)) with
        pc := if s.cell != 0 then o + 1 else c + 1 } := by
  intro t h e ht hscope
  have hlt := hlink.lt
  rw [depth_evaluate hs hlink.kind_head, returns_evaluate hs hlink, hb ht hscope]
  show _ = _ + if t < (if s.cell != 0 then o + 1 else c + 1) ∧
    (if s.cell != 0 then o + 1 else c + 1) ≤ e then 1 else 0
  have hpc' : (if s.cell != 0 then o + 1 else c + 1) = o + 1 ∨
      (if s.cell != 0 then o + 1 else c + 1) = c + 1 := by
    split
    · exact .inl rfl
    · exact .inr rfl
  generalize (if s.cell != 0 then o + 1 else c + 1) = pc' at hpc' ⊢
  have hfrom := hs.reached_head hp hnext hlink
  by_cases hto : t = o
  · -- the head itself: its scope goes on behind the tail, so the execution is past it afterwards
    subst hto
    have hce := hscope.tail_lt hp hlink
    have hne : h ≠ some t := by
      rintro rfl
      exact absurd (hscope.eq_tail hlink).2 (Nat.lt_irrefl t)
    rcases hfrom with ⟨hin, hpc⟩ | ⟨hin, hpc⟩
    · simp only [hin, hne, hpc]
      grind
    · simp only [hin, hne]
      grind
  · by_cases hho : h = some o
    · -- an instruction of the body: afterwards it is ahead again, or the loop is left
      subst hho
      obtain ⟨rfl, hot⟩ := hscope.eq_tail hlink
      have hte := hscope.lt hp ht
      rcases hfrom with ⟨hin, hpc⟩ | ⟨hin, hpc⟩
      · simp only [hin, hto, hpc]
        grind
      · simp only [hin, hto]
        grind
    · have hpassed := hscope.passed_head_iff hp ht hs.pc_le hlink hnext hho hto hpc'
      simp [hto, hho, hpassed]

/-- **Steps forward keep the balance.** -/
theorem Balanced.forward (hp : p.WellFormed) (hs : Sound p width s) (hb : Balanced p s)
    (h : s.forward p width answer = (.executed emitted, s')) : Balanced p s' := by
  obtain ⟨i, hnext, heffect⟩ := effect_of_forward h
  have hquiet : ¬p.Records i → ∀ t, p.Records t →
      s.depth p t = s.depth p t + if t = i then 1 else 0 := by
    intro hi t ht
    have hne : t ≠ i := by
      rintro rfl
      exact hi ht
    simp [hne]
  cases heffect with
  | add hkind | shift hkind | output hkind =>
    exact hb.of_straight hp hs hnext (by simp [hkind]) (by simp [hkind]) (by simp [hkind]) rfl
      (fun _ _ => rfl) (hquiet (by simp [Program.Records, hkind]))
  | input hkind | zero hkind =>
    exact hb.of_straight hp hs hnext (by simp [hkind]) (by simp [hkind]) (by simp [hkind]) rfl
      (fun _ => recordAt_setRecord_of_head (by simp [hkind]))
      (fun t _ => depth_save hs (by simp [hkind]) t)
  | head hkind hpartner =>
    obtain ⟨c, hlink, -⟩ := hp.link_of_head hkind
    obtain rfl := Option.some.inj (hlink.partner_head.symm.trans hpartner)
    exact hb.of_head hp hs hnext hlink
  | frame hkind hmoved =>
    -- the empty program has no instruction to write anything down
    obtain ⟨-, -, hend⟩ := hp.endIndex_eq_one hs.pc_le hnext hkind hmoved
    intro t h e ht hscope
    have hpos := ht.pos hp
    have hlt := ht.lt_endIndex hp
    omega

/-- **All states on a trail are balanced.** -/
theorem Trail.balanced (hp : p.WellFormed) (hw : 0 < width) {history : List State}
    (h : Trail p width (s :: history)) : Balanced p s := by
  have hboth : Sound p width s ∧ Balanced p s := by
    refine h.invariant (motive := fun s => Sound p width s ∧ Balanced p s) ?_ ?_
    · exact ⟨sound_fresh hw, balanced_fresh p⟩
    · rintro s s' answer emitted ⟨hs, hb⟩ moved
      exact ⟨hs.forward hp hw moved, hb.forward hp hs moved⟩
  exact hboth.2

end State

namespace Machine

variable {δ : Type} [Device δ] {p : Program} {m : Machine δ}

/-- **Records are conserved.** Load any program that passes its checks, and make any sequence of
steps forward and back, on any device. Take any instruction that writes something down. If a loop
is around it, the depth of its stack is the sum of the counters of the innermost such loop, and one
more while the execution is inside that loop and past the instruction. If none is, the depth is one
as long as the execution is past the instruction, and else zero. -/
theorem depth_eq_sum_passes {m₀ : Machine δ} (hw : 0 < m₀.config.cellWidth)
    (hload : m₀.install p = (.ok (), m)) (moves : List Bool) :
    let s := (m.walk moves).machine.state
    ∀ t, p.kindAt t = .zero ∨ p.kindAt t = .input ∨ p.kindAt t = .loopOpen →
      (∃ o c, p.Innermost o c t ∧ s.depth p t = (s.ledger.recordAt o).total +
          if t < s.pc ∧ s.pc ≤ c then 1 else 0) ∨
        (p.Outside t ∧ s.depth p t = if t < s.pc then 1 else 0) := by
  intro s t ht
  obtain ⟨hp, -⟩ := install_eq_ok_iff.mp hload
  obtain ⟨-, -, history, htrail⟩ := (follows_of_install hload).walk hp hw moves
  have hbalanced := htrail.balanced hp hw
  rcases p.innermost_or_outside t with ⟨o, c, hinner⟩ | houtside
  · exact .inl ⟨o, c, hinner, hbalanced ht (.loop hinner)⟩
  · refine .inr ⟨houtside, ?_⟩
    have hdepth := hbalanced ht (.whole houtside)
    have hle := (htrail.sound hp hw).pc_le
    rw [hdepth, State.returns, Nat.zero_add]
    simp only [hle, and_true]
    rfl

/-- A machine that goes through its loop twice and clears the next cell each time. -/
def sweeper : Machine Buffer where
  program := { tokens := #[.start, { kind := .add, delta := 2 },
    { kind := .loopOpen, partner := some 8 }, { kind := .shift, delta := 1 },
    { kind := .add, delta := 1 }, { kind := .zero }, { kind := .shift, delta := -1 },
    { kind := .add, delta := -1 }, { kind := .loopClose, partner := some 2 }, .finish] }
  config := {}
  state := .fresh 10
  device := {}

theorem depth_eq_sum_passes_sweeper :
    0 < sweeper.config.cellWidth ∧
      sweeper.install sweeper.program = (.ok (), sweeper) ∧
      sweeper.program.kindAt 5 = .zero ∧
      let s := (sweeper.walk (List.replicate 11 false)).machine.state
      s.pc = 6 ∧ s.depth sweeper.program 5 = 2 ∧
        ∃ o c, sweeper.program.Innermost o c 5 ∧ s.depth sweeper.program 5 =
          (s.ledger.recordAt o).total + if 5 < s.pc ∧ s.pc ≤ c then 1 else 0 := by
  have hw : 0 < sweeper.config.cellWidth := by decide
  have hload : sweeper.install sweeper.program = (.ok (), sweeper) := rfl
  refine ⟨hw, hload, rfl, by decide +kernel, by decide +kernel, ?_⟩
  rcases depth_eq_sum_passes hw hload (List.replicate 11 false) 5 (.inl rfl) with
    hinner | ⟨houtside, -⟩
  · exact hinner
  · have hlink : sweeper.program.Link 2 8 := ⟨rfl, rfl, rfl, rfl, by decide⟩
    exact absurd ⟨by decide, by decide⟩ (houtside hlink)

end Machine

end ReversibleTape
