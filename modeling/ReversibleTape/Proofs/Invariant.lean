import ReversibleTape.Machine.Forward
import ReversibleTape.Proofs.Arithmetic
import ReversibleTape.Proofs.Nesting

/-!
# What steps forward preserve

`State.Effect` lists what a step forward can do, one case for each kind of instruction, and
`State.effect_of_forward` says that an executed step did one of these things. Facts about steps
are read off the list; nothing below takes the step function apart again.

`State.Sound` is the invariant that makes steps reversible. Its heart is the law of the flags:
**a loop head is in progress exactly while the execution rests behind the head and not behind
the tail**. The flag is written at the head alone, while the execution jumps over loops and back
from tails to heads, so the law needs the nesting of loops (`Program.WellFormed.inside_iff`,
`Program.WellFormed.inside_straight_iff`).
-/

namespace ReversibleTape

/-! ### Places inside a loop -/

namespace Program

variable {p : Program} {pc i o c o' c' : Nat}

namespace WellFormed

/-- **The next instruction.** It is the first one from the beginning, the head from the tail of a
loop, and otherwise the one at which the execution rests. -/
theorem next?_cases (hp : p.WellFormed) (hpc : pc ≤ p.endIndex) (h : p.next? pc = some i) :
    (pc = 0 ∧ i = 1) ∨ (0 < pc ∧ i = pc ∧ p.kindAt pc ≠ .loopClose) ∨ p.Link i pc := by
  rw [next?] at h
  split at h
  · rename_i hstart
    have hzero : pc = 0 := by
      refine Nat.eq_zero_of_not_pos fun hpos => ?_
      rcases Nat.lt_or_eq_of_le hpc with hlt | rfl
      · exact (hp.kindAt_inner hpos hlt).1 hstart
      · exact absurd (hstart.symm.trans hp.kindAt_endIndex) (by decide)
    cases h
    exact .inl ⟨hzero, by omega⟩
  · rename_i htail
    obtain ⟨o, hlink, -⟩ := hp.link_of_tail htail
    obtain rfl : o = i := Option.some.inj (hlink.partner_tail.symm.trans h)
    exact .inr (.inr hlink)
  · rename_i hstart htail
    cases h
    refine .inr (.inl ⟨Nat.pos_of_ne_zero ?_, rfl, htail⟩)
    rintro rfl
    exact hstart hp.kindAt_zero

/-- A step is spent on the frame only if there is nothing else in the program. -/
theorem endIndex_eq_one (hp : p.WellFormed) (hpc : pc ≤ p.endIndex) (hnext : p.next? pc = some i)
    (hkind : p.kindAt i = .start ∨ p.kindAt i = .loopClose ∨ p.kindAt i = .finish)
    (hmoved : i ≠ pc) : pc = 0 ∧ i = 1 ∧ p.endIndex = 1 := by
  rcases hp.next?_cases hpc hnext with ⟨hzero, rfl⟩ | ⟨-, heq, -⟩ | hlink
  · refine ⟨hzero, rfl, Nat.le_antisymm (Nat.le_of_not_lt fun hlt => ?_) hp.endIndex_pos⟩
    have hinner := hp.kindAt_inner Nat.one_pos hlt
    rcases hkind with hstart | htail | hfinish
    · exact hinner.1 hstart
    · obtain ⟨o, hlink, -⟩ := hp.link_of_tail htail
      have hpos := hp.head_pos hlink
      have hlt' := hlink.lt
      omega
    · exact hinner.2 hfinish
  · exact absurd heq hmoved
  · simp [hlink.kind_head] at hkind

/-- Behind an instruction that is no end of a loop, the execution is inside the same loops as in
front of it. -/
theorem inside_straight_iff (hp : p.WellFormed) (hpc : pc ≤ p.endIndex)
    (hnext : p.next? pc = some i) (hhead : p.kindAt i ≠ .loopOpen)
    (htail : p.kindAt i ≠ .loopClose) (h : p.Link o c) :
    (o < i + 1 ∧ i + 1 ≤ c) ↔ (o < pc ∧ pc ≤ c) := by
  have hio : i ≠ o := fun heq => hhead (heq ▸ h.kind_head)
  have hic : i ≠ c := fun heq => htail (heq ▸ h.kind_tail)
  have hpos := hp.head_pos h
  rcases hp.next?_cases hpc hnext with ⟨rfl, rfl⟩ | ⟨-, rfl, -⟩ | hlink
  · omega
  · omega
  · exact absurd hlink.kind_head hhead

/-- The head and the tail of a loop are inside the same other loops, and so are the places right
behind them. -/
theorem inside_iff (hp : p.WellFormed) (h : p.Link o c) (h' : p.Link o' c') (hne : o ≠ o') :
    ((o < o' ∧ o' ≤ c) ↔ (o < c' ∧ c' ≤ c)) ∧ ((o < o' + 1 ∧ o' + 1 ≤ c) ↔ (o < o' ∧ o' ≤ c)) ∧
      ((o < c' + 1 ∧ c' + 1 ≤ c) ↔ (o < c' ∧ c' ≤ c)) := by
  have hlt := h.lt
  have hlt' := h'.lt
  have hc : c ≠ c' := by
    rintro rfl
    exact hne (h.head_unique h')
  have hoc := h.head_ne_tail h'
  have hoc' := h'.head_ne_tail h
  have hinner : o < o' → o' < c → c' < c := hp.tail_lt_tail h h'
  have houter : o' < o → o < c' → c < c' := hp.tail_lt_tail h' h
  omega

end WellFormed

end Program

namespace State

variable {p : Program} {width : UInt32} {answer : Option Int} {s s' : State} {i : Nat}
  {emitted : Option Char}

/-! ### What a step does -/

/-- What executing the instruction at index `i` does to a state, and what it emits. -/
inductive Effect (p : Program) (width : UInt32) (answer : Option Int) (s : State) (i : Nat) :
    Option Char → State → Prop
  | add (kind : p.kindAt i = .add) :
      Effect p width answer s i none
        { s.setCell (Cell.add width s.cell (p.tokenAt i).delta) with pc := i + 1 }
  | shift (kind : p.kindAt i = .shift) {pointer : Nat}
      (moved : Pointer.shift? s.pointer (p.tokenAt i).delta = some pointer) :
      Effect p width answer s i none { s with pc := i + 1, pointer }
  | output (kind : p.kindAt i = .output) :
      Effect p width answer s i (some (Cell.char s.cell)) { s with pc := i + 1 }
  | input (kind : p.kindAt i = .input) {number : Int} {value : UInt32}
      (read : answer = some number) (fits : Cell.ofInput? width number = some value) :
      Effect p width answer s i none
        { (s.setRecord i ((s.ledger.recordAt i).save s.cell)).setCell value with pc := i + 1 }
  | zero (kind : p.kindAt i = .zero) :
      Effect p width answer s i none
        { (s.setRecord i ((s.ledger.recordAt i).save s.cell)).setCell 0 with pc := i + 1 }
  | head (kind : p.kindAt i = .loopOpen) {tail : Nat}
      (partner : (p.tokenAt i).partner = some tail) :
      Effect p width answer s i none
        { s.setRecord i ((s.ledger.recordAt i).evaluate (s.cell != 0)) with
          pc := if s.cell != 0 then i + 1 else tail + 1 }
  | frame (kind : p.kindAt i = .start ∨ p.kindAt i = .loopClose ∨ p.kindAt i = .finish)
      (moved : i ≠ s.pc) : Effect p width answer s i none { s with pc := i }

/-- **Inversion.** An executed step executed the next instruction. -/
theorem effect_of_forward (h : s.forward p width answer = (.executed emitted, s')) :
    ∃ i, p.next? s.pc = some i ∧ Effect p width answer s i emitted s' := by
  rw [forward] at h
  cases hnext : p.next? s.pc with
  | none => simp [hnext] at h
  | some i =>
    refine ⟨i, rfl, ?_⟩
    simp only [hnext, perform] at h
    cases hkind : (p.tokenAt i).kind with
    | add =>
      simp only [hkind] at h
      cases h
      exact .add hkind
    | shift =>
      simp only [hkind] at h
      split at h
      · cases h
      · rename_i pointer hmoved
        cases h
        exact .shift hkind hmoved
    | output =>
      simp only [hkind] at h
      cases h
      exact .output hkind
    | input =>
      simp only [hkind] at h
      split at h
      · cases h
      · split at h
        · cases h
        · rename_i hfits
          cases h
          exact .input hkind rfl hfits
    | zero =>
      simp only [hkind] at h
      cases h
      exact .zero hkind
    | loopOpen =>
      simp only [hkind] at h
      split at h
      · cases h
      · rename_i tail hpartner
        cases h
        exact .head hkind hpartner
    | start | loopClose | finish =>
      simp only [hkind] at h
      split at h
      · cases h
      · rename_i hmoved
        cases h
        exact .frame (by simp [Program.kindAt, hkind]) hmoved

/-! ### The invariant -/

/-- What holds of the states that steps reach from the beginning. -/
structure Sound (p : Program) (width : UInt32) (s : State) : Prop where
  pc_le : s.pc ≤ p.endIndex
  /-- The execution does not rest in front of the first instruction, but at the beginning. -/
  pc_ne_one : s.pc = 1 → p.endIndex = 1
  size_ledger : s.ledger.size = p.size
  cell_lt : ∀ k, s.tape.get k < width
  /-- **The law of the flags.** -/
  inProgress_iff : ∀ {o c}, p.Link o c →
    ((s.ledger.recordAt o).inProgress = true ↔ o < s.pc ∧ s.pc ≤ c)
  passes_ne_nil : ∀ {o c}, p.Link o c → (s.ledger.recordAt o).inProgress = true →
    (s.ledger.recordAt o).passes ≠ []

/-- A program that is just loaded is in a sound state. -/
theorem sound_fresh (hw : 0 < width) : Sound p width (fresh p.size) where
  pc_le := Nat.zero_le _
  pc_ne_one h := absurd h Nat.zero_ne_one
  size_ledger := Ledger.size_blank _
  cell_lt k := by rw [fresh, Tape.get_blank]; exact hw
  inProgress_iff := by simp [fresh, Record.blank]
  passes_ne_nil := by simp [fresh, Record.blank]

/-- An instruction that is no end of a loop keeps the invariant, as long as it touches no record
of a loop head and writes a cell value. -/
theorem Sound.of_straight (hp : p.WellFormed) (hs : Sound p width s)
    (hnext : p.next? s.pc = some i) (hhead : p.kindAt i ≠ .loopOpen)
    (htail : p.kindAt i ≠ .loopClose) (hfinish : p.kindAt i ≠ .finish) (hpc : s'.pc = i + 1)
    (hsize : s'.ledger.size = s.ledger.size) (hcell : ∀ k, s'.tape.get k < width)
    (hrecord : ∀ o, p.kindAt o = .loopOpen → s'.ledger.recordAt o = s.ledger.recordAt o) :
    Sound p width s' where
  pc_le := by
    have hlt := Program.lt_size_of_kindAt hfinish
    have hne : i ≠ p.endIndex := fun heq => hfinish (heq ▸ hp.kindAt_endIndex)
    rw [Program.endIndex] at hne ⊢
    omega
  pc_ne_one h := by
    have hzero : i = 0 := by omega
    rcases hp.next?_cases hs.pc_le hnext with ⟨-, hi⟩ | ⟨hpos, hi, -⟩ | hlink
    · omega
    · omega
    · exact absurd hlink.kind_head hhead
  size_ledger := hsize.trans hs.size_ledger
  cell_lt := hcell
  inProgress_iff hlink := by
    rw [hrecord _ hlink.kind_head, hs.inProgress_iff hlink, hpc]
    exact (hp.inside_straight_iff hs.pc_le hnext hhead htail hlink).symm
  passes_ne_nil hlink := by
    rw [hrecord _ hlink.kind_head]
    exact hs.passes_ne_nil hlink

/-- Writing down an overwritten value touches no record of a loop head. -/
theorem recordAt_setRecord_of_head {r : Record} {o : Nat} (hhead : p.kindAt i ≠ .loopOpen)
    (ho : p.kindAt o = .loopOpen) : (s.setRecord i r).ledger.recordAt o = s.ledger.recordAt o := by
  have hne : i ≠ o := fun heq => hhead (heq ▸ ho)
  rw [setRecord, Ledger.recordAt_write, if_neg fun h => hne h.1]

/-- Writing a cell value keeps all cells in range. -/
theorem Sound.cell_set_lt (hs : Sound p width s) {value : UInt32} (hvalue : value < width)
    (k : Nat) : (s.tape.set s.pointer value).get k < width := by
  rw [Tape.get_set]
  split
  · exact hvalue
  · exact hs.cell_lt k

/-- Evaluating a loop head keeps the invariant: the head is in progress exactly if the loop is
entered, and no other loop is entered or left. -/
theorem Sound.of_head (hp : p.WellFormed) (hs : Sound p width s) {o c : Nat}
    (hnext : p.next? s.pc = some o) (hlink : p.Link o c) :
    Sound p width
      { s.setRecord o ((s.ledger.recordAt o).evaluate (s.cell != 0)) with
        pc := if s.cell != 0 then o + 1 else c + 1 } := by
  have hc := hp.tail_lt_endIndex hlink
  have hlt := hlink.lt
  have hpos := hp.head_pos hlink
  have hsize : o < s.ledger.size := by
    have := hp.endIndex_lt_size
    rw [hs.size_ledger]
    omega
  have hself : (s.ledger.write o ((s.ledger.recordAt o).evaluate (s.cell != 0))).recordAt o =
      (s.ledger.recordAt o).evaluate (s.cell != 0) := by
    rw [Ledger.recordAt_write, if_pos ⟨rfl, hsize⟩]
  have hother : ∀ {o'}, o' ≠ o →
      (s.ledger.write o ((s.ledger.recordAt o).evaluate (s.cell != 0))).recordAt o' =
        s.ledger.recordAt o' := fun hne => by
    rw [Ledger.recordAt_write, if_neg fun h => hne h.1.symm]
  refine ⟨?_, ?_, ?_, hs.cell_lt, ?_, ?_⟩
  · show (if s.cell != 0 then o + 1 else c + 1) ≤ p.endIndex
    split <;> omega
  · show (if s.cell != 0 then o + 1 else c + 1) = 1 → p.endIndex = 1
    split <;> omega
  · show (s.ledger.write o _).size = p.size
    rw [Ledger.size_write, hs.size_ledger]
  · intro o' c' hlink'
    show ((s.ledger.write o _).recordAt o').inProgress = true ↔
      o' < (if s.cell != 0 then o + 1 else c + 1) ∧ (if s.cell != 0 then o + 1 else c + 1) ≤ c'
    by_cases hne : o' = o
    · subst hne
      obtain rfl := hlink.tail_unique hlink'
      rw [hself, Record.evaluate]
      cases s.cell != 0
      · simp
      · simp only [if_true, true_iff]
        omega
    · rw [hother hne, hs.inProgress_iff hlink']
      obtain ⟨hsame, hbehindHead, hbehindTail⟩ := hp.inside_iff hlink' hlink hne
      -- the head was reached from right before it or from its tail, which are inside of the same
      -- other loops
      have hinside : (o' < s.pc ∧ s.pc ≤ c') ↔ (o' < o ∧ o ≤ c') := by
        rcases hp.next?_cases hs.pc_le hnext with ⟨hzero, hone⟩ | ⟨-, hpc, -⟩ | htail
        · have := hp.head_pos hlink'
          omega
        · rw [hpc]
        · obtain rfl := hlink.tail_unique htail
          exact hsame.symm
      rw [hinside]
      split
      · exact hbehindHead.symm
      · exact hsame.trans hbehindTail.symm
  · intro o' c' hlink'
    show ((s.ledger.write o _).recordAt o').inProgress = true →
      ((s.ledger.write o _).recordAt o').passes ≠ []
    by_cases hne : o' = o
    · subst hne
      intro _
      rw [hself, Record.evaluate]
      -- a counter is put on the stack, or raised on a stack that was not empty
      cases hin : (s.ledger.recordAt o').inProgress with
      | false => simp
      | true =>
        obtain ⟨n, rest, hpasses⟩ := List.exists_cons_of_ne_nil (hs.passes_ne_nil hlink hin)
        simp [hpasses, Record.bump]
    · rw [hother hne]
      exact hs.passes_ne_nil hlink'

/-- **Steps forward keep the invariant.** -/
theorem Sound.forward (hp : p.WellFormed) (hw : 0 < width) (hs : Sound p width s)
    (h : s.forward p width answer = (.executed emitted, s')) : Sound p width s' := by
  obtain ⟨i, hnext, heffect⟩ := effect_of_forward h
  cases heffect with
  | add hkind =>
    exact hs.of_straight hp hnext (by simp [hkind]) (by simp [hkind]) (by simp [hkind]) rfl rfl
      (hs.cell_set_lt (Cell.add_lt hw _ _)) fun _ _ => rfl
  | shift hkind =>
    exact hs.of_straight hp hnext (by simp [hkind]) (by simp [hkind]) (by simp [hkind]) rfl rfl
      hs.cell_lt fun _ _ => rfl
  | output hkind =>
    exact hs.of_straight hp hnext (by simp [hkind]) (by simp [hkind]) (by simp [hkind]) rfl rfl
      hs.cell_lt fun _ _ => rfl
  | input hkind _ hfits =>
    exact hs.of_straight hp hnext (by simp [hkind]) (by simp [hkind]) (by simp [hkind]) rfl
      (Ledger.size_write _ _ _) (hs.cell_set_lt (Cell.ofInput?_lt hfits))
      fun _ => recordAt_setRecord_of_head (by simp [hkind])
  | zero hkind =>
    exact hs.of_straight hp hnext (by simp [hkind]) (by simp [hkind]) (by simp [hkind]) rfl
      (Ledger.size_write _ _ _) (hs.cell_set_lt hw)
      fun _ => recordAt_setRecord_of_head (by simp [hkind])
  | head hkind hpartner =>
    obtain ⟨c, hlink, -⟩ := hp.link_of_head hkind
    obtain rfl := Option.some.inj (hlink.partner_head.symm.trans hpartner)
    exact hs.of_head hp hnext hlink
  | frame hkind hmoved =>
    -- only the empty program has a step that executes no instruction
    obtain ⟨hzero, rfl, hone⟩ := hp.endIndex_eq_one hs.pc_le hnext hkind hmoved
    have hnone : ∀ {o c}, ¬p.Link o c := fun hlink => by
      have hpos := hp.head_pos hlink
      have hlt := hlink.lt
      have hc := hp.tail_lt_endIndex hlink
      omega
    exact ⟨hp.endIndex_pos, fun _ => hone, hs.size_ledger, hs.cell_lt,
      fun hlink => absurd hlink hnone, fun hlink => absurd hlink hnone⟩

end State

end ReversibleTape
