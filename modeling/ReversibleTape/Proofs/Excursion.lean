import ReversibleTape.Proofs.Agreement

/-!
# Excursions

A run of moves may leave the range of pointers and come back. The machine does not wait for that:
it fails at the first move out of range. Where the run would have led is written in the program
all the same. `Program.slide p i` is the amount of the moves from index `i` on, up to the next
instruction of another kind, so a machine that fails at `i` was on its way from its pointer to the
place that lies `p.slide i` further.

`Strays width code σ q going` says the same of code: its evaluation from `σ` gets stuck on a move
out of range, and the run of this move leads to `q`. The run may reach the end of the code, and then
it is still `going` on in what follows. **The two agree**: if the code of a program strays to `q`,
its machine fails at an index from which the run leads to `q` (`Machine.Loaded.exists_strays`).
-/

namespace ReversibleTape

/-! ### Runs of moves -/

namespace Code

/-- The code consists of moves alone. -/
def isSlide : Code → Bool
  | .skip => true
  | .instr (.shift _) => true
  | .instr _ => false
  | .seq a b => a.isSlide && b.isSlide
  | .loop _ => false

/-- The amount of the moves with which the code begins. -/
def slide : Code → Int
  | .skip => 0
  | .instr (.shift d) => d
  | .instr _ => 0
  | .seq a b => if a.isSlide then a.slide + b.slide else a.slide
  | .loop _ => 0

end Code

namespace Program

variable {p : Program} {i j : Nat} {code : Code}

/-- The amount of the moves from an index on, up to the next instruction of another kind. -/
def slide (p : Program) (i : Nat) : Int :=
  ((p.tokens.toList.drop i).takeWhile fun t => t.kind == .shift).foldr (fun t d => t.delta + d) 0

theorem slide_of_shift (h : p.kindAt i = .shift) :
    p.slide i = (p.tokenAt i).delta + p.slide (i + 1) := by
  rw [slide, drop_tokens_eq_cons (lt_size_of_kindAt (by simp [h])),
    List.takeWhile_cons_of_pos (by simpa [kindAt] using h), List.foldr_cons]
  rfl

theorem slide_of_kindAt (h : p.kindAt i ≠ .shift) : p.slide i = 0 := by
  rcases Nat.lt_or_ge i p.size with hlt | hge
  · rw [slide, drop_tokens_eq_cons hlt, List.takeWhile_cons_of_neg (by simpa [kindAt] using h)]
    rfl
  · rw [slide, List.drop_eq_nil_of_le (by simpa [size] using hge)]
    rfl

/-- The moves with which the layout of code begins are those of the code, and what follows it if
there are no others. -/
theorem Spells.slide_eq (h : p.Spells i code j) :
    p.slide i = code.slide + if code.isSlide then p.slide j else 0 := by
  induction h with
  | skip i => simp [Code.slide, Code.isSlide]
  | @instr i x token =>
    have htoken := Token.instr?_eq_some_iff.mp token
    cases x with
    | shift d =>
      obtain ⟨hkind, rfl, -⟩ := htoken
      rw [slide_of_shift hkind]
      rfl
    | add d =>
      rw [slide_of_kindAt (by simp [kindAt, htoken.1])]
      rfl
    | output | input | zero =>
      rw [slide_of_kindAt (by rw [kindAt, htoken]; decide)]
      rfl
  | @seq i k j a b first second ih₁ ih₂ =>
    rw [ih₁, ih₂, Code.slide, Code.isSlide]
    cases a.isSlide
    · simp
    · simp [Int.add_assoc]
  | loop link =>
    rw [slide_of_kindAt (by simp [link.kind_head])]
    rfl

end Program

/-! ### Code that leaves the range -/

/-- Evaluating the code from a store gets stuck on a move out of range, and the run of this move
leads to a place, from where it is still going on if it comes to the end of the code. -/
inductive Strays (width : UInt32) : Code → Store → Int → Bool → Prop
  | move {d : Int} {σ σ' : Store} (exec : (Instr.shift d).exec width σ = (.underflow, σ')) :
      Strays width (.instr (.shift d)) σ (σ.pointer + d) true
  | within {a b : Code} {σ : Store} {q : Int} (first : Strays width a σ q false) :
      Strays width (.seq a b) σ q false
  | goesOn {a b : Code} {σ : Store} {q : Int} (first : Strays width a σ q true) :
      Strays width (.seq a b) σ (q + b.slide) b.isSlide
  | second {a b : Code} {σ τ : Store} {n : Nat} {q : Int} {going : Bool}
      (first : Eval width a σ n .normal τ) (second : Strays width b τ q going) :
      Strays width (.seq a b) σ q going
  | pass {body : Code} {σ : Store} {q : Int} {going : Bool} (nonzero : σ.cell ≠ 0)
      (pass : Strays width body σ q going) : Strays width (.loop body) σ q false
  | again {body : Code} {σ τ : Store} {n : Nat} {q : Int} {going : Bool} (nonzero : σ.cell ≠ 0)
      (pass : Eval width body σ n .normal τ) (again : Strays width (.loop body) τ q going) :
      Strays width (.loop body) σ q going

variable {width : UInt32} {code : Code} {σ σ' : Store} {n : Nat} {e : Ending} {x : Instr}

/-- Only moves leave the range. -/
theorem Instr.exec_underflow (h : x.exec width σ = (.underflow, σ')) : ∃ d, x = .shift d := by
  cases x with
  | shift d => exact ⟨d, rfl⟩
  | add | output | zero => simp [Instr.exec] at h
  | input =>
    rw [Instr.exec] at h
    split at h
    · simp at h
    · simp only at h
      split at h <;> simp at h

/-- **Code that gets stuck on a move strays.** -/
theorem Eval.exists_strays (h : Eval width code σ n e σ') (he : e = .underflow) :
    ∃ q going, Strays width code σ q going := by
  induction h with
  | skip | instr | loopDone => cases he
  | instrStuck exec =>
    subst he
    obtain ⟨d, rfl⟩ := Instr.exec_underflow exec
    exact ⟨_, _, .move exec⟩
  | seq first _ _ ih =>
    obtain ⟨q, going, hstray⟩ := ih he
    exact ⟨q, going, .second first hstray⟩
  | seqStuck _ _ ih =>
    obtain ⟨q, going, hstray⟩ := ih he
    cases going with
    | false => exact ⟨q, false, .within hstray⟩
    | true => exact ⟨_, _, .goesOn hstray⟩
  | loopPass nonzero pass _ _ ih =>
    obtain ⟨q, going, hstray⟩ := ih he
    exact ⟨q, going, .again nonzero pass hstray⟩
  | loopStuck nonzero _ _ ih =>
    obtain ⟨q, going, hstray⟩ := ih he
    exact ⟨q, false, .pass nonzero hstray⟩

/-! ### The machine on an excursion -/

namespace Machine

variable {p : Program} {m m' : Machine Buffer} {i j budget : Nat} {q : Int} {going : Bool}

/-- A move out of range fails at its index. -/
theorem At.stepForward_underflow (h : At p width i σ m) {d : Int}
    (hx : (p.tokenAt i).instr? = some (.shift d))
    (hexec : (Instr.shift d).exec width σ = (.underflow, σ')) :
    m.stepForward.1 = .error (.pointerUnderflow i m.state.pointer d) := by
  obtain ⟨rfl, rfl, hnext, rfl⟩ := h
  rw [Program.next?_of_instr? hx] at hnext
  obtain ⟨hkind, rfl, -⟩ := Token.instr?_eq_some_iff.mp hx
  have hnone : Pointer.shift? m.state.pointer (m.program.tokenAt i).delta = none := by
    rw [Option.eq_none_iff_forall_ne_some]
    intro moved hmoved
    obtain ⟨-, hle, hpointer⟩ := Pointer.shift?_eq_some_iff.mp hmoved
    rw [Instr.exec, if_pos ⟨hpointer ▸ Int.natCast_nonneg _, hle⟩] at hexec
    cases hexec
  rw [stepForward_of_perform hnext (consult_of_kindAt (by simp [Program.kindAt, hkind]) _)
    (by simp only [State.perform, hkind, hnone]; rfl)]

/-- **The machine follows code that strays** up to the move out of range, and from there the moves
of the program lead to where the code strays. -/
theorem At.exists_fault (hw : 0 < width) (h : At p width i σ m) (hspells : p.Spells i code j)
    (hrange : σ.InRange width) (hstray : Strays width code σ q going) :
    ∃ n m' pc delta, Advances n m m' ∧
      m'.stepForward.1 = .error (.pointerUnderflow pc m'.state.pointer delta) ∧
      m'.state.pointer + p.slide pc = q + if going then p.slide j else 0 := by
  induction hstray generalizing i j m with
  | @move d σ σ' exec =>
    cases hspells with
    | instr token =>
      obtain ⟨hkind, hdelta, -⟩ := Token.instr?_eq_some_iff.mp token
      have hpointer : m.state.pointer = σ.pointer := congrArg Store.pointer h.store_eq
      refine ⟨0, m, i, d, .refl m, h.stepForward_underflow token exec, ?_⟩
      rw [Program.slide_of_shift hkind, hdelta, hpointer, if_pos rfl, Int.add_assoc]
  | within _ ih =>
    cases hspells with
    | seq spells₁ spells₂ =>
      obtain ⟨n, m', pc, delta, hadvance, hfault, hslide⟩ := ih h spells₁ hrange
      exact ⟨n, m', pc, delta, hadvance, hfault, by simpa using hslide⟩
  | goesOn _ ih =>
    cases hspells with
    | seq spells₁ spells₂ =>
      obtain ⟨n, m', pc, delta, hadvance, hfault, hslide⟩ := ih h spells₁ hrange
      refine ⟨n, m', pc, delta, hadvance, hfault, ?_⟩
      rw [hslide, if_pos rfl, spells₂.slide_eq, Int.add_assoc]
  | second first _ ih =>
    cases hspells with
    | seq spells₁ spells₂ =>
      cases h.reaches hw spells₁ hrange first with
      | normal advances at_end =>
        obtain ⟨n, m', pc, delta, hadvance, hfault⟩ := ih at_end spells₂ (hrange.eval hw first)
        exact ⟨_, m', pc, delta, advances.trans hadvance, hfault⟩
      | stuck _ abnormal => exact absurd rfl abnormal
  | @pass body σ q going nonzero _ ih =>
    cases hspells with
    | loop link inner =>
      obtain ⟨m₁, henter, hat⟩ := h.enter link nonzero
      obtain ⟨n, m', pc, delta, hadvance, hfault, hslide⟩ := ih hat inner hrange
      refine ⟨_, m', pc, delta, henter.trans hadvance, hfault, ?_⟩
      -- the tail of the loop ends the run
      rw [hslide, Program.slide_of_kindAt (by simp [link.kind_tail])]
      simp
  | again nonzero pass _ ih =>
    cases hspells with
    | loop link inner =>
      obtain ⟨m₁, henter, hat⟩ := h.enter link nonzero
      cases hat.reaches hw inner hrange pass with
      | normal advances at_end =>
        obtain ⟨n, m', pc, delta, hadvance, hfault⟩ :=
          ih (at_end.head_of_tail link) (.loop link inner) (hrange.eval hw pass)
        exact ⟨_, m', pc, delta, (henter.trans advances).trans hadvance, hfault⟩
      | stuck _ abnormal => exact absurd rfl abnormal

/-- A run that ends with a fault comes to the step that fails. -/
theorem Advances.fault_eq {fault fault' : Fault} (h : Advances n m m')
    (hstep : m'.stepForward.1 = .error fault) (hrun : (m.run budget).1 = .error fault') :
    fault' = fault := by
  have hend : m'.atEnd = false := atEnd_eq_false (by simp [hstep])
  rcases Nat.lt_or_ge n budget with hlt | hge
  · obtain ⟨rest, rfl⟩ : ∃ rest, budget = n + (rest + 1) := ⟨budget - n - 1, by omega⟩
    have hpair : m'.stepForward = (.error fault, m'.stepForward.2) := Prod.ext hstep rfl
    rw [run, h.runFrom_eq, runFrom, hend, hpair] at hrun
    exact (Except.error.inj hrun).symm
  · -- with no budget left for the step that fails, the run stops at its limit
    obtain ⟨m₁, hadvance, hend₁⟩ : ∃ m₁, Advances budget m m₁ ∧ m₁.atEnd = false := by
      rcases Nat.lt_or_eq_of_le hge with hlt | rfl
      · exact h.exists_before hlt
      · exact ⟨m', h, hend⟩
    rw [run, hadvance.runFrom_limit hend₁] at hrun
    cases hrun

/-- **Faults are excursions.** If a program fails with a move out of range, its code strays, and to
the place where the moves from the one that fails on lead. -/
theorem Loaded.exists_strays (h : m.Loaded)
    (hspells : m.program.Spells 1 code m.program.endIndex) {pc pointer : Nat} {delta : Int}
    (hends : m.Ends (.error (.pointerUnderflow pc pointer delta)) σ) :
    ∃ q going, Strays m.config.cellWidth code m.store q going ∧
      pointer + m.program.slide pc = q := by
  obtain ⟨n, heval⟩ := (h.ends_pointerUnderflow_iff hspells).mp ⟨pc, pointer, delta, hends⟩
  obtain ⟨q, going, hstray⟩ := heval.exists_strays rfl
  obtain ⟨n, m', pc', delta', hadvance, hfault, hslide⟩ :=
    h.at_one.exists_fault h.width_pos hspells h.inRange hstray
  obtain ⟨budget, last, hrun, -⟩ := hends
  cases hadvance.fault_eq hfault (congrArg Prod.fst hrun)
  refine ⟨q, going, hstray, ?_⟩
  rw [hslide, Program.slide_of_kindAt (by simp [h.wellFormed.kindAt_endIndex])]
  simp

end Machine

end ReversibleTape
