import ReversibleTape.Proofs.Agreement
import ReversibleTape.Proofs.FoldedSource

/-!
# Folding is transparent

A source is loaded twice, without folding and with it, and both machines run on the same buffer.
Their code is related by `FoldsTo`, runs agree with evaluation, and so the runs are related:

* `Machine.run_of_unfolded`: **every run that does not leave the range of pointers is kept**. The
  folded program ends in the same way and in the same store, with the same budget and in no more
  steps.
* `Machine.unfolded_of_run`: **folding hides moves out of range and nothing else**. If the folded
  program ends, the unfolded one ends as well, and in the same way unless it leaves the range.

The number of steps needs care at one place only: both programs may be empty or only the second,
and the empty program is run in one step although it costs nothing. For runs that finish, the
number of steps is the cost, but never less than one (`Machine.Loaded.steps_eq_max`).
-/

namespace ReversibleTape

/-! ### Reports of the same ending -/

namespace Ending

variable {e : Ending} {width width' : UInt32} {n n' steps pc pointer : Nat} {value delta : Int}
  {stop : StopReason} {result : Except Fault RunSummary}

theorem ok_of_reports (h : e.Reports width n (.ok { steps, stop }))
    (h' : e.Reports width n' result) : steps = n ∧ result = .ok { steps := n', stop } := by
  cases e with
  | normal | pending =>
    cases h
    exact ⟨rfl, h'⟩
  | underflow | invalid => simp [Reports] at h

theorem invalid_of_reports (h : e.Reports width n (.error (.invalidInputValue pc value width')))
    (h' : e.Reports width n' result) :
    ∃ pc', result = .error (.invalidInputValue pc' value width') := by
  cases e with
  | invalid value' =>
    obtain ⟨_, heq⟩ := h
    cases heq
    exact h'
  | normal | pending | underflow => simp [Reports] at h

theorem underflow_of_reports
    (h : e.Reports width n (.error (.pointerUnderflow pc pointer delta)))
    (h' : e.Reports width n' result) :
    ∃ pc' pointer' delta', result = .error (.pointerUnderflow pc' pointer' delta') := by
  cases e with
  | underflow => exact h'
  | normal | pending | invalid => simp [Reports] at h

end Ending

namespace Machine

variable {m m' : Machine Buffer} {code : Code} {σ : Store} {e : Ending} {n k budget : Nat}
  {source : String} {config : Config} {buffer : Buffer} {optimize : Bool}

theorem ok_ne_stepLimit {stop : StopReason} (hstop : stop = .finished ∨ stop = .inputPending)
    (steps : Nat) :
    (.ok { steps := n, stop } : Except Fault RunSummary) ≠ .ok { steps, stop := .stepLimit } := by
  rintro ⟨⟩
  simp at hstop

/-! ### Pairs of machines -/

/-- Two loaded machines with equal stores, the second of which runs a folded form of the code of
the first. -/
structure Folded (m m' : Machine Buffer) : Prop where
  loaded : m.Loaded
  loaded_folded : m'.Loaded
  width_eq : m'.config.cellWidth = m.config.cellWidth
  store_eq : m'.store = m.store
  foldsTo : ∃ u v, m.program.Spells 1 u m.program.endIndex ∧
    m'.program.Spells 1 v m'.program.endIndex ∧ FoldsTo m.config.cellWidth u v

/-- **Both machines of a source.** If a source is loaded with folding or without, it is loaded
both ways, and one machine is a folded form of the other. -/
theorem exists_folded {m₀ : Machine Buffer}
    (h : ofSource source (config.withOptimize optimize) buffer = .ok m₀) :
    ∃ m m', ofSource source (config.withOptimize false) buffer = .ok m ∧
      ofSource source (config.withOptimize true) buffer = .ok m' ∧ Folded m m' := by
  obtain ⟨hw, p₀, hp₀, -⟩ := ofSource_eq_ok_iff.mp h
  obtain ⟨p, q, u, v, hp, hq, hu, hv, hfolds⟩ :=
    Program.exists_pair hw (Program.unmatched?_of_ofSource hp₀)
  refine ⟨_, _, ofSource_eq_ok_iff.mpr ⟨hw, p, hp, rfl⟩, ofSource_eq_ok_iff.mpr ⟨hw, q, hq, rfl⟩,
    ⟨Program.wellFormed_of_ofSource hp, hw, rfl⟩, ⟨Program.wellFormed_of_ofSource hq, hw, rfl⟩,
    rfl, rfl, u, v, hu, hv, hfolds⟩

namespace Folded

/-- The folded program needs no more steps. -/
theorem steps_le (h : Folded m m') {u v : Code} (hu : m.program.Spells 1 u m.program.endIndex)
    (hv : m'.program.Spells 1 v m'.program.endIndex)
    (heval : Eval m.config.cellWidth u m.store n e σ)
    (heval' : Eval m'.config.cellWidth v m'.store k e σ) (hle : k ≤ n) :
    m'.program.steps k ≤ m.program.steps n := by
  by_cases he : e = .normal
  · subst he
    rw [h.loaded.steps_eq_max hu heval, h.loaded_folded.steps_eq_max hv heval']
    omega
  · rw [h.loaded.steps_of_stuck hu he heval, h.loaded_folded.steps_of_stuck hv he heval']
    exact hle

/-- A run that neither stops at its limit nor leaves the range is kept. -/
theorem run_eq (h : Folded m m') {result : Except Fault RunSummary} {last : Machine Buffer}
    (hrun : m.run budget = (result, last))
    (hlimit : ∀ steps, result ≠ .ok { steps, stop := .stepLimit })
    (hunder : ∀ pc pointer delta, result ≠ .error (.pointerUnderflow pc pointer delta)) :
    ∃ (e : Ending) (steps steps' : Nat) (result' : Except Fault RunSummary)
      (last' : Machine Buffer), e.Reports m.config.cellWidth steps result ∧
        e.Reports m.config.cellWidth steps' result' ∧ m'.run budget = (result', last') ∧
        steps' ≤ steps ∧ last'.store = last.store := by
  obtain ⟨u, v, hu, hv, hfolds⟩ := h.foldsTo
  have hnot : (m.run budget).1 ≠ .ok { steps := budget, stop := .stepLimit } := by
    rw [hrun]
    exact hlimit budget
  obtain ⟨n, e, heval, hneed, hreports⟩ := h.loaded.eval_of_run hu hnot
  rw [hrun] at heval hreports
  have he : e ≠ .underflow := by
    rintro rfl
    obtain ⟨pc, pointer, delta, heq⟩ := hreports
    exact hunder pc pointer delta heq
  obtain ⟨k, hk, heval'⟩ := hfolds.forward h.loaded.inRange heval he
  rw [← h.width_eq, ← h.store_eq] at heval'
  have hsteps := h.steps_le hu hv heval heval' hk
  have hneed' : e.need (m'.program.steps k) ≤ budget :=
    Nat.le_trans (Ending.need_mono hsteps e) hneed
  obtain ⟨hreports', hstore⟩ := h.loaded_folded.run_of_eval hv heval' hneed'
  rw [h.width_eq] at hreports'
  exact ⟨e, _, _, _, _, hreports, hreports', rfl, hsteps, hstore⟩

/-- If the folded program ends, the program ends in the same way unless it leaves the range. -/
theorem ends_or (h : Folded m m') {result : Except Fault RunSummary} (hends : m'.Ends result σ)
    (hlimit : ∀ steps, result ≠ .ok { steps, stop := .stepLimit }) :
    (∃ pc pointer delta τ, m.Ends (.error (.pointerUnderflow pc pointer delta)) τ) ∨
      ∃ (e : Ending) (steps steps' : Nat) (result' : Except Fault RunSummary),
        e.Reports m.config.cellWidth steps result ∧ e.Reports m.config.cellWidth steps' result' ∧
          m.Ends result' σ := by
  obtain ⟨u, v, hu, hv, hfolds⟩ := h.foldsTo
  obtain ⟨k, e, heval, hreports⟩ := h.loaded_folded.eval_of_ends hv hends hlimit
  rw [h.width_eq, h.store_eq] at heval
  rw [h.width_eq] at hreports
  rcases hfolds.backward h.loaded.inRange heval with ⟨n, τ, hunder⟩ | ⟨n, heval'⟩
  · obtain ⟨result', ⟨pc, pointer, delta, rfl⟩, hends'⟩ := h.loaded.ends_of_eval hu hunder
    exact .inl ⟨pc, pointer, delta, τ, hends'⟩
  · obtain ⟨result', hreports', hends'⟩ := h.loaded.ends_of_eval hu heval'
    exact .inr ⟨e, _, _, result', hreports, hreports', hends'⟩

end Folded

/-- **Folding keeps runs.** Load any source without folding, with any configuration and any buffer.
Then it can be loaded with folding too, and every run that finishes, waits for a value or reads a
value that does not fit ends in the same way with the same budget: in the same store, which holds
the tape, the pointer, the output and the values that are not read yet, and in no more steps. -/
theorem run_of_unfolded
    (hload : ofSource source (config.withOptimize false) buffer = .ok m) :
    ∃ m', ofSource source (config.withOptimize true) buffer = .ok m' ∧
      (∀ budget steps stop last, stop = .finished ∨ stop = .inputPending →
        m.run budget = (.ok { steps, stop }, last) →
        ∃ steps' last', m'.run budget = (.ok { steps := steps', stop }, last') ∧
          steps' ≤ steps ∧ last'.store = last.store) ∧
      ∀ budget pc value width last,
        m.run budget = (.error (.invalidInputValue pc value width), last) →
        ∃ pc' last', m'.run budget = (.error (.invalidInputValue pc' value width), last') ∧
          last'.store = last.store := by
  obtain ⟨m₁, m', hload₁, hload', hfolded⟩ := exists_folded hload
  obtain rfl : m = m₁ := Except.ok.inj (hload.symm.trans hload₁)
  refine ⟨m', hload', ?_, ?_⟩
  · intro budget steps stop last hstop hrun
    obtain ⟨e, n, k, result, last', hreports, hreports', hrun', hle, hstore⟩ :=
      hfolded.run_eq hrun (ok_ne_stepLimit hstop) (by simp)
    obtain ⟨rfl, rfl⟩ := Ending.ok_of_reports hreports hreports'
    exact ⟨k, last', hrun', hle, hstore⟩
  · intro budget pc value width last hrun
    obtain ⟨e, n, k, result, last', hreports, hreports', hrun', -, hstore⟩ :=
      hfolded.run_eq hrun (by simp) (by simp)
    obtain ⟨pc', rfl⟩ := Ending.invalid_of_reports hreports hreports'
    exact ⟨pc', last', hrun', hstore⟩

theorem run_of_unfolded_clear :
    ∃ m m' : Machine Buffer,
      ofSource "++[-],." (Config.standard.withOptimize false) { inputs := [65] } = .ok m ∧
        ofSource "++[-],." (Config.standard.withOptimize true) { inputs := [65] } = .ok m' ∧
        (m.run 9).1 = .ok { steps := 9, stop := .finished } ∧
        (m'.run 9).1 = .ok { steps := 4, stop := .finished } ∧
        (m'.run 9).2.store = { tape := .ofCells #[65], buffer := { output := "A" } } := by
  have hload : ofSource "++[-],." (Config.standard.withOptimize false) { inputs := [65] } =
    .ok (_ : Machine Buffer) := rfl
  have hfolded : ofSource "++[-],." (Config.standard.withOptimize true) { inputs := [65] } =
    .ok (_ : Machine Buffer) := rfl
  obtain ⟨m', hload', hruns, -⟩ := run_of_unfolded hload
  obtain rfl := Except.ok.inj (hfolded.symm.trans hload')
  obtain ⟨steps, last, hrun, -, hstore⟩ :=
    hruns 9 9 .finished _ (.inl rfl) (Prod.ext (by decide +kernel) rfl)
  refine ⟨_, _, hload, hfolded, by decide +kernel, by decide +kernel, ?_⟩
  rw [hrun, hstore]
  decide +kernel

/-- **Folding hides moves out of range and nothing else.** Load any source with folding, with any
configuration and any buffer. Then it can be loaded without folding too. If the folded program
finishes, waits for a value or reads a value that does not fit, the unfolded one comes to an end as
well: it ends in the same way and in the same store, or it leaves the range of pointers. If the
folded program leaves the range, so does the unfolded one. -/
theorem unfolded_of_run
    (hload : ofSource source (config.withOptimize true) buffer = .ok m') :
    ∃ m, ofSource source (config.withOptimize false) buffer = .ok m ∧
      (∀ steps' stop σ, stop = .finished ∨ stop = .inputPending →
        m'.Ends (.ok { steps := steps', stop }) σ →
        (∃ steps, m.Ends (.ok { steps, stop }) σ) ∨
          ∃ pc pointer delta τ, m.Ends (.error (.pointerUnderflow pc pointer delta)) τ) ∧
      (∀ pc' value width σ, m'.Ends (.error (.invalidInputValue pc' value width)) σ →
        (∃ pc, m.Ends (.error (.invalidInputValue pc value width)) σ) ∨
          ∃ pc pointer delta τ, m.Ends (.error (.pointerUnderflow pc pointer delta)) τ) ∧
      ∀ pc' pointer' delta' σ, m'.Ends (.error (.pointerUnderflow pc' pointer' delta')) σ →
        ∃ pc pointer delta τ, m.Ends (.error (.pointerUnderflow pc pointer delta)) τ := by
  obtain ⟨m, m₁, hload', hload₁, hfolded⟩ := exists_folded hload
  obtain rfl : m' = m₁ := Except.ok.inj (hload.symm.trans hload₁)
  refine ⟨m, hload', ?_, ?_, ?_⟩
  · intro steps' stop σ hstop hends
    rcases hfolded.ends_or hends (ok_ne_stepLimit hstop) with
      hunder | ⟨e, k, n, result, hreports, hreports', hends'⟩
    · exact .inr hunder
    · obtain ⟨rfl, rfl⟩ := Ending.ok_of_reports hreports hreports'
      exact .inl ⟨n, hends'⟩
  · intro pc' value width σ hends
    rcases hfolded.ends_or hends (by simp) with
      hunder | ⟨e, k, n, result, hreports, hreports', hends'⟩
    · exact .inr hunder
    · obtain ⟨pc, rfl⟩ := Ending.invalid_of_reports hreports hreports'
      exact .inl ⟨pc, hends'⟩
  · intro pc' pointer' delta' σ hends
    rcases hfolded.ends_or hends (by simp) with
      hunder | ⟨e, k, n, result, hreports, hreports', hends'⟩
    · exact hunder
    · obtain ⟨pc, pointer, delta, rfl⟩ := Ending.underflow_of_reports hreports hreports'
      exact ⟨pc, pointer, delta, σ, hends'⟩

/-- A folded run that leaves the range, one that finishes as the unfolded run does, and one that
finishes although the unfolded run leaves the range. -/
theorem unfolded_of_run_left :
    (∃ m m' : Machine Buffer,
      ofSource "<<" (Config.standard.withOptimize true) {} = .ok m' ∧
        ofSource "<<" (Config.standard.withOptimize false) {} = .ok m ∧
        (m'.run 1).1 = .error (.pointerUnderflow 1 0 (-2)) ∧
        ∃ pc pointer delta τ, m.Ends (.error (.pointerUnderflow pc pointer delta)) τ) ∧
    (∃ m m' : Machine Buffer,
      ofSource "++[-]" (Config.standard.withOptimize true) {} = .ok m' ∧
        ofSource "++[-]" (Config.standard.withOptimize false) {} = .ok m ∧
        m'.Ends (.ok { steps := 2, stop := .finished }) {} ∧
        ((∃ steps, m.Ends (.ok { steps, stop := .finished }) {}) ∨
          ∃ pc pointer delta τ, m.Ends (.error (.pointerUnderflow pc pointer delta)) τ) ∧
        m.EndsWithin 7 (.ok { steps := 7, stop := .finished }) {}) ∧
    ∃ m m' : Machine Buffer,
      ofSource "<>" (Config.standard.withOptimize true) {} = .ok m' ∧
        ofSource "<>" (Config.standard.withOptimize false) {} = .ok m ∧
        m'.Ends (.ok { steps := 1, stop := .finished }) {} ∧
        ((∃ steps, m.Ends (.ok { steps, stop := .finished }) {}) ∨
          ∃ pc pointer delta τ, m.Ends (.error (.pointerUnderflow pc pointer delta)) τ) ∧
        (m.run 1).1 = .error (.pointerUnderflow 1 0 (-1)) := by
  refine ⟨?_, ?_, ?_⟩
  · have hload : ofSource "<<" (Config.standard.withOptimize true) {} =
      .ok (_ : Machine Buffer) := rfl
    obtain ⟨m, hload', -, -, hunder⟩ := unfolded_of_run hload
    exact ⟨m, _, hload, hload', by decide +kernel,
      hunder 1 0 (-2) _ ⟨1, _, Prod.ext (by decide +kernel) rfl, rfl⟩⟩
  · have hload : ofSource "++[-]" (Config.standard.withOptimize true) {} =
      .ok (_ : Machine Buffer) := rfl
    have hplain : ofSource "++[-]" (Config.standard.withOptimize false) {} =
      .ok (_ : Machine Buffer) := rfl
    obtain ⟨m, hload', hruns, -⟩ := unfolded_of_run hload
    obtain rfl := Except.ok.inj (hplain.symm.trans hload')
    refine ⟨_, _, hload, hplain, ?agree, hruns 2 .finished {} (.inl rfl) ?agree, ?_⟩
    · exact ⟨2, _, Prod.ext (by decide +kernel) rfl, by decide +kernel⟩
    · exact ⟨_, Prod.ext (by decide +kernel) rfl, by decide +kernel⟩
  · -- nothing is left of the two moves, the first of which leaves the range
    have hload : ofSource "<>" (Config.standard.withOptimize true) {} =
      .ok (_ : Machine Buffer) := rfl
    have hplain : ofSource "<>" (Config.standard.withOptimize false) {} =
      .ok (_ : Machine Buffer) := rfl
    obtain ⟨m, hload', hruns, -⟩ := unfolded_of_run hload
    obtain rfl := Except.ok.inj (hplain.symm.trans hload')
    refine ⟨_, _, hload, hplain, ?hide, hruns 1 .finished {} (.inl rfl) ?hide, by decide +kernel⟩
    exact ⟨1, _, Prod.ext (by decide +kernel) rfl, by decide +kernel⟩

end Machine

end ReversibleTape
