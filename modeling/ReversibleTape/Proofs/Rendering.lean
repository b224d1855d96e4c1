import ReversibleTape.Proofs.Acceptance
import ReversibleTape.Proofs.CondensedCode
import ReversibleTape.Proofs.Transparency

/-!
# Rendered programs

The canonical source of a program says every amount in units and every `zero` as a loop. Read again
without folding, it is another program, in which nothing stands at its old index. **Both run alike**
(`Machine.rendered_runs_alike`): they come to the same ending in the same store, or neither comes to
an end. Only where they leave the range of pointers may the pointer differ, since one of them got
there in units.

`Renders width text code` is what the text of a part of a program has to do with its code. Wherever
it is read, it appends some code, and this code is condensed to the given one. The relation is
closed under all that code is made of (`Renders.append`, `Renders.loop`, `Renders.run`), so every
program is rendered by its canonical source (`Program.WellFormed.renders`).
-/

namespace ReversibleTape

open Brackets (Balanced)

/-- A text in two parts is scanned in two parts. -/
theorem Lexeme.scanFrom_append (pos : Position) (u v : List Char) :
    scanFrom pos (u ++ v) = scanFrom pos u ++ scanFrom (u.foldl Position.advance pos) v := by
  induction u generalizing pos with
  | nil => rfl
  | cons c u ih =>
    rw [List.cons_append, scanFrom, scanFrom, List.foldl_cons, ih]
    cases Symbol.ofChar? c <;> rfl

/-! ### Reading texts without folding -/

namespace Folder

/-- The folder behind a text that is read without folding. -/
def readText (f : Folder) (pos : Position) (text : List Char) : Folder :=
  (Lexeme.scanFrom pos text).foldl (read false) f

theorem readText_append (f : Folder) (pos : Position) (u v : List Char) :
    f.readText pos (u ++ v) =
      (f.readText pos u).readText (u.foldl Position.advance pos) v := by
  rw [readText, Lexeme.scanFrom_append, List.foldl_append]
  rfl

theorem readText_symbol (f : Folder) (pos : Position) (s : Symbol) :
    f.readText pos [s.char] = f.read false { symbol := s, position := pos } := by
  simp [readText, Lexeme.scanFrom]

/-- The tokens leave a stack of code, and the latest of them absorbs nothing. -/
structure Holds (f : Folder) (cs : List Code) : Prop where
  absorbing_eq : f.absorbing = false
  builds : Token.Builds f.tokens cs

end Folder

/-- The text is balanced, and it appends the code in some longer form wherever it is read. -/
structure Renders (width : UInt32) (text : List Char) (code : Code) : Prop where
  balanced : Balanced text
  reads : ∀ (pos : Position) {f : Folder} {c : Code} {cs : List Code}, f.Holds (c :: cs) →
    ∃ c', (f.readText pos text).Holds (c' :: cs) ∧ Condenses width c' (.seq c code)

namespace Renders

variable {width : UInt32} {u v : List Char} {a b : Code} {x : Instr}

theorem nil : Renders width [] .skip where
  balanced := Brackets.balanced_nil
  reads := by
    intro pos f c cs hf
    exact ⟨c, hf, .of_iff Eval.seq_skip_iff.symm⟩

theorem condense (hw : 0 < width) (h : Renders width u a) (hab : Condenses width a b) :
    Renders width u b where
  balanced := h.balanced
  reads := by
    intro pos f c cs hf
    obtain ⟨c', hf', hc'⟩ := h.reads pos hf
    exact ⟨c', hf', hc'.trans (.seq hw (.refl c) hab)⟩

theorem append (hw : 0 < width) (h : Renders width u a) (h' : Renders width v b) :
    Renders width (u ++ v) (.seq a b) where
  balanced := h.balanced.append_iff.mpr h'.balanced
  reads := by
    intro pos f c cs hf
    obtain ⟨c', hf', hc'⟩ := h.reads pos hf
    obtain ⟨c'', hf'', hc''⟩ := h'.reads (u.foldl Position.advance pos) hf'
    rw [Folder.readText_append]
    refine ⟨c'', hf'', ?_⟩
    calc Condenses width c'' (.seq c' b) := hc''
      Condenses width _ (.seq (.seq c a) b) := .seq hw hc' (.refl b)
      Condenses width _ (.seq c (.seq a b)) := .seq_assoc

/-- A character that is an instruction. -/
theorem symbol {s : Symbol} (hx : s.instr? = some x) : Renders width [s.char] (.instr x) where
  balanced := by
    refine (Brackets.balanced_cons_iff ?_).mpr Brackets.balanced_nil
    cases s with
    | loopOpen | loopClose | newline => cases hx
    | increment | decrement | right | left | output | input => rfl
  reads := by
    intro pos f c cs hf
    rw [Folder.readText_symbol]
    obtain ⟨habsorbing, hbuilds⟩ :=
      Folder.read_false (l := { symbol := s, position := pos }) hx hf.absorbing_eq hf.builds
    exact ⟨_, ⟨habsorbing, hbuilds⟩, .refl _⟩

/-- Between brackets the code is a loop. -/
theorem loop (hw : 0 < width) (h : Renders width u a) :
    Renders width ('[' :: (u ++ [']'])) (.loop a) where
  balanced := (Brackets.Balanced.pair_iff rfl rfl h.balanced).mpr Brackets.balanced_nil
  reads := by
    intro pos f c cs hf
    have hhead : (f.readText pos ['[']).Holds (.skip :: c :: cs) := by
      rw [show '[' = Symbol.loopOpen.char from rfl, Folder.readText_symbol]
      exact ⟨rfl, .head rfl hf.builds⟩
    -- inside the brackets the text is read with the code before them set aside
    obtain ⟨body, hbody, hcondenses⟩ := h.reads (Position.advance pos '[') hhead
    have htext : '[' :: (u ++ [']']) = ['['] ++ u ++ [']'] := rfl
    rw [htext, Folder.readText_append, Folder.readText_append,
      show ']' = Symbol.loopClose.char from rfl, Folder.readText_symbol]
    refine ⟨.seq c (.loop body), ⟨rfl, .tail rfl hbody.builds⟩, .seq hw (.refl c) (.loop hw ?_)⟩
    exact hcondenses.trans .skip_seq

/-! ### Amounts in units -/

/-- Instructions with an amount, which may be joined if their amounts are to the same side. -/
def Joins (width : UInt32) (make : Int → Instr) : Prop :=
  ∀ {d e : Int}, (0 ≤ d ∧ 0 ≤ e) ∨ (d ≤ 0 ∧ e ≤ 0) →
    Condenses width (.seq (.instr (make d)) (.instr (make e))) (.instr (make (d + e)))

/-- A run of a character that is an instruction has the amount of all of them. -/
theorem replicate (hw : 0 < width) {make : Int → Instr} (hjoins : Joins width make) {c : Char}
    {d : Int} (h : Renders width [c] (.instr (make d))) (n : Nat) :
    Renders width (List.replicate (n + 1) c) (.instr (make ((n + 1 : Nat) * d))) := by
  induction n with
  | zero => simpa using h
  | succ n ih =>
    rw [List.replicate_succ', Int.natCast_succ, Int.add_mul, Int.one_mul]
    -- the characters before the last one are to the same side as the last one
    refine (ih.append hw h).condense hw (hjoins ?_)
    rcases Int.le_total 0 d with hright | hleft
    · exact .inl ⟨Int.mul_nonneg (by omega) hright, hright⟩
    · exact .inr ⟨Int.mul_nonpos_of_nonneg_of_nonpos (by omega) hleft, hleft⟩

/-- **Amounts in units.** Runs of two characters, which are an amount of one up and down, are
instructions with any amount but none. -/
theorem run (hw : 0 < width) {make : Int → Instr} (hjoins : Joins width make) {up down : Char}
    (hup : Renders width [up] (.instr (make 1)))
    (hdown : Renders width [down] (.instr (make (-1)))) {d : Int} (hd : d ≠ 0) :
    Renders width (Token.run up down d) (.instr (make d)) := by
  obtain ⟨n, hn⟩ := Nat.exists_eq_succ_of_ne_zero (Int.natAbs_ne_zero.mpr hd)
  rw [Token.run, hn]
  split
  · have hamount : d = (n + 1 : Nat) * 1 := by omega
    rw [hamount]
    exact hup.replicate hw hjoins n
  · have hamount : d = (n + 1 : Nat) * -1 := by omega
    rw [hamount]
    exact hdown.replicate hw hjoins n

/-- **The text of a token** renders its instruction. -/
theorem glyphs (hw : 0 < width) {t : Token} (ht : t.instr? = some x) :
    Renders width t.glyphs (.instr x) := by
  have hx := Token.instr?_eq_some_iff.mp ht
  cases x with
  | add d =>
    obtain ⟨hkind, rfl, hd⟩ := hx
    rw [Token.glyphs, hkind]
    exact run hw (fun _ => .add_add hw _ _) (symbol (s := .increment) rfl)
      (symbol (s := .decrement) rfl) hd
  | shift d =>
    obtain ⟨hkind, rfl, hd⟩ := hx
    rw [Token.glyphs, hkind]
    exact run hw .shift_shift (symbol (s := .right) rfl) (symbol (s := .left) rfl) hd
  | output =>
    rw [Token.glyphs, show t.kind = .output from hx]
    exact symbol (s := .output) rfl
  | input =>
    rw [Token.glyphs, show t.kind = .input from hx]
    exact symbol (s := .input) rfl
  | zero =>
    rw [Token.glyphs, show t.kind = .zero from hx]
    exact (loop hw (symbol (s := .decrement) rfl)).condense hw (.clear hw rfl)

end Renders

/-! ### Whole programs -/

namespace Program

variable {p : Program} {width : UInt32} {code : Code} {i j : Nat}

/-- The canonical source from an index on. -/
def glyphsFrom (p : Program) (i : Nat) : List Char := (p.tokens.toList.drop i).flatMap Token.glyphs

theorem glyphsFrom_eq_append (h : i < p.size) :
    p.glyphsFrom i = (p.tokenAt i).glyphs ++ p.glyphsFrom (i + 1) := by
  rw [glyphsFrom, drop_tokens_eq_cons h, List.flatMap_cons]
  rfl

/-- **Code is rendered by the text of its tokens.** -/
theorem Spells.renders (hw : 0 < width) (h : p.Spells i code j) :
    ∃ text, p.glyphsFrom i = text ++ p.glyphsFrom j ∧ Renders width text code := by
  induction h with
  | skip i => exact ⟨[], rfl, .nil⟩
  | @instr i x token =>
    obtain ⟨-, -, -, hfinish⟩ := kindAt_of_instr? token
    exact ⟨_, glyphsFrom_eq_append (lt_size_of_kindAt hfinish), .glyphs hw token⟩
  | seq _ _ ih₁ ih₂ =>
    obtain ⟨u, hu, hrenders⟩ := ih₁
    obtain ⟨v, hv, hrenders'⟩ := ih₂
    exact ⟨u ++ v, by rw [hu, hv, List.append_assoc], hrenders.append hw hrenders'⟩
  | @loop o c body link inner ih =>
    obtain ⟨text, htext, hrenders⟩ := ih
    have hc : c < p.size := lt_size_of_kindAt (by simp [link.kind_tail])
    have hhead : (p.tokenAt o).glyphs = ['['] := by
      rw [Token.glyphs, show (p.tokenAt o).kind = .loopOpen from link.kind_head]
    have htail : (p.tokenAt c).glyphs = [']'] := by
      rw [Token.glyphs, show (p.tokenAt c).kind = .loopClose from link.kind_tail]
    refine ⟨_, ?_, hrenders.loop hw⟩
    rw [glyphsFrom_eq_append (Nat.lt_trans link.lt hc), hhead, htext, glyphsFrom_eq_append hc,
      htail]
    simp

namespace WellFormed

/-- **A program is rendered by its canonical source.** -/
theorem renders (hp : p.WellFormed) (hw : 0 < width) : Renders width p.glyphs p.code := by
  obtain ⟨text, htext, hrenders⟩ := hp.spells_code.renders hw
  have hsize := hp.endIndex_lt_size
  -- the frame has no text
  have hstart : (p.tokenAt 0).glyphs = [] := by
    rw [Token.glyphs, show (p.tokenAt 0).kind = .start from hp.kindAt_zero]
  have hfinish : (p.tokenAt p.endIndex).glyphs = [] := by
    rw [Token.glyphs, show (p.tokenAt p.endIndex).kind = .finish from hp.kindAt_endIndex]
  have hend : p.glyphsFrom (p.endIndex + 1) = [] := by
    rw [glyphsFrom, List.drop_eq_nil_of_le, List.flatMap_nil]
    rw [Array.length_toList, endIndex]
    exact Nat.sub_le_iff_le_add.mp (Nat.le_refl _)
  have hglyphs : p.glyphs = text := by
    calc p.glyphs = p.glyphsFrom 0 := rfl
      _ = text ++ p.glyphsFrom p.endIndex := by
        rw [glyphsFrom_eq_append (by omega), hstart, List.nil_append, htext]
      _ = text := by rw [glyphsFrom_eq_append hsize, hfinish, hend]; simp
  rw [hglyphs]
  exact hrenders

/-- The canonical source is read as a program, whose code is condensed to that of the program. -/
theorem exists_ofSource_render (hp : p.WellFormed) (hw : 0 < width) :
    ∃ q u, ofSource p.render false = .ok q ∧ q.Spells 1 u q.endIndex ∧
      Condenses width u p.code := by
  obtain ⟨hbalanced, hreads⟩ := hp.renders hw
  have hmatch : Lexeme.unmatched? (Lexeme.scan p.render) = none :=
    Lexeme.unmatched?_of_balanced (by rwa [toList_render])
  have hempty : Folder.Holds {} [.skip] := ⟨rfl, .nil⟩
  obtain ⟨u, hholds, hcondenses⟩ := hreads {} hempty
  have hbuilds : Token.Builds ((Lexeme.scan p.render).foldl (Folder.read false) {}).tokens [u] := by
    rw [Lexeme.scan_eq_scanFrom, toList_render]
    exact hholds.builds
  obtain ⟨q, hq, hspells⟩ := exists_ofSource hmatch hbuilds
  exact ⟨q, u, hq, hspells, hcondenses.trans .skip_seq⟩

end WellFormed

end Program

/-! ### Runs -/

namespace Machine

variable {m m' : Machine Buffer} {code : Code} {e : Ending} {σ : Store}

/-- Runs with a budget that is large enough end in a way, and in a store. -/
def ComesTo (m : Machine Buffer) (e : Ending) (σ : Store) : Prop :=
  match e with
  | .normal => ∃ steps, m.Ends (.ok { steps, stop := .finished }) σ
  | .pending => ∃ steps, m.Ends (.ok { steps, stop := .inputPending }) σ
  | .underflow => ∃ pc pointer delta, m.Ends (.error (.pointerUnderflow pc pointer delta)) σ
  | .invalid value => ∃ pc width, m.Ends (.error (.invalidInputValue pc value width)) σ

theorem Loaded.comesTo_iff (h : m.Loaded) (hspells : m.program.Spells 1 code m.program.endIndex) :
    m.ComesTo e σ ↔ ∃ n, Eval m.config.cellWidth code m.store n e σ := by
  cases e with
  | normal =>
    simp only [ComesTo, h.ends_finished_iff hspells]
    exact ⟨fun ⟨_, n, heval, _⟩ => ⟨n, heval⟩, fun ⟨n, heval⟩ => ⟨_, n, heval, rfl⟩⟩
  | pending => simp only [ComesTo, h.ends_inputPending_iff hspells]
  | underflow => exact h.ends_pointerUnderflow_iff hspells
  | invalid value => exact h.ends_invalidInputValue_iff hspells

/-- Two machines end in the same way, or neither ends. -/
structure RunAlike (m m' : Machine Buffer) : Prop where
  /-- Both finish, wait for a value or refuse the same value, in the same store. -/
  comesTo_iff : ∀ {e σ}, e ≠ .underflow → (m.ComesTo e σ ↔ m'.ComesTo e σ)
  /-- Both leave the range of pointers, in stores that differ in the pointer at most. -/
  underflow_iff : ∀ {σ}, (∃ τ, m.ComesTo .underflow τ ∧ τ.Alike σ) ↔
    ∃ τ, m'.ComesTo .underflow τ ∧ τ.Alike σ
  /-- Both are stopped by every budget. -/
  stepLimit_iff :
    (∀ budget, (m.run budget).1 = .ok { steps := budget, stop := .stepLimit }) ↔
      ∀ budget, (m'.run budget).1 = .ok { steps := budget, stop := .stepLimit }
  /-- There is no other way to end. -/
  comesTo_or : (∃ e σ, m.ComesTo e σ) ∨
    ∀ budget, (m.run budget).1 = .ok { steps := budget, stop := .stepLimit }

/-- Machines run alike if the code of one is condensed to the code of the other. -/
theorem Loaded.runAlike {u : Code} (h : m.Loaded) (h' : m'.Loaded)
    (hwidth : m'.config.cellWidth = m.config.cellWidth) (hstore : m'.store = m.store)
    (hspells : m.program.Spells 1 code m.program.endIndex)
    (hspells' : m'.program.Spells 1 u m'.program.endIndex)
    (hcondenses : Condenses m.config.cellWidth u code) : RunAlike m m' := by
  have heval : ∀ {e σ}, m.ComesTo e σ ↔ ∃ n, Eval m.config.cellWidth code m.store n e σ :=
    h.comesTo_iff hspells
  have heval' : ∀ {e σ}, m'.ComesTo e σ ↔ ∃ n, Eval m.config.cellWidth u m.store n e σ := by
    intro e σ
    rw [h'.comesTo_iff hspells', hwidth, hstore]
  refine ⟨?_, ?_, ?_, ?_⟩
  · intro e σ he
    rw [heval, heval', hcondenses.eval_iff h.inRange he]
  · intro σ
    simp only [heval, heval']
    exact (hcondenses.underflow_iff h.inRange).symm
  · rw [h.stepLimit_iff hspells, h'.stepLimit_iff hspells', hwidth, hstore]
    simp only [← not_exists]
    exact not_congr (hcondenses.ends_iff h.inRange).symm
  · rw [h.stepLimit_iff hspells]
    by_cases hsome : ∃ e σ, m.ComesTo e σ
    · exact .inl hsome
    · exact .inr fun n e σ hends => hsome ⟨e, σ, heval.mpr ⟨n, hends⟩⟩

/-- **A rendered program runs like the program.** Put any program that passes its checks into a
machine, with any width of cells and any values to read, and load its canonical source without
folding into another machine with the same buffer. If one of them finishes, waits for a value or
refuses a value, so does the other, in the same store. If one leaves the range of pointers, so does
the other, in a store that differs in the pointer at most. And if one never ends, neither does the
other. -/
theorem rendered_runs_alike {m₀ : Machine Buffer} {p : Program} (hw : 0 < m₀.config.cellWidth)
    (hload : m₀.install p = (.ok (), m)) :
    ∃ m', ofSource p.render (m₀.config.withOptimize false) m₀.device = .ok m' ∧
      RunAlike m m' := by
  obtain ⟨hp, rfl⟩ := install_eq_ok_iff.mp hload
  obtain ⟨q, u, hq, hspells, hcondenses⟩ := hp.exists_ofSource_render hw
  have hload' : ofSource p.render (m₀.config.withOptimize false) m₀.device = .ok _ :=
    ofSource_eq_ok_iff.mpr ⟨hw, q, hq, rfl⟩
  have hloaded : Loaded { m₀ with program := p, state := .fresh p.size } := ⟨hp, hw, rfl⟩
  exact ⟨_, hload', hloaded.runAlike (loaded_of_ofSource hload') rfl rfl hp.spells_code hspells
    hcondenses⟩

/-- A machine that reads a number, works on a cell further on, and moves from there to the left of
the first cell at once. -/
def overreach : Machine Buffer where
  program := { tokens := #[.start, { kind := .input }, { kind := .shift, delta := 2 },
    { kind := .add, delta := -3 }, { kind := .zero }, { kind := .add, delta := 2 },
    { kind := .shift, delta := -5 }, .finish] }
  config := {}
  state := .fresh 8
  device := { inputs := [7, 8] }

theorem rendered_runs_alike_overreach :
    0 < overreach.config.cellWidth ∧ overreach.install overreach.program = (.ok (), overreach) ∧
      overreach.program.render = ",>>---[-]++<<<<<" ∧
      ∃ m', ofSource ",>>---[-]++<<<<<" (overreach.config.withOptimize false) { inputs := [7, 8] } =
          .ok m' ∧
        ∃ pointer, m'.ComesTo .underflow
          { pointer, tape := .ofCells #[7, 0, 2], buffer := { inputs := [8] } } := by
  have hw : 0 < overreach.config.cellWidth := by decide
  have hload : overreach.install overreach.program = (.ok (), overreach) := rfl
  have hrender : overreach.program.render = ",>>---[-]++<<<<<" := by decide +kernel
  obtain ⟨m', hload', halike⟩ := rendered_runs_alike hw hload
  rw [hrender] at hload'
  let σ : Store := { pointer := 2, tape := .ofCells #[7, 0, 2], buffer := { inputs := [8] } }
  have hcomes : overreach.ComesTo .underflow σ :=
    ⟨6, 2, -5, 9, _, Prod.ext rfl rfl, by decide +kernel⟩
  obtain ⟨⟨pointer, tape, buffer⟩, hcomes', rfl, rfl⟩ :=
    halike.underflow_iff.mp ⟨σ, hcomes, .refl σ⟩
  exact ⟨hw, hload, hrender, m', hload', pointer, hcomes'⟩

end Machine

end ReversibleTape
