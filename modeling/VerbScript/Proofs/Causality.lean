import VerbScript.Proofs.Lockstep
import VerbScript.Proofs.Preservation
import VerbScript.Proofs.Raising

/-!
# VerbScript.Proofs.Causality

What a run does depends on no input that it has not read.

A run on whole lines of input is compared with a run that has more input behind these lines. As long
as the first one finds a line, the second one reads the same line (`Input.splitLine_append`), so the
two keep pace, and all is alike but what is left to read. The first run can only fall behind where it
finds no more line.

* `Pairing.reading more`: the second machine has `more` behind the input of the first.
* `Machine.Wrote m m'`: what `m` has written, `m'` has written first. No run takes back what was
  written (`Machine.wrote_closed`).
* `Outcome.Overtaken o o'`: if `o` ends for lack of input, `o'` has written at least as much.
* `Script.run_causal`: the comparison of two runs from source text to outcome.
-/

namespace VerbScript

namespace Input

/-- The bytes are whole lines: there are none, or the last one is a line feed. -/
def IsWhole (input : Input) : Prop := ∀ byte ∈ input.getLast?, byte = 10

theorem IsWhole.tail {byte : UInt8} {rest : Input} (h : IsWhole (byte :: rest)) : IsWhole rest := by
  intro last hlast
  refine h last ?_
  rw [List.getLast?_cons, Option.mem_def.1 hlast]
  rfl

/-- The first of some whole lines is the same with more input behind them, and the others stay
whole. -/
theorem splitLine_append {input : Input} (hne : input ≠ []) (h : IsWhole input) (more : Input) :
    splitLine (input ++ more) = ((splitLine input).1, (splitLine input).2 ++ more) ∧
      IsWhole (splitLine input).2 := by
  induction input with
  | nil => exact absurd rfl hne
  | cons byte rest ih =>
    simp only [List.cons_append, splitLine]
    split
    · exact ⟨rfl, h.tail⟩
    · rename_i hbyte
      have hrest : rest ≠ [] := by
        rintro rfl
        exact hbyte (h byte rfl)
      obtain ⟨hsplit, hwhole⟩ := ih hrest h.tail
      rw [hsplit]
      exact ⟨rfl, hwhole⟩

end Input

/-! ## Keeping pace -/

/-- The second machine has more input behind that of the first, which is in whole lines. -/
def Pairing.reading (more : Input) : Pairing where
  place := Eq
  machine m m' := m' = { m with input := m.input ++ more } ∧ m.input.IsWhole
  excused := (· = .inputExhausted)

open Outcome

namespace Machine

theorem readLine_reading {more : Input} {m m' : Machine} {place : Position}
    (hm : (Pairing.reading more).machine m m') :
    (m.readLine place).Paired (.reading more) (m'.readLine place) := by
  obtain ⟨rfl, hwhole⟩ := hm
  unfold readLine flush onSink
  simp only
  split
  · simp only [Outcome.andThen]
    cases hinput : m.input with
    | nil => exact .excused rfl _
    | cons byte rest =>
      rw [hinput] at hwhole
      obtain ⟨hsplit, hrest⟩ := Input.splitLine_append (by simp) hwhole more
      rw [List.cons_append] at hsplit ⊢
      simp only [LineSource.nextLine, Input.nextLine, hsplit]
      split
      · rename_i hline
        cases hline
      · exact .inr ⟨_, _, rfl, rfl, rfl, hrest⟩
      · exact ⟨_, rfl, rfl, hrest⟩
  · exact .inr ⟨_, _, rfl, rfl, rfl, hwhole⟩

theorem machines_reading (more : Input) (length : Nat) :
    (Pairing.reading more).Machines length length where
  lookup := by rintro _ _ ⟨rfl, -⟩ _; rfl
  lastValue := by rintro _ _ ⟨rfl, -⟩; rfl
  lastReturn := by rintro _ _ ⟨rfl, -⟩; rfl
  stack := by rintro _ _ ⟨rfl, -⟩; rfl
  functions := by rintro _ _ ⟨rfl, -⟩; rfl
  depth := by rintro _ _ ⟨rfl, -⟩; rfl
  halted := by rintro _ _ ⟨rfl, -⟩; rfl
  pointer := by rintro _ _ ⟨rfl, -⟩ _; rfl
  sink := by rintro _ _ ⟨rfl, -⟩; rfl
  jump := by rintro _ _ ⟨rfl, hwhole⟩ _; exact ⟨rfl, hwhole⟩
  setStack := by rintro _ _ ⟨rfl, hwhole⟩ _; exact ⟨rfl, hwhole⟩
  setLastValue := by rintro _ _ ⟨rfl, hwhole⟩ _; exact ⟨rfl, hwhole⟩
  setSink := by rintro _ _ ⟨rfl, hwhole⟩ _; exact ⟨rfl, hwhole⟩
  assign := by rintro _ _ ⟨rfl, hwhole⟩ _ _; exact ⟨rfl, hwhole⟩
  halt := by rintro _ _ ⟨rfl, hwhole⟩; exact ⟨rfl, hwhole⟩
  giveBack := by
    rintro m _ frame frame' rest rest' ⟨rfl, hwhole⟩ value hf hf'
    cases hf.symm.trans hf'
    exact ⟨rfl, hwhole⟩
  define := by rintro _ _ ⟨rfl, hwhole⟩ _ _ _; exact ⟨rfl, hwhole⟩
  enter := by rintro _ _ ⟨rfl, hwhole⟩ _ _ _; exact ⟨rfl, hwhole⟩
  readLine := by
    rintro m m' place _ hm rfl
    exact readLine_reading hm

theorem lockstep_reading (setup : Setup) (more : Input) :
    Lockstep (.reading more) setup setup where
  machines := machines_reading more _
  programs := .refl (fun _ => rfl) _
  limit_le := Nat.le_refl _
  limit := .inr rfl

/-! ## What was written stays -/

/-- What the first machine has written, the second one has written first. -/
def Wrote (m m' : Machine) : Prop := ∃ text, m'.sink.written = m.sink.written ++ text

theorem Wrote.of_sink {m m' : Machine} (h : m'.sink = m.sink) : Wrote m m' :=
  ⟨"", by rw [h, String.append_empty]⟩

theorem Wrote.trans {m₁ m₂ m₃ : Machine} (h : Wrote m₁ m₂) (h' : Wrote m₂ m₃) : Wrote m₁ m₃ := by
  obtain ⟨text, h⟩ := h
  obtain ⟨text', h'⟩ := h'
  exact ⟨text ++ text', by rw [h', h, String.append_assoc]⟩

theorem wrote_write (m : Machine) (text : String) :
    Wrote m { m with sink := (m.sink.write text).2 } := by
  unfold Wrote Sink.write
  split
  · exact ⟨text, rfl⟩
  · split
    · exact ⟨text, rfl⟩
    · exact ⟨"", String.append_empty.symm⟩

theorem wrote_closed (p : Program) : Closed p Wrote where
  refl _ := .of_sink rfl
  trans := Wrote.trans
  jump _ := .of_sink rfl
  stack _ _ := .of_sink rfl
  lastValue _ _ := .of_sink rfl
  written := wrote_write
  flushed _ := .of_sink rfl
  read _ := .of_sink rfl
  assign _ _ _ := .of_sink rfl
  halt _ := .of_sink rfl
  giveBack _ _ := .of_sink rfl
  define _ _ := .of_sink rfl
  enter _ h _ := h.trans (.of_sink rfl)

end Machine

open Machine

/-! ## Falling behind -/

/-- Where the first outcome is that no more line was found, the second one has written what the
first one has, and maybe more. -/
def Outcome.Overtaken {α : Type} (o o' : Outcome α) : Prop :=
  ∀ place m, o = .fault ⟨.inputExhausted, place⟩ m → o'.Leaves (Wrote m)

namespace Outcome.Overtaken

variable {α β : Type} {o o' : Outcome α} {m m' : Machine} {place : Position} {more : Input}

theorem done (value : α) (o' : Outcome α) : Overtaken (.done value m) o' := by
  intro place m₁ h
  cases h

theorem fault {cause : Fault} (h : cause ≠ .inputExhausted) (o' : Outcome α) :
    Overtaken (.fault ⟨cause, place⟩ m) o' := by
  intro place₁ m₁ heq
  cases heq
  exact absurd rfl h

theorem cutOff (o' : Outcome α) : Overtaken .cutOff o' := by
  intro place m₁ h
  cases h

/-- What fails before it writes is overtaken by all that is done on a machine with the same sink. -/
theorem of_refuses (h : o.Refuses place m.sink) (hm : (Pairing.reading more).machine m m')
    (h' : o'.Leaves (Wrote m')) : o.Overtaken o' := by
  rintro _ m₁ rfl
  have hsink : m'.sink = m₁.sink := by rw [hm.1, Sink.eq_of_unwritten h.2]
  exact h'.mono fun _ hwrote => Wrote.trans (.of_sink hsink) hwrote

theorem andThen {next next' : α → Machine → Outcome β} (h : o.Overtaken o')
    (hpaired : o.Paired (.reading more) o')
    (hnext : ∀ value m m', (Pairing.reading more).machine m m' →
      (next value m).Overtaken (next' value m'))
    (hwrote : ∀ value m', (next' value m').Leaves (Wrote m')) :
    (o.andThen next).Overtaken (o'.andThen next') := by
  cases o with
  | done value m =>
    obtain ⟨m', rfl, hm⟩ := hpaired
    exact hnext value m m' hm
  | fault cause m =>
    rintro place _ ⟨⟩
    refine (h place m rfl).andThen (fun _ hm' => hm') fun value m' hm' => ?_
    exact (hwrote value m').mono fun _ hm'' => hm'.trans hm''
  | cutOff => exact .cutOff _

end Outcome.Overtaken

namespace Machine

/-- With some fuel, evaluation and execution on less input are overtaken. -/
structure FallsBehind (setup : Setup) (more : Input) (fuel : Nat) : Prop where
  eval : ∀ node place {m m'}, (Pairing.reading more).machine m m' →
    (Machine.eval setup fuel node place m).Overtaken (Machine.eval setup fuel node place m')
  evalArguments : ∀ nodes place {m m'}, (Pairing.reading more).machine m m' →
    (Machine.evalArguments setup fuel nodes place m).Overtaken
      (Machine.evalArguments setup fuel nodes place m')
  call : ∀ name nodes place {m m'}, (Pairing.reading more).machine m m' →
    (Machine.call setup fuel name nodes place m).Overtaken
      (Machine.call setup fuel name nodes place m')
  runUntil : ∀ depth name place {m m'}, (Pairing.reading more).machine m m' →
    (Machine.runUntil setup fuel depth name place m).Overtaken
      (Machine.runUntil setup fuel depth name place m')
  step : ∀ {m m'}, (Pairing.reading more).machine m m' →
    (Machine.step setup fuel m).Overtaken (Machine.step setup fuel m')

theorem fallsBehind_zero (setup : Setup) (more : Input) : FallsBehind setup more 0 where
  eval _ _ _ _ _ := by rw [Machine.eval]; exact .cutOff _
  evalArguments _ _ _ _ _ := by rw [Machine.evalArguments]; exact .cutOff _
  call _ _ _ _ _ _ := by rw [Machine.call]; exact .cutOff _
  runUntil _ _ _ _ _ _ := by rw [Machine.runUntil]; exact .cutOff _
  step _ := by rw [Machine.step]; exact .cutOff _

section Succ

variable {setup : Setup} {more : Input} {fuel : Nat} (ih : FallsBehind setup more fuel)
  {m m' : Machine} (hm : (Pairing.reading more).machine m m')
include ih hm

theorem eval_overtaken (node : Node) (place : Position) :
    (eval setup (fuel + 1) node place m).Overtaken (eval setup (fuel + 1) node place m') := by
  have hstep := (lockstep_reading setup more).inStep fuel
  have hR := wrote_closed setup.program
  have hkept := hR.preserves fuel
  cases node with
  | binary op left right =>
    simp only [eval]
    refine (ih.eval left place hm).andThen (hstep.eval left rfl hm) (fun a m m' hm => ?_)
      fun a m' => hR.andThen (hkept.eval right place m') fun b m' => hR.result m' op a b place
    refine (ih.eval right place hm).andThen (hstep.eval right rfl hm) (fun b m m' hm => ?_)
      fun b m' => hR.result m' op a b place
    exact .of_refuses (m.result_refuses place op a b) hm (hR.result m' op a b place)
  | unary op operand =>
    simp only [eval]
    refine (ih.eval operand place hm).andThen (hstep.eval operand rfl hm)
      (fun value m m' hm => ?_) fun value m' => hR.applyUnary m' op value place
    exact .of_refuses (m.applyUnary_refuses place op value) hm (hR.applyUnary m' op value place)
  | call name nodes =>
    simp only [eval]
    exact ih.call name nodes place hm
  | pop =>
    simp only [eval]
    exact .of_refuses (m.pop_refuses place) hm (hR.pop m' place)
  | number value =>
    simp only [eval]
    exact .done _ _
  | «variable» name =>
    simp only [eval]
    split
    · exact .done _ _
    · exact .fault (by simp) _
  | keyword k =>
    simp only [eval]
    exact .fault (by simp) _
  | label =>
    simp only [eval]
    exact .fault (by simp) _
  | define name parameters =>
    simp only [eval]
    exact .fault (by simp) _

theorem evalArguments_overtaken (nodes : List Node) (place : Position) :
    (evalArguments setup (fuel + 1) nodes place m).Overtaken
      (evalArguments setup (fuel + 1) nodes place m') := by
  have hstep := (lockstep_reading setup more).inStep fuel
  have hR := wrote_closed setup.program
  have hkept := hR.preserves fuel
  cases nodes with
  | nil =>
    simp only [evalArguments]
    exact .done _ _
  | cons node rest =>
    have hrest value m : ((evalArguments setup fuel rest place m).andThen
        fun values m => .done (value :: values) m).Leaves (Wrote m) :=
      hR.andThen (hkept.evalArguments rest place m) fun _ m => hR.refl m
    simp only [evalArguments]
    refine (ih.eval node place hm).andThen (hstep.eval node rfl hm) (fun value m m' hm => ?_) hrest
    exact (ih.evalArguments rest place hm).andThen (hstep.evalArguments rest rfl hm)
      (fun _ _ _ _ => .done _ _) fun _ m' => hR.refl m'

theorem call_overtaken (name : String) (nodes : List Node) (place : Position) :
    (call setup (fuel + 1) name nodes place m).Overtaken
      (call setup (fuel + 1) name nodes place m') := by
  have hstep := (lockstep_reading setup more).inStep fuel
  have hmachines := machines_reading more setup.program.length
  have hR := wrote_closed setup.program
  have hkept := hR.preserves fuel
  by_cases hadmitted : ∃ entry, m.Admitted setup name nodes entry
  · obtain ⟨entry, ha⟩ := hadmitted
    have ha' : m'.Admitted setup name nodes entry := by
      obtain ⟨rfl, -⟩ := hm
      exact ⟨ha.known, ha.count, ha.room⟩
    have hbody values m₁ : ((runUntil setup fuel m'.state.frames.length name place
        (m₁.enter name entry values)).andThen
          fun _ m => .done m.state.lastReturn m).Leaves (Wrote m₁) := by
      refine Outcome.Leaves.mono ?_ fun _ h => (Wrote.of_sink rfl).trans h
      exact hR.andThen (hkept.runUntil _ name place _) fun _ m => hR.refl m
    rw [call_admitted ha, call_admitted ha', ← hmachines.depth hm]
    refine (ih.evalArguments nodes place hm).andThen (hstep.evalArguments nodes rfl hm)
      (fun values m₁ m₁' hm₁ => ?_) hbody
    have hentered := hmachines.enter hm₁ name entry values
    exact (ih.runUntil _ name place hentered).andThen (hstep.runUntil _ name rfl hentered)
      (fun _ _ _ _ => .done _ _) fun _ m' => hR.refl m'
  · exact .of_refuses (m.call_refuses place hadmitted fuel) hm
      ((hR.preserves (fuel + 1)).call name nodes place m')

theorem runUntil_overtaken (depth : Nat) (name : String) (place : Position) :
    (runUntil setup (fuel + 1) depth name place m).Overtaken
      (runUntil setup (fuel + 1) depth name place m') := by
  have hstep := (lockstep_reading setup more).inStep fuel
  have hR := wrote_closed setup.program
  by_cases hactive : depth < m.state.frames.length ∧ m.state.halted = false ∧
      m.state.pointer < setup.program.length
  · obtain ⟨hd, hh, hp⟩ := hactive
    have hstate : m'.state = m.state := by rw [hm.1]
    rw [runUntil_active hd hh hp, runUntil_active (hstate ▸ hd) (hstate ▸ hh) (hstate ▸ hp)]
    exact (ih.step hm).andThen (hstep.step hm hh hp)
      (fun _ _ _ hm => ih.runUntil depth name place hm)
      fun _ => (hR.preserves fuel).runUntil depth name place
  · exact .of_refuses (m.runUntil_refuses place hactive name fuel) hm
      ((hR.preserves (fuel + 1)).runUntil depth name place m')

theorem change_overtaken (index : Nat) (place : Position) :
    (m.withLastValue .change place fun value =>
      m.withOperand setup.program .change index place fun operand m =>
        (eval setup fuel operand place m).andThen fun i m => m.overwrite i value place).Overtaken
    (m'.withLastValue .change place fun value =>
      m'.withOperand setup.program .change index place fun operand m =>
        (eval setup fuel operand place m).andThen fun i m => m.overwrite i value place) := by
  have hmachines := machines_reading more setup.program.length
  have hR := wrote_closed setup.program
  simp only [withLastValue, withOperand, hmachines.lastValue hm]
  split
  · rename_i value _
    split
    · rename_i operand _
      split
      · exact .fault (by simp) _
      · have hjumped := hmachines.jump hm (index + 2)
        refine (ih.eval operand place hjumped).andThen
          (((lockstep_reading setup more).inStep fuel).eval operand rfl hjumped)
          (fun i m m' hm => ?_) fun i m' => hR.overwrite m' i value place
        exact .of_refuses (m.overwrite_refuses place i value) hm (hR.overwrite m' i value place)
    · exact .fault (by simp) _
  · exact .fault (by simp) _

theorem step_overtaken : (step setup (fuel + 1) m).Overtaken (step setup (fuel + 1) m') := by
  have hstep := (lockstep_reading setup more).inStep fuel
  have hR := wrote_closed setup.program
  have hpointer : m'.state.pointer = m.state.pointer := by rw [hm.1]
  cases hi : setup.program[m.state.pointer]? with
  | none =>
    simp only [step, hi]
    exact .done _ _
  | some instruction =>
    obtain ⟨node, place⟩ := instruction
    have hmoved := (machines_reading more setup.program.length).jump hm (m.state.pointer + 1)
    simp only [step, hi, hpointer]
    split
    · exact change_overtaken ih hmoved _ place
    · exact .of_refuses (keyword_refuses _ place _ _ _) hmoved (hR.keyword _ _ _ _)
    · exact .done _ _
    · exact .of_refuses (define_refuses _ place _ _ _ _) hmoved
        (hR.defineFunction _ (by rw [Program.node?, hi]; rfl) place)
    · exact (ih.eval node place hmoved).andThen (hstep.eval node rfl hmoved)
        (fun _ _ _ _ => .done _ _) fun value m' => hR.lastValue m' value

end Succ

theorem fallsBehind (setup : Setup) (more : Input) (fuel : Nat) : FallsBehind setup more fuel := by
  induction fuel with
  | zero => exact fallsBehind_zero setup more
  | succ fuel ih =>
    exact ⟨fun node place _ _ hm => eval_overtaken ih hm node place,
      fun nodes place _ _ hm => evalArguments_overtaken ih hm nodes place,
      fun name nodes place _ _ hm => call_overtaken ih hm name nodes place,
      fun depth name place _ _ hm => runUntil_overtaken ih hm depth name place,
      fun hm => step_overtaken ih hm⟩

theorem run_overtaken (setup : Setup) {more : Input} (fuel : Nat) {m m' : Machine}
    (hm : (Pairing.reading more).machine m m') :
    (run setup fuel m).Overtaken (run setup fuel m') := by
  have hR := wrote_closed setup.program
  induction fuel generalizing m m' with
  | zero =>
    rw [run]
    exact .cutOff _
  | succ fuel ih =>
    have hfinished : m'.isFinished setup = m.isFinished setup := by rw [hm.1]; rfl
    cases hf : m.isFinished setup with
    | true =>
      simp only [run, hfinished, hf, ↓reduceIte]
      exact .of_refuses (m.flush_refuses _) hm (hR.flush m' _)
    | false =>
      have hactive : m.state.halted = false ∧ m.state.pointer < setup.program.length := by
        simpa [isFinished] using hf
      rw [run_active hf, run_active (hfinished.trans hf)]
      exact ((fallsBehind setup more fuel).step hm).andThen
        (((lockstep_reading setup more).inStep fuel).step hm hactive.1 hactive.2)
        (fun _ _ _ hm => ih hm) fun _ m' => hR.run fuel m'

theorem run_paired_reading (setup : Setup) {more : Input} (fuel : Nat) {m m' : Machine}
    (hm : (Pairing.reading more).machine m m') :
    (run setup fuel m).Paired (.reading more) (run setup fuel m') :=
  (lockstep_reading setup more).run rfl (by rintro _ _ ⟨rfl, -⟩; rfl) fuel hm

/-- What was written when no more line was found is written first by every run on more input that
ends, however much fuel that takes. -/
theorem wrote_of_exhausted {setup : Setup} {more : Input} {fuel fuel' : Nat}
    {m m' m₁ : Machine} {place : Position} (hm : (Pairing.reading more).machine m m')
    (h : run setup fuel m = .fault ⟨.inputExhausted, place⟩ m₁)
    (h' : run setup fuel' m' ≠ .cutOff) : (run setup fuel' m').Leaves (Wrote m₁) := by
  have hfault := (run_stable setup m).le (Nat.le_max_left fuel fuel') (by rw [h]; simp)
  have hends := (run_stable setup m').le (Nat.le_max_right fuel fuel') h'
  rw [← hends]
  exact run_overtaken setup _ hm place m₁ (hfault.trans h)

end Machine

namespace Script

/-- A run on whole lines of input, compared with a run of the same source text that has more input
behind these lines. If the first one does not end for lack of input, the second one ends alike: with
the same result or failure, and on the same machine, so with the same output, but for what is left to
read. If it does, what it has written is the first part of what the second one has written, when that
ends. -/
theorem run_causal (source : String) (depthLimit : Nat) (state : State) (sink : Sink)
    {input : Input} (hinput : input = [] ∨ input.getLast? = some 10) (more : Input) {fuel : Nat}
    {ending : Ending} {m : Machine}
    (h : run source depthLimit fuel ⟨state, input, sink⟩ = (ending, m)) :
    ((∀ place, ending ≠ .failure (.run ⟨.inputExhausted, place⟩)) →
      run source depthLimit fuel ⟨state, input ++ more, sink⟩
        = (ending, { m with input := m.input ++ more })) ∧
    ∀ place, ending = .failure (.run ⟨.inputExhausted, place⟩) →
      ∀ fuel' ending' m', run source depthLimit fuel' ⟨state, input ++ more, sink⟩ = (ending', m') →
        ending' ≠ .cutOff → ∃ text, m'.sink.written = m.sink.written ++ text := by
  have hwhole : Input.IsWhole input := by
    rcases hinput with rfl | hlast
    · intro byte hbyte
      cases hbyte
    · intro byte hbyte
      exact Option.some.inj ((Option.mem_def.1 hbyte).symm.trans hlast)
  have hm : (Pairing.reading more).machine ⟨state, input, sink⟩ ⟨state, input ++ more, sink⟩ :=
    ⟨rfl, hwhole⟩
  cases hparse : parse source with
  | error f =>
    simp only [run, hparse] at h ⊢
    cases h
    refine ⟨fun _ => rfl, ?_⟩
    rintro place - fuel' ending' m' ⟨⟩ -
    exact Wrote.of_sink rfl
  | ok program =>
    have hpaired := run_paired_reading ⟨program, depthLimit⟩ fuel hm
    simp only [run, hparse] at h ⊢
    cases ho : Machine.run ⟨program, depthLimit⟩ fuel ⟨state, input, sink⟩ with
    | done value m₁ =>
      rw [ho] at h hpaired
      cases h
      obtain ⟨_, ho', rfl, -⟩ := hpaired
      exact ⟨fun _ => by rw [ho'], fun place hending => by cases hending⟩
    | cutOff =>
      rw [ho] at h hpaired
      cases h
      exact ⟨fun _ => by rw [hpaired], fun place hending => by cases hending⟩
    | fault cause m₁ =>
      rw [ho] at h hpaired
      cases h
      refine ⟨fun hother => ?_, ?_⟩
      · obtain ⟨fault, place⟩ := cause
        rcases hpaired with hexcused | ⟨_, _, ho', rfl, rfl, -⟩
        · cases hexcused
          exact absurd rfl (hother place)
        · rw [ho']
      · rintro place ⟨⟩ fuel' ending' m' h' hends
        have hwrote := @wrote_of_exhausted _ _ _ fuel' _ _ _ _ hm ho
        cases ho' : Machine.run ⟨program, depthLimit⟩ fuel' ⟨state, input ++ more, sink⟩ with
        | done value m₂ =>
          rw [ho'] at h' hwrote
          cases h'
          exact hwrote (by simp)
        | fault cause m₂ =>
          rw [ho'] at h' hwrote
          cases h'
          exact hwrote (by simp)
        | cutOff =>
          rw [ho'] at h'
          cases h'
          exact absurd rfl hends

/-- Reads two lines and starts a new line after each. -/
def pressing : String := "press name a rename scroll press name b rename scroll"

/-- A machine that has not run, with some input. -/
def given (input : Input) : Machine := ⟨.initial, input, {}⟩

theorem parse_pressing : parse pressing = .ok
    [⟨.keyword .press, ⟨1, 1⟩⟩, ⟨.variable "a", ⟨1, 7⟩⟩, ⟨.keyword .scroll, ⟨1, 21⟩⟩,
      ⟨.keyword .press, ⟨1, 28⟩⟩, ⟨.variable "b", ⟨1, 34⟩⟩, ⟨.keyword .scroll, ⟨1, 48⟩⟩] := by
  cbv

theorem run_causal_pressing :
    (∃ m m', run pressing 1 20 (given [120, 10])
        = (.failure (.run ⟨.inputExhausted, ⟨1, 28⟩⟩), m) ∧ m.sink.written = "\n" ∧
      run pressing 1 20 (given ([120, 10] ++ [121, 10])) = (.success, m') ∧
      ∃ text, m'.sink.written = m.sink.written ++ text) ∧
    ∃ m, run pressing 1 20 (given [120, 10, 121, 10]) = (.success, m) ∧
      run pressing 1 20 (given ([120, 10, 121, 10] ++ [122]))
        = (.success, { m with input := m.input ++ [122] }) := by
  obtain ⟨m, hshort, hwritten⟩ : ∃ m, run pressing 1 20 (given [120, 10])
      = (.failure (.run ⟨.inputExhausted, ⟨1, 28⟩⟩), m) ∧ m.sink.written = "\n" := by
    simp only [run, parse_pressing]
    exact ⟨_, rfl, rfl⟩
  obtain ⟨m', hlong⟩ : ∃ m', run pressing 1 20 (given [120, 10, 121, 10])
      = (.success, m') := by
    simp only [run, parse_pressing]
    exact ⟨_, rfl⟩
  obtain ⟨-, hexhausted⟩ := run_causal pressing 1 .initial {} (.inr rfl) [121, 10] hshort
  obtain ⟨hends, -⟩ := run_causal pressing 1 .initial {} (.inr rfl) [122] hlong
  exact ⟨⟨m, m', hshort, hwritten, hlong, hexhausted _ rfl 20 _ m' hlong (by simp)⟩, m', hlong,
    hends (by simp)⟩

end Script
end VerbScript
