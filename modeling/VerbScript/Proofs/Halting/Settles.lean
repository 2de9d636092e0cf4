import VerbScript.Proofs.HostStack

/-!
# VerbScript.Proofs.Halting.Settles

A program that ends itself stops, in one way or another.

`burn`, and `find` with the number zero, only set a flag. The loops over instructions look at it, but
an expression in the middle of which a call set it is evaluated to its end. In every program the run
ends nevertheless (`InProgress.run_halts`): no instruction is executed any more, and what is left of
the expressions is finite.
-/

namespace VerbScript

variable {W I : Type}

namespace Outcome

variable {α β : Type} {f : Nat → Outcome α W I}

/-- The outcome leaves a machine whose program has ended itself. -/
def EndsHalted : Outcome α W I → Prop
  | .done _ m => m.state.halted = true
  | .fault _ m => m.state.halted = true
  | .cutOff => False

/-- From some fuel on, the outcome is one that leaves a machine whose program has ended itself. -/
def SettlesHalted (f : Nat → Outcome α W I) : Prop := ∃ o, Settles f o ∧ o.EndsHalted

theorem SettlesHalted.const {o : Outcome α W I} (h : o.EndsHalted) : SettlesHalted fun _ => o :=
  ⟨o, .const o, h⟩

theorem SettlesHalted.of_succ (h : SettlesHalted fun fuel => f (fuel + 1)) : SettlesHalted f := by
  obtain ⟨o, ho, hhalted⟩ := h
  exact ⟨o, ho.of_succ, hhalted⟩

theorem Settles.andThen_halted {next : Nat → α → Machine W I → Outcome β W I} {value : α}
    {m : Machine W I} (h : Settles f (.done value m))
    (hnext : SettlesHalted fun fuel => next fuel value m) :
    SettlesHalted fun fuel => (f fuel).andThen (next fuel) := by
  obtain ⟨o, ho, hhalted⟩ := hnext
  exact ⟨o, h.andThen ho, hhalted⟩

theorem SettlesHalted.andThen {next : Nat → α → Machine W I → Outcome β W I} (h : SettlesHalted f)
    (hnext : ∀ value m, m.state.halted = true → SettlesHalted fun fuel => next fuel value m) :
    SettlesHalted fun fuel => (f fuel).andThen (next fuel) := by
  obtain ⟨o, ho, hhalted⟩ := h
  cases o with
  | done value m => exact ho.andThen_halted (hnext value m hhalted)
  | fault cause m => exact ⟨_, ho.andThen_fault, hhalted⟩
  | cutOff => exact hhalted.elim

end Outcome

open Outcome

namespace Machine

/-! ## After the end of the program -/

theorem endsHalted_applyUnary {m : Machine W I} (hm : m.state.halted = true) (op : UnaryOperator)
    (value : Number) (place : Position) : (m.applyUnary op value place).EndsHalted := by
  cases op with
  | giveBack =>
    simp only [applyUnary, giveBack]
    split
    · exact hm
    · exact hm
  | _ => exact hm

theorem endsHalted_overwrite {m : Machine W I} (hm : m.state.halted = true) (index value : Number)
    (place : Position) : (m.overwrite index value place).EndsHalted := by
  unfold overwrite
  split
  · exact hm
  · split
    · exact hm
    · exact hm

theorem endsHalted_result {m : Machine W I} (hm : m.state.halted = true) (op : BinaryOperator)
    (a b : Number) (place : Position) :
    (match op.result? a b with
      | some value => Outcome.done value m
      | none => .fault ⟨.divisionByZero, place⟩ m).EndsHalted := by
  split
  · exact hm
  · exact hm

variable [Writer W] [LineSource I]

theorem runUntil_halted (setup : Setup) (depth : Nat) (name : String) (place : Position)
    {m : Machine W I} (hm : m.state.halted = true) (fuel : Nat) :
    runUntil setup (fuel + 1) depth name place m = .done () m := by
  simp only [runUntil, hm, ↓reduceIte]
  split <;> rfl

theorem settles_runUntil_halted (setup : Setup) (depth : Nat) (name : String) (place : Position)
    {m : Machine W I} (hm : m.state.halted = true) :
    SettlesHalted fun fuel => runUntil setup fuel depth name place m := by
  refine SettlesHalted.of_succ ?_
  simp only [runUntil_halted setup depth name place hm]
  exact .const hm

/-- A function that is entered after the end of the program yields a value at once. -/
theorem settles_enter_halted (setup : Setup) (depth : Nat) (name : String) (place : Position)
    (entry : FunctionEntry) (values : List Number) {m : Machine W I} (hm : m.state.halted = true) :
    SettlesHalted fun fuel => (runUntil setup fuel depth name place
      (m.enter name entry values)).andThen fun _ m => .done m.state.lastReturn m := by
  have hentered : (m.enter name entry values).state.halted = true := hm
  exact (settles_runUntil_halted setup depth name place hentered).andThen fun _ m hm => .const hm

mutual

theorem settles_eval_halted (setup : Setup) (place : Position) :
    ∀ (node : Node) {m : Machine W I}, m.state.halted = true →
      SettlesHalted fun fuel => eval setup fuel node place m
  | .number value, m, hm => by
    refine SettlesHalted.of_succ ?_
    simp only [eval]
    exact .const hm
  | .variable name, m, hm => by
    refine SettlesHalted.of_succ ?_
    simp only [eval]
    cases m.state.lookup name with
    | some value => exact .const hm
    | none => exact .const hm
  | .binary op left right, m, hm => by
    refine SettlesHalted.of_succ ?_
    simp only [eval]
    refine (settles_eval_halted setup place left hm).andThen fun a m hm => ?_
    refine (settles_eval_halted setup place right hm).andThen fun b m hm => ?_
    exact .const (endsHalted_result hm op a b place)
  | .unary op operand, m, hm => by
    refine SettlesHalted.of_succ ?_
    simp only [eval]
    refine (settles_eval_halted setup place operand hm).andThen fun value m hm => ?_
    exact .const (endsHalted_applyUnary hm op value place)
  | .call name nodes, m, hm => by
    refine SettlesHalted.of_succ (SettlesHalted.of_succ ?_)
    simp only [eval, call]
    cases m.state.functions.get? name with
    | none => exact .const hm
    | some entry =>
      simp only
      split
      · exact .const hm
      · split
        · exact .const hm
        · refine (settles_evalArguments_halted setup place nodes hm).andThen fun values m hm => ?_
          exact settles_enter_halted setup _ name place entry values hm
  | .pop, m, hm => by
    refine SettlesHalted.of_succ ?_
    simp only [eval, pop]
    cases m.state.stack with
    | nil => exact .const hm
    | cons top rest => exact .const hm
  | .keyword k, m, hm => by
    refine SettlesHalted.of_succ ?_
    simp only [eval]
    exact .const hm
  | .label, m, hm => by
    refine SettlesHalted.of_succ ?_
    simp only [eval]
    exact .const hm
  | .define name parameters, m, hm => by
    refine SettlesHalted.of_succ ?_
    simp only [eval]
    exact .const hm

theorem settles_evalArguments_halted (setup : Setup) (place : Position) :
    ∀ (nodes : List Node) {m : Machine W I}, m.state.halted = true →
      SettlesHalted fun fuel => evalArguments setup fuel nodes place m
  | [], m, hm => by
    refine SettlesHalted.of_succ ?_
    simp only [evalArguments]
    exact .const hm
  | node :: nodes, m, hm => by
    refine SettlesHalted.of_succ ?_
    simp only [evalArguments]
    refine (settles_eval_halted setup place node hm).andThen fun value m hm => ?_
    refine (settles_evalArguments_halted setup place nodes hm).andThen fun values m hm => ?_
    exact .const hm

end

theorem settles_run_halted (setup : Setup) {m : Machine W I} (hm : m.state.halted = true) :
    SettlesHalted fun fuel => run setup fuel m := by
  refine SettlesHalted.of_succ ?_
  simp only [run, isFinished, hm, Bool.true_or, ↓reduceIte, flush, onSink]
  cases (Writer.flush m.sink).1 with
  | none => exact .const hm
  | some fault => exact .const hm

/-- The instruction under the pointer ends the program. -/
inductive EndsProgram (p : Program) (m : Machine W I) : Prop where
  | burn {place : Position} : p[m.state.pointer]? = some ⟨.keyword .burn, place⟩ → EndsProgram p m
  | find {place : Position} {value : Number} :
      p[m.state.pointer]? = some ⟨.keyword .find, place⟩ → m.state.lastValue = some value →
      value.index? = some 0 → EndsProgram p m

theorem EndsProgram.step {setup : Setup} {m : Machine W I} (h : EndsProgram setup.program m) :
    SettlesHalted fun fuel => Machine.step setup fuel m := by
  refine SettlesHalted.of_succ ?_
  cases h with
  | burn hi =>
    simp only [step_keyword hi (by simp), keyword]
    exact .const rfl
  | find hi hv hzero =>
    have hv' : (m.jump (m.state.pointer + 1)).state.lastValue = some _ := hv
    simp only [step_keyword hi (by simp), keyword, Machine.find, withLastValue, hv', hzero]
    exact .const rfl

end Machine

namespace Activity

variable [Writer W] [LineSource I]

/-- The activity ends, and the program has then ended itself. -/
def Halts (setup : Setup) : Activity W I → Prop
  | .run m => SettlesHalted fun fuel => Machine.run setup fuel m
  | .step m => SettlesHalted fun fuel => Machine.step setup fuel m
  | .eval node place m => SettlesHalted fun fuel => Machine.eval setup fuel node place m
  | .arguments nodes place m =>
    SettlesHalted fun fuel => Machine.evalArguments setup fuel nodes place m
  | .call name nodes place m => SettlesHalted fun fuel => Machine.call setup fuel name nodes place m
  | .body depth name place m =>
    SettlesHalted fun fuel => Machine.runUntil setup fuel depth name place m

theorem Halts.of_begins {setup : Setup} {a b : Activity W I} (hab : Begins setup a b)
    (h : Halts setup b) : Halts setup a := by
  cases hab with
  | step hf =>
    refine SettlesHalted.of_succ ?_
    simp only [Machine.run_active hf]
    exact h.andThen fun _ m hm => Machine.settles_run_halted setup hm
  | value hi hm =>
    refine SettlesHalted.of_succ ?_
    simp only [Machine.step_value hi hm]
    exact h.andThen fun _ m hm => .const hm
  | change hi hv ho hm =>
    refine SettlesHalted.of_succ ?_
    simp only [Machine.step_change hi hv ho hm]
    exact h.andThen fun i m hm => .const (Machine.endsHalted_overwrite hm i _ _)
  | @left op left right place m =>
    refine SettlesHalted.of_succ ?_
    simp only [Machine.eval]
    refine h.andThen fun a m hm => ?_
    refine (Machine.settles_eval_halted setup place right hm).andThen fun b m hm => ?_
    exact .const (Machine.endsHalted_result hm op a b place)
  | right hl =>
    have hl' := (Machine.eval_stable setup _ _ _).settles hl (by simp)
    refine SettlesHalted.of_succ ?_
    simp only [Machine.eval]
    refine hl'.andThen_halted (h.andThen fun b m hm => ?_)
    exact .const (Machine.endsHalted_result hm _ _ b _)
  | operand =>
    refine SettlesHalted.of_succ ?_
    simp only [Machine.eval]
    exact h.andThen fun value m hm => .const (Machine.endsHalted_applyUnary hm _ value _)
  | call =>
    refine SettlesHalted.of_succ ?_
    simp only [Machine.eval]
    exact h
  | arguments ha =>
    refine SettlesHalted.of_succ ?_
    simp only [Machine.call_admitted ha]
    exact h.andThen fun values m hm => Machine.settles_enter_halted setup _ _ _ _ values hm
  | @argument node nodes place m =>
    refine SettlesHalted.of_succ ?_
    simp only [Machine.evalArguments]
    refine h.andThen fun value m hm => ?_
    refine (Machine.settles_evalArguments_halted setup place nodes hm).andThen fun values m hm => ?_
    exact .const hm
  | body ha he =>
    have he' := (Machine.evalArguments_stable setup _ _ _).settles he (by simp)
    refine SettlesHalted.of_succ ?_
    simp only [Machine.call_admitted ha]
    exact he'.andThen_halted (h.andThen fun _ m hm => .const hm)
  | bodyStep hd hh hp =>
    refine SettlesHalted.of_succ ?_
    simp only [Machine.runUntil_active hd hh hp]
    exact h.andThen fun _ m hm => Machine.settles_runUntil_halted setup _ _ _ hm

theorem Halts.of_goesOn {setup : Setup} {a a' : Activity W I} (haa : GoesOn setup a a')
    (h : Halts setup a') : Halts setup a := by
  cases haa with
  | run hf hs =>
    have hs' := (Machine.step_stable setup _).settles hs (by simp)
    refine SettlesHalted.of_succ ?_
    simp only [Machine.run_active hf]
    exact hs'.andThen_halted h
  | arguments he =>
    have he' := (Machine.eval_stable setup _ _ _).settles he (by simp)
    refine SettlesHalted.of_succ ?_
    simp only [Machine.evalArguments]
    exact he'.andThen_halted (h.andThen fun values m hm => .const hm)
  | body hd hh hp hs =>
    have hs' := (Machine.step_stable setup _).settles hs (by simp)
    refine SettlesHalted.of_succ ?_
    simp only [Machine.runUntil_active hd hh hp]
    exact hs'.andThen_halted h

/-- Where the innermost activity ends the program, the run ends. -/
theorem InProgress.run_halts {setup : Setup} {m : Machine W I} {stack : List (Activity W I)}
    (h : InProgress setup m stack) :
    ∀ a outer, stack = a :: outer → Halts setup a → Halts setup (.run m) := by
  induction h with
  | start =>
    intro a outer heq ha
    cases heq
    exact ha
  | begins _ hab ih =>
    intro b outer heq hb
    cases heq
    exact ih _ _ rfl (.of_begins hab hb)
  | goesOn _ haa ih =>
    intro a' outer heq ha'
    cases heq
    exact ih _ _ rfl (.of_goesOn haa ha')

end Activity

end VerbScript
