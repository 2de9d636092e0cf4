import VerbScript.Proofs.Preservation
import VerbScript.Proofs.Trace

/-!
# VerbScript.Proofs.Halting.Frozen

A program that has ended itself does nothing more that could be observed.

What is left of the expressions is still evaluated: values are taken off the stack and put on it,
frames are pushed and popped, and the registers for values are set. But no instruction is executed
any more, so nothing is written or read, and the global variables and the functions stay as they
are. `Activity.halted_frozen` says so of any two machines that a run passes through one after the
other, however deep in calls the program ended itself and however the run ends.
-/

namespace VerbScript

namespace Machine

/-- The program has ended itself, and what can be observed is as it was. -/
structure Frozen (m m' : Machine) : Prop where
  halted : m'.state.halted = true
  sink : m'.sink = m.sink
  input : m'.input = m.input
  globals : m'.state.globals = m.state.globals
  functions : m'.state.functions = m.state.functions

/-- From the end of the program on, nothing that can be observed changes. -/
def Silent (m m' : Machine) : Prop := m.state.halted = true → Frozen m m'

namespace Silent

theorem refl (m : Machine) : Silent m m := fun h => ⟨h, rfl, rfl, rfl, rfl⟩

theorem of_live {m : Machine} (h : m.state.halted = false) (m' : Machine) : Silent m m' := by
  intro hhalted
  rw [h] at hhalted
  cases hhalted

theorem trans {m₁ m₂ m₃ : Machine} (h : Silent m₁ m₂) (h' : Silent m₂ m₃) : Silent m₁ m₃ := by
  intro hhalted
  obtain ⟨hhalted₂, hsink, hinput, hglobals, hfunctions⟩ := h hhalted
  obtain ⟨hhalted₃, hsink', hinput', hglobals', hfunctions'⟩ := h' hhalted₂
  exact ⟨hhalted₃, hsink'.trans hsink, hinput'.trans hinput, hglobals'.trans hglobals,
    hfunctions'.trans hfunctions⟩

instance : Trans Silent Silent Silent := ⟨trans⟩

/-! ### What is still done after the end -/

theorem pop (m : Machine) (place : Position) : (m.pop place).Leaves (Silent m) := by
  unfold Machine.pop
  split
  · exact refl m
  · exact fun h => ⟨h, rfl, rfl, rfl, rfl⟩

theorem applyUnary (m : Machine) (op : UnaryOperator) (value : Number) (place : Position) :
    (m.applyUnary op value place).Leaves (Silent m) := by
  cases op with
  | paste => exact fun h => ⟨h, rfl, rfl, rfl, rfl⟩
  | giveBack =>
    simp only [Machine.applyUnary, Machine.giveBack]
    split
    · exact refl m
    · exact fun h => ⟨h, rfl, rfl, rfl, rfl⟩
  | negate => exact refl m
  | not => exact refl m

theorem overwrite (m : Machine) (index value : Number) (place : Position) :
    (m.overwrite index value place).Leaves (Silent m) := by
  unfold Machine.overwrite
  split
  · exact refl m
  · split
    · exact fun h => ⟨h, rfl, rfl, rfl, rfl⟩
    · exact refl m

theorem setLastValue (m : Machine) (value : Number) : Silent m (m.setLastValue value) :=
  fun h => ⟨h, rfl, rfl, rfl, rfl⟩

theorem enter (m : Machine) (name : String) (entry : FunctionEntry) (values : List Number) :
    Silent m (m.enter name entry values) :=
  fun h => ⟨h, rfl, rfl, rfl, rfl⟩

theorem flush (m : Machine) (place : Position) : (m.flush place).Leaves (Silent m) :=
  onSink_leaves (refl m) place

end Silent

/-- A list of machines, each silent towards the next, from `m` to the machine of `last` if there is
one. -/
structure SilentPath (m : Machine) (last l : List Machine) : Prop where
  head : l.head? = some m
  chain : l.IsChain Silent
  last : ∀ m' ∈ last, l.getLast? = some m'

end Machine

namespace Outcome

variable {α β : Type} {o : Outcome α}

theorem isChain_last (o : Outcome α) : o.last.IsChain Machine.Silent := by
  cases o with
  | done value m => exact .singleton m
  | fault cause m => exact .singleton m
  | cutOff => exact .nil

theorem getLast?_append_last {m : Machine} (h : m ∈ o.last) (l : List Machine) :
    (l ++ o.last).getLast? = some m := by
  cases o with
  | done value m₁ => rw [List.mem_singleton.1 h]; exact List.getLast?_concat
  | fault cause m₁ => rw [List.mem_singleton.1 h]; exact List.getLast?_concat
  | cutOff => cases h

/-- What is only computed from a result leaves the machine that the action left. -/
theorem last_andThen {next : α → Machine → Outcome β}
    (h : ∀ value m, (next value m).last = [m]) : (o.andThen next).last = o.last := by
  cases o with
  | done value m => exact h value m
  | fault cause m => rfl
  | cutOff => rfl

end Outcome

namespace Machine.SilentPath

open Outcome

variable {α β : Type} {o : Outcome α} {m m₀ : Machine} {l : List Machine}

/-- An activity without parts. -/
theorem alone (h : o.Leaves (Silent m)) : SilentPath m o.last (m :: ([] ++ o.last)) where
  head := rfl
  chain := by
    cases o with
    | done value m' => exact List.isChain_cons_cons.2 ⟨h, .singleton _⟩
    | fault cause m' => exact List.isChain_cons_cons.2 ⟨h, .singleton _⟩
    | cutOff => exact .singleton m
  last m' hm' := getLast?_append_last hm' [m]

theorem head?_append (h : SilentPath m o.last l) (l' : List Machine) :
    (l ++ l').head? = some m := by
  rw [List.head?_append, h.head]
  rfl

/-- A path can go on from the machine that it has reached. -/
theorem chain_append (h : SilentPath m o.last l) {l' : List Machine} (hl' : l'.IsChain Silent)
    (hlink : ∀ y ∈ l'.head?, ∃ m₁ ∈ o.last, Silent m₁ y) : (l ++ l').IsChain Silent := by
  refine List.isChain_append.2 ⟨h.chain, hl', ?_⟩
  intro x hx y hy
  obtain ⟨m₁, hm₁, hsilent⟩ := hlink y hy
  have heq : m₁ = x := Option.some.inj ((h.last m₁ hm₁).symm.trans hx)
  exact heq ▸ hsilent

/-- An activity that does something more to the machine after its part. -/
theorem andThen (h : SilentPath m₀ o.last l) (hm : Silent m m₀) {next : α → Machine → Outcome β}
    (hnext : ∀ value m₁, (next value m₁).Leaves (Silent m₁)) :
    SilentPath m (o.andThen next).last (m :: (l ++ (o.andThen next).last)) where
  head := rfl
  chain := by
    refine List.isChain_cons.2 ⟨?_, h.chain_append (isChain_last _) ?_⟩
    · intro y hy
      cases (h.head?_append _).symm.trans hy
      exact hm
    · intro y hy
      cases o with
      | cutOff => cases hy
      | fault cause m₁ =>
        cases hy
        exact ⟨_, List.mem_singleton_self _, .refl _⟩
      | done value m₁ =>
        refine ⟨m₁, List.mem_singleton_self m₁, ?_⟩
        have hleaves := hnext value m₁
        simp only [Outcome.andThen] at hy
        generalize next value m₁ = o' at hy hleaves
        cases o' with
        | cutOff => cases hy
        | fault cause m₂ => cases hy; exact hleaves
        | done value' m₂ => cases hy; exact hleaves
  last m' hm' := getLast?_append_last hm' (m :: l)

/-- An activity that leaves the machine that its parts leave. -/
theorem around (h : SilentPath m o.last l) : SilentPath m o.last (m :: (l ++ o.last)) := by
  have hdone : o.andThen .done = o := by cases o <;> rfl
  rw [← hdone]
  exact h.andThen (.refl m) fun _ m₁ => .refl m₁

/-- Two parts, the second of which begins once something has been done to the machine that the first
one leaves. -/
theorem seqAfter (h : SilentPath m o.last l) {next : α → Machine → Outcome β}
    {rest : α → Machine → List Machine} {before : α → Machine → Machine}
    (hbefore : ∀ value m₁, Silent m₁ (before value m₁))
    (hrest : ∀ value m₁, SilentPath (before value m₁) (next value m₁).last (rest value m₁)) :
    SilentPath m (o.andThen next).last (l ++ o.onward rest) := by
  cases o with
  | cutOff =>
    rw [onward, List.append_nil]
    exact ⟨h.head, h.chain, h.last⟩
  | fault cause m₁ =>
    rw [onward, List.append_nil]
    exact ⟨h.head, h.chain, h.last⟩
  | done value m₁ =>
    have hnext := hrest value m₁
    refine ⟨h.head?_append _, h.chain_append hnext.chain ?_, fun m' hm' => ?_⟩
    · intro y hy
      cases hnext.head.symm.trans hy
      exact ⟨_, List.mem_singleton_self _, hbefore value m₁⟩
    · rw [List.getLast?_append]
      simp only [onward, hnext.last m' hm', Option.some_or]

/-- Two parts, the second of which begins where the first one is done. -/
theorem seq (h : SilentPath m o.last l) {next : α → Machine → Outcome β}
    {rest : α → Machine → List Machine}
    (hrest : ∀ value m₁, SilentPath m₁ (next value m₁).last (rest value m₁)) :
    SilentPath m (o.andThen next).last (l ++ o.onward rest) :=
  h.seqAfter (fun _ m₁ => .refl m₁) hrest

end Machine.SilentPath

namespace Activity

open Machine

/-- Instructions are executed only as long as the program has not ended itself. -/
def Due : Activity → Prop
  | .step m => m.state.halted = false
  | _ => True

theorem path_zero (setup : Setup) (a : Activity) :
    SilentPath a.machine (a.last setup 0) [a.machine] := by
  have hlast : a.last setup 0 = [] := by
    cases a <;> simp [last, Outcome.last, Machine.run, Machine.step, Machine.eval,
      Machine.evalArguments, Machine.call, Machine.runUntil]
  rw [hlast]
  exact ⟨rfl, .singleton _, by simp⟩

section Succ

variable {setup : Setup} {fuel : Nat}
  (ih : ∀ a, Due a → SilentPath a.machine (a.last setup fuel) (trace setup fuel a))
include ih

theorem run_path (m : Machine) :
    SilentPath m (Activity.last setup (fuel + 1) (.run m)) (trace setup (fuel + 1) (.run m)) := by
  simp only [trace, parts, last, machine]
  cases hf : m.isFinished setup with
  | true =>
    simp only [↓reduceIte, Machine.run, hf]
    exact .alone (Silent.flush m _)
  | false =>
    have hlive : m.state.halted = false := by
      simp only [isFinished, Bool.or_eq_false_iff] at hf
      exact hf.1
    simp only [Bool.false_eq_true, ↓reduceIte, run_active hf]
    exact ((ih (.step m) hlive).seq fun _ m₁ => ih (.run m₁) trivial).around

theorem step_path {m : Machine} (hlive : m.state.halted = false) :
    SilentPath m (Activity.last setup (fuel + 1) (.step m)) (trace setup (fuel + 1) (.step m)) := by
  simp only [trace, parts, last, machine]
  cases he : evaluation? setup.program m with
  | none =>
    refine .alone ?_
    cases Machine.step setup (fuel + 1) m with
    | done value m' => exact .of_live hlive m'
    | fault cause m' => exact .of_live hlive m'
    | cutOff => trivial
  | some evaluation =>
    cases begins_of_evaluation? he with
    | value hi hm =>
      rw [step_value hi hm]
      refine (ih (.eval _ _ _) trivial).andThen (.of_live hlive _) fun value m₁ => ?_
      exact Silent.setLastValue m₁ value
    | change hi hv ho hm =>
      rw [step_change hi hv ho hm]
      refine (ih (.eval _ _ _) trivial).andThen (.of_live hlive _) fun index m₁ => ?_
      exact Silent.overwrite m₁ index _ _

theorem eval_path (node : Node) (place : Position) (m : Machine) :
    SilentPath m (Activity.last setup (fuel + 1) (.eval node place m))
      (trace setup (fuel + 1) (.eval node place m)) := by
  simp only [trace, last, machine]
  cases node with
  | binary op left right =>
    simp only [parts, Machine.eval]
    refine (((ih (.eval left place m) trivial).seq fun a m₁ => ?_).around :)
    rw [Outcome.last_andThen]
    · exact ih (.eval right place m₁) trivial
    · intro b m₂
      split <;> rfl
  | unary op operand =>
    simp only [parts, Machine.eval]
    refine (ih (.eval operand place m) trivial).andThen (.refl m) fun value m₁ => ?_
    exact Silent.applyUnary m₁ op value place
  | call name nodes =>
    simp only [parts, Machine.eval]
    exact (ih (.call name nodes place m) trivial).around
  | number value => exact .alone (by simp only [Machine.eval]; exact Silent.refl m)
  | «variable» name =>
    refine .alone ?_
    simp only [Machine.eval]
    split
    · exact Silent.refl m
    · exact Silent.refl m
  | pop =>
    refine .alone ?_
    simp only [Machine.eval]
    exact Silent.pop m place
  | keyword k => exact .alone (by simp only [Machine.eval]; exact Silent.refl m)
  | label => exact .alone (by simp only [Machine.eval]; exact Silent.refl m)
  | define name parameters => exact .alone (by simp only [Machine.eval]; exact Silent.refl m)

theorem arguments_path (nodes : List Node) (place : Position) (m : Machine) :
    SilentPath m (Activity.last setup (fuel + 1) (.arguments nodes place m))
      (trace setup (fuel + 1) (.arguments nodes place m)) := by
  simp only [trace, last, machine]
  cases nodes with
  | nil => exact .alone (by simp only [Machine.evalArguments]; exact Silent.refl m)
  | cons node nodes =>
    simp only [parts, Machine.evalArguments]
    refine (((ih (.eval node place m) trivial).seq fun value m₁ => ?_).around :)
    rw [Outcome.last_andThen]
    · exact ih (.arguments nodes place m₁) trivial
    · intro values m₂
      rfl

theorem call_path (name : String) (nodes : List Node) (place : Position) (m : Machine) :
    SilentPath m (Activity.last setup (fuel + 1) (.call name nodes place m))
      (trace setup (fuel + 1) (.call name nodes place m)) := by
  simp only [trace, parts, last, machine]
  cases hf : m.state.functions.get? name with
  | none => exact .alone (by simp only [Machine.call, hf]; exact Silent.refl m)
  | some entry =>
    simp only
    split
    · rename_i hadmitted
      rw [call_admitted ⟨hf, hadmitted.1, hadmitted.2⟩]
      refine (((ih (.arguments nodes place m) trivial).seqAfter
        (fun values m₁ => Silent.enter m₁ name entry values) fun values m₁ => ?_).around :)
      rw [Outcome.last_andThen]
      · exact ih (.body _ _ _ _) trivial
      · intro _ m₂
        rfl
    · rename_i hrefused
      refine .alone ?_
      simp only [Machine.call, hf]
      split
      · exact Silent.refl m
      · split
        · exact Silent.refl m
        · exact absurd ⟨by simp_all, by omega⟩ hrefused

theorem body_path (depth : Nat) (name : String) (place : Position) (m : Machine) :
    SilentPath m (Activity.last setup (fuel + 1) (.body depth name place m))
      (trace setup (fuel + 1) (.body depth name place m)) := by
  simp only [trace, parts, last, machine]
  split
  · rename_i hactive
    obtain ⟨hframes, hlive, hend⟩ := hactive
    rw [runUntil_active hframes hlive hend]
    exact ((ih (.step m) hlive).seq fun _ m₁ => ih (.body depth name place m₁) trivial).around
  · rename_i hidle
    -- The frame is gone, the program has ended itself, or the body has run off its end.
    refine .alone ?_
    simp only [Machine.runUntil]
    split
    · exact Silent.refl m
    · split
      · exact Silent.refl m
      · split
        · exact Silent.refl m
        · exact absurd ⟨by omega, by simp_all, by omega⟩ hidle

end Succ

/-- What an activity passes through is one path, from the machine with which it begins to the one
that it leaves. -/
theorem trace_path (setup : Setup) (fuel : Nat) :
    ∀ a, Due a → SilentPath a.machine (a.last setup fuel) (trace setup fuel a) := by
  induction fuel with
  | zero => exact fun a _ => path_zero setup a
  | succ fuel ih =>
    intro a hdue
    cases a with
    | run m => exact run_path ih m
    | step m => exact step_path ih hdue
    | eval node place m => exact eval_path ih node place m
    | arguments nodes place m => exact arguments_path ih nodes place m
    | call name nodes place m => exact call_path ih name nodes place m
    | body depth name place m => exact body_path ih depth name place m

/-- Once the program has ended itself, nothing that can be observed changes until the run is over:
of any two machines that the run passes through, the later one is frozen if the program has ended
itself in the earlier one. What the run leaves is the last of these machines, and at every moment
the machine is one of them. -/
theorem halted_frozen (setup : Setup) (m : Machine) :
    (∀ fuel, (trace setup fuel (.run m)).Pairwise fun earlier later =>
      earlier.state.halted = true → Frozen earlier later) ∧
    (∀ fuel, (Machine.run setup fuel m).Leaves fun final =>
      (trace setup fuel (.run m)).getLast? = some final) ∧
    ∀ a outer, InProgress setup m (a :: outer) →
      ∃ enough, ∀ fuel, enough ≤ fuel → a.machine ∈ trace setup fuel (.run m) := by
  refine ⟨fun fuel => ?_, fun fuel => ?_, fun a outer h => h.mem_trace⟩
  · have hpairwise : (trace setup fuel (.run m)).Pairwise Silent :=
      List.isChain_iff_pairwise.1 (trace_path setup fuel (.run m) trivial).chain
    exact hpairwise
  · have hpath := trace_path setup fuel (.run m) trivial
    cases hrun : Machine.run setup fuel m with
    | done value m' => exact hpath.last m' (by simp [last, hrun, Outcome.last])
    | fault cause m' => exact hpath.last m' (by simp [last, hrun, Outcome.last])
    | cutOff => trivial

-- A value is still pasted after the call in which the program ended itself.
example :
    ((trace ⟨.ofNodes [.define "f" [], .keyword .burn, .keyword .break,
        .unary .paste (.call "f" [])], 1⟩ 20 (.run {})).filter (·.state.halted)).map
      (·.state.stack) = List.replicate 6 [] ++ List.replicate 6 [0] := by
  cbv

end Activity
end VerbScript
