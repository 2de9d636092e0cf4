import VerbScript.Machine.Fuel
import VerbScript.Proofs.Preservation
import VerbScript.Proofs.Transparency

/-!
# VerbScript.Proofs.Termination

Programs without loops end, however their functions call each other.

`LoopFree` programs have no loop keyword and no jump to a label, so that within a call the pointer
only moves forward, and the limit on calls bounds how deeply calls nest. Values are given back only by
the outermost operator of an instruction: else a function could take its frame off and call itself in
the same expression, again and again, and no limit would be reached.

* `Ends P f`: from some fuel on, the outcome is one that is not cut off, and a result leaves a machine
  that satisfies `P`.
* `Advanced i m m'`: the machine has gone on past the instruction at `i`, or has ended a call, or the
  program. `keyword_advances` goes through the keywords once.
* `loop_ends`: a loop over instructions ends, since `work` falls with each of them. Both the steps of
  a body and those of a run are such a loop.
* `eval_ends` and `step_ends`: by induction on how many calls there is room for, and for that many by
  induction on the expression. `run_ends` is the same of a whole run.
-/

namespace VerbScript

variable {W I : Type}

namespace Outcome

variable {α β : Type}

/-- The outcome is not cut off, and a result leaves a machine that satisfies `P`. -/
def Ensures (P : Machine W I → Prop) : Outcome α W I → Prop
  | .done _ m => P m
  | .fault _ _ => True
  | .cutOff => False

theorem Ensures.andThen {P Q : Machine W I → Prop} {o : Outcome α W I}
    {next : α → Machine W I → Outcome β W I} (h : o.Ensures P)
    (hnext : ∀ value m, P m → (next value m).Ensures Q) :
    (o.andThen next).Ensures Q := by
  cases o with
  | done value m => exact hnext value m h
  | fault cause m => trivial
  | cutOff => exact h

/-- From some fuel on, the outcome is one that ensures `P`. -/
def Ends (P : Machine W I → Prop) (f : Nat → Outcome α W I) : Prop := ∃ o, Settles f o ∧ o.Ensures P

variable {P Q : Machine W I → Prop} {f : Nat → Outcome α W I}

theorem Ends.const {o : Outcome α W I} (h : o.Ensures P) : Ends P fun _ => o := ⟨o, .const o, h⟩

theorem Ends.of_succ (h : Ends P fun fuel => f (fuel + 1)) : Ends P f := by
  obtain ⟨o, ho, hP⟩ := h
  exact ⟨o, ho.of_succ, hP⟩

theorem Ends.andThen {next : Nat → α → Machine W I → Outcome β W I} (h : Ends P f)
    (hnext : ∀ value m, P m → Ends Q fun fuel => next fuel value m) :
    Ends Q fun fuel => (f fuel).andThen (next fuel) := by
  obtain ⟨o, ho, hP⟩ := h
  cases o with
  | done value m =>
    obtain ⟨o', ho', hQ⟩ := hnext value m hP
    exact ⟨o', ho.andThen ho', hQ⟩
  | fault cause m => exact ⟨_, ho.andThen_fault, trivial⟩
  | cutOff => exact hP.elim

theorem Ends.mono (h : Ends P f) (hPQ : ∀ m, P m → Q m) : Ends Q f := by
  obtain ⟨o, ho, hP⟩ := h
  refine ⟨o, ho, ?_⟩
  cases o with
  | done value m => exact hPQ m hP
  | fault cause m => trivial
  | cutOff => exact hP

/-- What is known of every result is known of the one that it ends with. -/
theorem Ends.of_done (h : Ends P f) (hQ : ∀ fuel value m, f fuel = .done value m → Q m) :
    Ends Q f := by
  obtain ⟨o, ho, hP⟩ := h
  refine ⟨o, ho, ?_⟩
  cases o with
  | done value m =>
    obtain ⟨fuel, hfuel⟩ := ho.exists
    exact hQ fuel value m hfuel
  | fault cause m => trivial
  | cutOff => exact hP

end Outcome

/-- Whether the instruction belongs to a loop or jumps to a label. -/
def Node.jumpsBack : Node → Bool
  | .keyword .lock | .keyword .start | .keyword .find => true
  | _ => false

namespace Program

/-- No instruction belongs to a loop or jumps to a label. -/
def LoopFree (p : Program) : Prop := ∀ instruction ∈ p, instruction.value.jumpsBack = false

instance (p : Program) : Decidable p.LoopFree :=
  inferInstanceAs (Decidable (∀ instruction ∈ p, instruction.value.jumpsBack = false))

theorem LoopFree.loopGuard? {p : Program} (hp : p.LoopFree) (check : Nat) :
    p.loopGuard? check = none := by
  unfold Program.loopGuard?
  split
  · split
    · rename_i guard k hk
      obtain ⟨instruction, hi, hnode⟩ := Option.map_eq_some_iff.1 hk
      have hfree := hp _ (List.mem_of_getElem? hi)
      rw [hnode] at hfree
      cases k with
      | lock => cases hfree
      | start => cases hfree
      | _ => rfl
    · rfl
  · rfl

theorem LoopFree.not_loop {p : Program} (hp : p.LoopFree) {skipConditionals : Bool}
    {index guard check : Nat} {untilLoop : Bool} :
    p.enclosing? index skipConditionals ≠ some (.loop guard check untilLoop) := by
  intro h
  have hguard := loopGuard?_of_enclosing? h
  rw [hp.loopGuard?] at hguard
  cases hguard

end Program

namespace Machine

open Outcome

/-! ## Going on -/

/-- Unless the program has ended itself, a call has ended, or as many are in progress as before and
the pointer is past `i`. -/
def Advanced (i : Nat) (m m' : Machine W I) : Prop :=
  m'.state.halted = false → m'.state.frames.length < m.state.frames.length ∨
    m'.state.frames.length = m.state.frames.length ∧ i < m'.state.pointer

theorem Advanced.of_eq {i : Nat} {m m' : Machine W I} (hf : m'.state.frames = m.state.frames)
    (hp : i < m'.state.pointer) : Advanced i m m' := by
  intro _
  exact .inr ⟨congrArg List.length hf, hp⟩

theorem advanced_assign {i : Nat} {m m' : Machine W I} (hf : m'.state.frames = m.state.frames)
    (hp : i < m'.state.pointer) (name : String) (value : Number) :
    Advanced i m (m'.assign name value) := by
  intro _
  refine .inr ⟨?_, by rwa [assign_pointer]⟩
  rw [length_assign_frames, hf]

section Keyword

variable {p : Program} {i : Nat} {m : Machine W I}

theorem withLastValue_ensures {α : Type} {P : Machine W I → Prop} {k : Keyword} {place : Position}
    {action : Number → Outcome α W I} (h : ∀ value, (action value).Ensures P) :
    (m.withLastValue k place action).Ensures P := by
  unfold withLastValue
  split
  · exact h _
  · trivial

theorem withVariable_ensures {P : Machine W I → Prop} {k : Keyword} {place : Position}
    {action : String → Machine W I → Outcome Unit W I}
    (h : ∀ name, (action name (m.jump (i + 2))).Ensures P) :
    (m.withVariable p k i place action).Ensures P := by
  unfold withVariable
  split
  · exact h _
  · trivial

theorem onSink_ensures {P : Machine W I → Prop} {request : Option ChannelFault × W}
    (h : P { m with sink := request.2 }) (place : Position) :
    (m.onSink request place).Ensures P := by
  unfold onSink
  split
  · exact h
  · trivial

theorem pop_ensures {P : Machine W I → Prop}
    (h : ∀ stack, P { m with state := { m.state with stack := stack } }) (place : Position) :
    (m.pop place).Ensures P := by
  unfold pop
  split
  · trivial
  · exact h _

theorem overwrite_ensures {P : Machine W I → Prop}
    (h : ∀ stack, P { m with state := { m.state with stack := stack } }) (index value : Number)
    (place : Position) : (m.overwrite index value place).Ensures P := by
  unfold overwrite
  split
  · trivial
  · split
    · exact h _
    · trivial

/-- Giving back a value ends the call that `caller` is in. -/
theorem giveBack_advances {caller : Machine W I} (hk : Kept caller m) (value : Number)
    (place : Position) : (m.giveBack value place).Ensures (Advanced i caller) := by
  unfold giveBack
  split
  · trivial
  · rename_i frame rest hf
    intro hlive
    have hframes := (hk.live hlive).1
    exact .inl (by rw [← hframes, hf]; exact Nat.lt_succ_self _)

theorem skipBlock_advances {start : Nat} (hi : i < start) (k : Keyword) (acceptElse : Bool)
    (place : Position) : (m.skipBlock p k start acceptElse place).Ensures (Advanced i m) := by
  unfold skipBlock
  split
  · rename_i target hclose
    have hle := (Program.closing?_bounds hclose).1
    exact .of_eq rfl (show i < target + 1 by omega)
  · trivial

theorem check_advances (hi : i < m.state.pointer) (place : Position) :
    (m.check p i place).Ensures (Advanced i m) := by
  refine withLastValue_ensures ?_
  intro value
  simp only
  split
  · split
    · exact .of_eq rfl hi
    · exact skipBlock_advances (Nat.lt_succ_self i) _ _ _
  · split
    · exact .of_eq rfl hi
    · exact skipBlock_advances (Nat.lt_succ_self i) _ _ _

theorem closeBlock_advances (hp : p.LoopFree) (hi : i < m.state.pointer) (place : Position) :
    (m.closeBlock p i place).Ensures (Advanced i m) := by
  unfold closeBlock
  split
  · trivial
  · exact .of_eq rfl hi
  · rename_i hloop
    exact absurd hloop hp.not_loop
  · exact (giveBack_advances (.refl m) 0 place).andThen fun _ _ h => h

theorem leave_advances (hp : p.LoopFree) (hi : i < m.state.pointer) (place : Position) :
    (m.leave p i place).Ensures (Advanced i m) := by
  unfold leave
  split
  · trivial
  · exact .of_eq rfl hi
  · rename_i hloop
    exact absurd hloop hp.not_loop
  · exact (giveBack_advances (.refl m) 0 place).andThen fun _ _ h => h

theorem define_advances (name : String) (parameters : List String) (place : Position) :
    (m.define p name parameters i place).Ensures (Advanced i m) := by
  unfold define
  split
  · trivial
  · rename_i finish hclose
    have hle := (Program.closing?_bounds hclose).1
    exact .of_eq rfl (show i < finish + 1 by omega)

variable [Writer W]

theorem write_advances (hi : i < m.state.pointer) (text : String) (place : Position) :
    (m.write text place).Ensures (Advanced i m) :=
  onSink_ensures (.of_eq rfl hi) place

theorem flush_ensures (place : Position) :
    (m.flush place).Ensures fun m' => m'.state = m.state :=
  onSink_ensures (P := fun m' => m'.state = m.state) rfl place

variable [LineSource I]

theorem readLine_ensures (place : Position) :
    (m.readLine place).Ensures fun m' => m'.state = m.state := by
  refine (flush_ensures place).andThen ?_
  intro _ m' hstate
  simp only
  split
  · trivial
  · trivial
  · exact hstate

/-- What stores the line that it read, for which the pointer has moved past the variable. -/
theorem store_advances (name : String) {action : String → Machine W I → Outcome Unit W I}
    (h : ∀ line m', (action line m').Ensures fun m'' => ∃ value, m'' = m'.assign name value)
    (place : Position) :
    (((m.jump (i + 2)).readLine place).andThen action).Ensures (Advanced i m) := by
  refine (readLine_ensures place).andThen ?_
  intro line m' hstate
  have hframes : m'.state.frames = m.state.frames := by rw [hstate]; rfl
  have hpointer : i < m'.state.pointer := by
    rw [hstate]
    exact Nat.lt_succ_of_lt (Nat.lt_succ_self i)
  have haction := h line m'
  cases hdone : action line m' with
  | done _ m'' =>
    rw [hdone] at haction
    obtain ⟨value, rfl⟩ := haction
    exact advanced_assign hframes hpointer name value
  | fault cause m'' => trivial
  | cutOff => rw [hdone] at haction; exact haction

theorem scan_advances (name : String) (place : Position) :
    ((m.jump (i + 2)).scan name place).Ensures (Advanced i m) := by
  refine store_advances name ?_ place
  intro line m'
  split
  · exact ⟨_, rfl⟩
  · trivial

theorem press_advances (name : String) (place : Position) :
    ((m.jump (i + 2)).press name place).Ensures (Advanced i m) := by
  refine store_advances name ?_ place
  intro line m'
  split
  · exact ⟨_, rfl⟩
  · exact ⟨_, rfl⟩

theorem keyword_advances (hp : p.LoopFree) {k : Keyword} (hk : (Node.keyword k).jumpsBack = false)
    (hi : i < m.state.pointer) (place : Position) :
    (m.keyword p k i place).Ensures (Advanced i m) := by
  cases k with
  | print =>
    refine withLastValue_ensures ?_
    intro value
    split
    · exact write_advances hi _ place
    · trivial
  | send => exact withLastValue_ensures fun value => write_advances hi _ place
  | scroll => exact write_advances hi _ place
  | save => exact withLastValue_ensures fun value => .of_eq rfl hi
  | load =>
    have hpop : (m.pop place).Ensures (Advanced i m) := pop_ensures (fun stack => .of_eq rfl hi) place
    exact hpop.andThen fun _ _ h => h
  | change => exact .of_eq rfl hi
  | write =>
    refine withLastValue_ensures fun value => withVariable_ensures fun name => ?_
    exact advanced_assign rfl (Nat.lt_succ_of_lt (Nat.lt_succ_self i)) name value
  | scan =>
    simp only [keyword]
    exact withVariable_ensures fun name => scan_advances name place
  | press =>
    simp only [keyword]
    exact withVariable_ensures fun name => press_advances name place
  | burn => intro hlive; cases hlive
  | check => exact check_advances hi place
  | fix => exact skipBlock_advances (Nat.lt_succ_self i) _ _ _
  | jam => exact skipBlock_advances (Nat.lt_succ_self i) _ _ _
  | «break» => exact closeBlock_advances hp hi place
  | leave => exact leave_advances hp hi place
  | lock => cases hk
  | start => cases hk
  | find => cases hk

end Keyword

/-! ## Loops over instructions -/

/-- A bound on the instructions that are left, if no call is made: all of the program for each call in
progress, and what is after the pointer. -/
def work (p : Program) (m : Machine W I) : Nat :=
  m.state.frames.length * (p.length + 1) + (p.length - m.state.pointer)

theorem Advanced.work_lt {p : Program} {m m' : Machine W I} (h : Advanced m.state.pointer m m')
    (hlive : m'.state.halted = false) (hend : m.state.pointer < p.length) :
    work p m' < work p m := by
  unfold work
  rcases h hlive with hlt | ⟨heq, hlt⟩
  · have hmul := Nat.mul_le_mul_right (p.length + 1) (Nat.succ_le_of_lt hlt)
    rw [Nat.succ_mul] at hmul
    omega
  · rw [heq]
    omega

variable [Writer W] [LineSource I]

/-- The machine has something left to execute, and executing it ends. -/
structure StepEnds (setup : Setup) (m : Machine W I) : Prop where
  live : m.state.halted = false
  pointer : m.state.pointer < setup.program.length
  ends : Ends (Advanced m.state.pointer m) fun fuel => step setup fuel m

/-- A loop over instructions ends if in every round it ends or executes an instruction that does. -/
theorem loop_ends (setup : Setup) (loop : Nat → Machine W I → Outcome Unit W I)
    (hround : ∀ m, Ends (fun _ => True) (fun fuel => loop fuel m) ∨ StepEnds setup m ∧
      ∀ fuel, loop (fuel + 1) m = (step setup fuel m).andThen fun _ m' => loop fuel m')
    (m : Machine W I) : Ends (fun _ => True) fun fuel => loop fuel m := by
  induction hwork : work setup.program m using Nat.strongRecOn generalizing m with
  | ind n ih =>
    rcases hround m with hends | ⟨hstep, hnext⟩
    · exact hends
    · refine Ends.of_succ ?_
      simp only [hnext]
      refine hstep.ends.andThen ?_
      intro _ m' hadvanced
      cases hh : m'.state.halted with
      | false =>
        have hlt := hadvanced.work_lt hh hstep.pointer
        exact ih _ (hwork ▸ hlt) m' rfl
      | true =>
        -- the program has ended itself, and so does the loop
        rcases hround m' with hends | ⟨hstep', -⟩
        · exact hends
        · rw [hstep'.live] at hh
          cases hh

theorem runUntil_ends {setup : Setup} {depth : Nat} (name : String) (place : Position)
    (hstep : ∀ m : Machine W I, depth < m.state.frames.length →
      m.state.pointer < setup.program.length →
      Ends (Advanced m.state.pointer m) fun fuel => step setup fuel m) (m : Machine W I) :
    Ends (fun _ => True) fun fuel => runUntil setup fuel depth name place m := by
  refine loop_ends setup (fun fuel m => runUntil setup fuel depth name place m) ?_ m
  intro m
  by_cases hdepth : m.state.frames.length ≤ depth
  · refine .inl (Ends.of_succ ?_)
    simp only [runUntil, if_pos hdepth]
    exact .const trivial
  · cases hlive : m.state.halted with
    | true =>
      refine .inl (Ends.of_succ ?_)
      simp only [runUntil, if_neg hdepth, hlive, ↓reduceIte]
      exact .const trivial
    | false =>
      by_cases hend : m.state.pointer < setup.program.length
      · refine .inr ⟨⟨hlive, hend, hstep m (by omega) hend⟩, ?_⟩
        exact runUntil_active (by omega) hlive hend
      · refine .inl (Ends.of_succ ?_)
        simp only [runUntil, if_neg hdepth, hlive, Bool.false_eq_true, ↓reduceIte,
          if_pos (Nat.le_of_not_lt hend)]
        exact .const trivial

/-! ## Expressions and instructions -/

/-- The instructions end that are executed where there is room for fewer than `room` calls. -/
def EndsBelow (W I : Type) [Writer W] [LineSource I] (setup : Setup) (room : Nat) : Prop :=
  ∀ m : Machine W I, setup.depthLimit - m.state.frames.length < room →
    m.state.pointer < setup.program.length →
    Ends (Advanced m.state.pointer m) fun fuel => step setup fuel m

/-- In a body there is room for fewer calls than where it was called. -/
theorem body_ends {setup : Setup} {room depth : Nat} (hbelow : EndsBelow W I setup room)
    (hroom : setup.depthLimit - depth ≤ room) (hlimit : ¬ setup.depthLimit ≤ depth) (name : String)
    (place : Position) (m : Machine W I) :
    Ends (fun _ => True) fun fuel =>
      (runUntil setup fuel depth name place m).andThen fun _ m => .done m.state.lastReturn m := by
  refine (runUntil_ends name place ?_ m).andThen fun _ _ _ => .const trivial
  intro m' hdepth hend
  exact hbelow m' (by omega) hend

mutual

theorem eval_ends {setup : Setup} (hr : setup.program.ReturnsOutermost) {room : Nat}
    (hbelow : EndsBelow W I setup room) (place : Position) :
    ∀ (node : Node) {m : Machine W I}, node.returnFree = true →
      setup.depthLimit - m.state.frames.length ≤ room →
      Ends (Kept m) fun fuel => eval setup fuel node place m
  | .number value, m, _, _ => by
    refine Ends.of_succ ?_
    simp only [eval]
    exact .const (.refl m)
  | .variable name, m, _, _ => by
    refine Ends.of_succ ?_
    simp only [eval]
    cases m.state.lookup name with
    | some value => exact .const (.refl m)
    | none => exact .const trivial
  | .binary op left right, m, hfree, hroom => by
    simp only [Node.returnFree, Bool.and_eq_true] at hfree
    refine Ends.of_succ ?_
    simp only [eval]
    refine (eval_ends hr hbelow place left hfree.1 hroom).andThen ?_
    intro a m₁ hk₁
    have hle := hk₁.frames.length_le
    refine (eval_ends hr hbelow place right hfree.2 (by omega)).andThen ?_
    intro b m₂ hk₂
    cases op.result? a b with
    | some value => exact .const (hk₁.trans hk₂)
    | none => exact .const trivial
  | .unary op operand, m, hfree, hroom => by
    simp only [Node.returnFree, Bool.and_eq_true, bne_iff_ne] at hfree
    refine Ends.of_succ ?_
    simp only [eval]
    refine (eval_ends hr hbelow place operand hfree.2 hroom).andThen ?_
    intro value m₁ hk
    cases op with
    | paste => exact .const (hk.trans (.of_eq rfl rfl rfl rfl))
    | giveBack => exact absurd rfl hfree.1
    | negate => exact .const hk
    | not => exact .const hk
  | .call name nodes, m, hfree, hroom => by
    -- what a call keeps is known from `transparent`, so that here it only has to end
    have hends : Ends (fun _ => True) fun fuel => eval setup fuel (.call name nodes) place m := by
      refine Ends.of_succ (Ends.of_succ ?_)
      simp only [eval, call]
      cases m.state.functions.get? name with
      | none => exact .const trivial
      | some entry =>
        simp only
        split
        · exact .const trivial
        · split
          · exact .const trivial
          · rename_i hlimit
            refine (evalArguments_ends hr hbelow place nodes hfree hroom).andThen ?_
            intro values m₁ _
            exact body_ends hbelow hroom hlimit name place _
    exact hends.of_done fun fuel _ _ h => (transparent hr fuel).eval hfree h
  | .pop, m, _, _ => by
    refine Ends.of_succ ?_
    simp only [eval]
    exact .const (pop_ensures (fun stack => .of_eq rfl rfl rfl rfl) place)
  | .keyword k, m, _, _ => by
    refine Ends.of_succ ?_
    simp only [eval]
    exact .const trivial
  | .label, m, _, _ => by
    refine Ends.of_succ ?_
    simp only [eval]
    exact .const trivial
  | .define name parameters, m, _, _ => by
    refine Ends.of_succ ?_
    simp only [eval]
    exact .const trivial

theorem evalArguments_ends {setup : Setup} (hr : setup.program.ReturnsOutermost) {room : Nat}
    (hbelow : EndsBelow W I setup room) (place : Position) :
    ∀ (nodes : List Node) {m : Machine W I}, Node.allReturnFree nodes = true →
      setup.depthLimit - m.state.frames.length ≤ room →
      Ends (Kept m) fun fuel => evalArguments setup fuel nodes place m
  | [], m, _, _ => by
    refine Ends.of_succ ?_
    simp only [evalArguments]
    exact .const (.refl m)
  | node :: nodes, m, hfree, hroom => by
    simp only [Node.allReturnFree, Bool.and_eq_true] at hfree
    refine Ends.of_succ ?_
    simp only [evalArguments]
    refine (eval_ends hr hbelow place node hfree.1 hroom).andThen ?_
    intro value m₁ hk₁
    have hle := hk₁.frames.length_le
    refine (evalArguments_ends hr hbelow place nodes hfree.2 (by omega)).andThen ?_
    intro values m₂ hk₂
    exact .const (hk₁.trans hk₂)

end

/-- The expression of an instruction, for which the pointer has moved past `i`. -/
theorem instruction_ends {setup : Setup} (hr : setup.program.ReturnsOutermost) {room : Nat}
    (hbelow : EndsBelow W I setup room) (place : Position) {i : Nat} {node : Node} {m : Machine W I}
    (hnode : node.returnsOutermost = true)
    (hroom : setup.depthLimit - m.state.frames.length ≤ room) (hi : i < m.state.pointer) :
    Ends (Advanced i m) fun fuel => eval setup fuel node place m := by
  unfold Node.returnsOutermost at hnode
  split at hnode
  · rename_i operand
    refine Ends.of_succ ?_
    simp only [eval]
    refine (eval_ends hr hbelow place operand hnode hroom).andThen ?_
    intro value m₁ hk
    exact .const (giveBack_advances hk value place)
  · refine (eval_ends hr hbelow place node hnode hroom).mono ?_
    intro m' hk hlive
    obtain ⟨hframes, hpointer⟩ := hk.live hlive
    exact .inr ⟨congrArg List.length hframes, by rwa [hpointer]⟩

/-- The operand of `change` is an instruction's expression too, one further on. -/
theorem change_ends {setup : Setup} (hr : setup.program.ReturnsOutermost) {room : Nat}
    (hbelow : EndsBelow W I setup room) {place : Position} {m : Machine W I}
    (hroom : setup.depthLimit - m.state.frames.length ≤ room)
    (hi : setup.program[m.state.pointer]? = some ⟨.keyword .change, place⟩) :
    Ends (Advanced m.state.pointer m) fun fuel => step setup fuel m := by
  have hlast : (m.jump (m.state.pointer + 1)).state.lastValue = m.state.lastValue := rfl
  refine Ends.of_succ ?_
  cases hv : m.state.lastValue with
  | none =>
    simp only [step, hi, withLastValue, hlast, hv]
    exact .const trivial
  | some value =>
    cases ho : setup.program.node? (m.state.pointer + 1) with
    | none =>
      simp only [step, hi, withLastValue, hlast, hv, withOperand, ho]
      exact .const trivial
    | some operand =>
      cases hm : operand.isMarker with
      | true =>
        simp only [step, hi, withLastValue, hlast, hv, withOperand, ho, hm, ↓reduceIte]
        exact .const trivial
      | false =>
        obtain ⟨instruction, hnext, rfl⟩ := Option.map_eq_some_iff.1 ho
        have hnode := hr _ (List.mem_of_getElem? hnext)
        have hpointer : m.state.pointer < m.state.pointer + 2 := by omega
        simp only [step_change hi hv ho hm]
        refine Ends.andThen (instruction_ends hr hbelow place hnode hroom hpointer) ?_
        intro index m' hadvanced
        exact .const (overwrite_ensures (fun _ => hadvanced) index value place)

/-- The instruction under the pointer ends if those of the bodies end that it calls. -/
theorem step_ends {setup : Setup} (hp : setup.program.LoopFree)
    (hr : setup.program.ReturnsOutermost) {room : Nat} (hbelow : EndsBelow W I setup room)
    {m : Machine W I} (hroom : setup.depthLimit - m.state.frames.length ≤ room)
    (hend : m.state.pointer < setup.program.length) :
    Ends (Advanced m.state.pointer m) fun fuel => step setup fuel m := by
  obtain ⟨⟨node, place⟩, hi⟩ : ∃ instruction, setup.program[m.state.pointer]? = some instruction :=
    ⟨_, List.getElem?_eq_getElem hend⟩
  have hmem := List.mem_of_getElem? hi
  have hnext : m.state.pointer < m.state.pointer + 1 := Nat.lt_succ_self _
  cases hm : node.isMarker with
  | false =>
    refine Ends.of_succ ?_
    simp only [step_value hi hm]
    refine Ends.andThen (instruction_ends hr hbelow place (hr _ hmem) hroom hnext) ?_
    intro value m' hadvanced
    exact .const hadvanced
  | true =>
    cases node with
    | keyword k =>
      by_cases hk : k = .change
      · subst hk
        exact change_ends hr hbelow hroom hi
      · refine Ends.of_succ ?_
        simp only [step_keyword hi hk]
        exact .const (keyword_advances hp (hp _ hmem) hnext place)
    | label =>
      refine Ends.of_succ ?_
      simp only [step, hi]
      exact .const (.of_eq rfl hnext)
    | define name parameters =>
      refine Ends.of_succ ?_
      simp only [step_define hi]
      exact .const (define_advances name parameters place)
    | _ => cases hm

/-- Each call that is made leaves room for fewer, so the instructions end everywhere. -/
theorem endsBelow {setup : Setup} (hp : setup.program.LoopFree)
    (hr : setup.program.ReturnsOutermost) (room : Nat) : EndsBelow W I setup room := by
  induction room with
  | zero =>
    intro m hlt
    exact absurd hlt (Nat.not_lt_zero _)
  | succ room ih =>
    intro m hlt hend
    exact step_ends hp hr ih (Nat.le_of_lt_succ hlt) hend

/-! ## Runs -/

theorem run_ends {setup : Setup} (hp : setup.program.LoopFree)
    (hr : setup.program.ReturnsOutermost) (m : Machine W I) :
    Ends (fun _ => True) fun fuel => run setup fuel m := by
  refine loop_ends setup (fun fuel m => run setup fuel m) ?_ m
  intro m
  cases hf : m.isFinished setup with
  | true =>
    refine .inl (Ends.of_succ ?_)
    simp only [run, hf, ↓reduceIte]
    exact (Ends.const (flush_ensures _)).mono fun _ _ => trivial
  | false =>
    refine .inr ⟨?_, run_active hf⟩
    simp only [isFinished, Bool.or_eq_false_iff, decide_eq_false_iff_not, Nat.not_le] at hf
    exact ⟨hf.1, hf.2, endsBelow hp hr _ m (Nat.lt_succ_self _) hf.2⟩

/-- A program without loops and jumps to labels, in which only the outermost operator of an
instruction gives back a value, ends: from every state, with every input and sink and whatever the
limit on calls is, some amount of fuel is enough for the run not to be cut off, and no larger amount
changes its outcome. -/
theorem loopFree_run_terminates {setup : Setup} (hp : setup.program.LoopFree)
    (hr : setup.program.ReturnsOutermost) (m : Machine W I) :
    ∃ enough o, o ≠ .cutOff ∧ ∀ fuel, enough ≤ fuel → run setup fuel m = o := by
  obtain ⟨o, ⟨enough, hsettles⟩, hensures⟩ := run_ends hp hr m
  refine ⟨enough, o, ?_, hsettles⟩
  rintro rfl
  exact hensures

/-- Two functions that call each other without end, one of them in an argument. -/
def pingPong : Program := .ofNodes
  [.define "ping" ["n"],
    .unary .giveBack (.call "pong" [.binary .subtract (.variable "n") (.number 1)]), .keyword .break,
    .define "pong" ["n"],
    .unary .giveBack (.call "ping" [.call "ping" [.variable "n"]]), .keyword .break,
    .call "ping" [.number 3]]

theorem loopFree_run_terminates_pingPong :
    pingPong.LoopFree ∧ pingPong.ReturnsOutermost ∧
      ∃ enough o, o ≠ .cutOff ∧
        ∀ fuel, enough ≤ fuel → run ⟨pingPong, 1000⟩ fuel {} = o := by
  have hp : pingPong.LoopFree := by decide
  have hr : pingPong.ReturnsOutermost := by decide
  exact ⟨hp, hr, loopFree_run_terminates hp hr {}⟩

end Machine
end VerbScript
