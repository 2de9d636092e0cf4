import VerbScript.Proofs.Effect

/-!
# VerbScript.Proofs.Lockstep

Two runs side by side.

Two runs that differ a little, in their programs, limits or channels, take the same steps as long as
nothing asks about the difference. What has to be said about a particular difference is gathered in
one place, and that the two runs keep pace is proved once.

* `Pairing`: which places and which machines correspond, and the faults of the first run after which
  nothing is asked of the second.
* `Outcome.Paired`: outcomes that correspond. It goes through `andThen`.
* `Lockstep P setup setup'`: corresponding machines answer alike, each small change keeps them
  corresponding, and the second program answers wherever the first one does.
* `Lockstep.inStep`: evaluation and execution are then paired, with any fuel. `Lockstep.run` says so
  of whole runs of programs of one length.
-/

namespace VerbScript

variable {W I : Type}

/-- How a second run is compared with a first one. -/
structure Pairing (W : Type := Sink) (I : Type := Input) where
  /-- Where the second run is when the first one is at a place. -/
  place : Position → Position → Prop
  machine : Machine W I → Machine W I → Prop
  /-- The faults of the first run after which nothing is asked of the second. -/
  excused : Fault → Prop

namespace Pairing

/-- Nothing is asked of the second run once the first one has failed. -/
def Lenient (P : Pairing W I) : Prop := ∀ fault, P.excused fault

/-- The second answer is the first one; a missing answer may differ if it leads to a fault that is
excused. -/
def Answers {β : Type} (P : Pairing W I) (answer answer' : Option β) : Prop :=
  answer' = answer ∨ answer = none ∧ P.Lenient

end Pairing

/-- The second outcome corresponds to the first. -/
def Outcome.Paired {α : Type} (P : Pairing W I) (o o' : Outcome α W I) : Prop :=
  match o with
  | .done value m => ∃ m', o' = .done value m' ∧ P.machine m m'
  | .fault cause m => P.excused cause.value ∨
      ∃ place' m', o' = .fault ⟨cause.value, place'⟩ m' ∧ P.place cause.position place' ∧
        P.machine m m'
  | .cutOff => o' = .cutOff

namespace Outcome.Paired

variable {P : Pairing W I} {α β : Type} {m m' : Machine W I} {place place' : Position}

theorem done (hm : P.machine m m') (value : α) : Paired P (.done value m) (.done value m') :=
  ⟨m', rfl, hm⟩

theorem fault (hm : P.machine m m') (hplace : P.place place place') (cause : Fault) :
    Paired P (.fault ⟨cause, place⟩ m : Outcome α W I) (.fault ⟨cause, place'⟩ m') :=
  .inr ⟨place', m', rfl, hplace, hm⟩

theorem excused {cause : Fault} (h : P.excused cause) (o' : Outcome α W I) :
    Paired P (.fault ⟨cause, place⟩ m) o' :=
  .inl h

theorem andThen {o o' : Outcome α W I} {next next' : α → Machine W I → Outcome β W I}
    (h : Paired P o o')
    (hnext : ∀ value m m', P.machine m m' → Paired P (next value m) (next' value m')) :
    Paired P (o.andThen next) (o'.andThen next') := by
  cases o with
  | done value m =>
    obtain ⟨m', rfl, hm⟩ := h
    exact hnext value m m' hm
  | fault cause m =>
    rcases h with h | ⟨place', m', rfl, hplace, hm⟩
    · exact .inl h
    · exact .inr ⟨place', m', rfl, hplace, hm⟩
  | cutOff =>
    cases h
    rfl

end Outcome.Paired

/-- The second program answers as the first one does, wherever the first one has an answer. -/
structure Pairing.Programs (P : Pairing W I) (p p' : Program) : Prop where
  fetch : ∀ {i : Nat} {node : Node} {place : Position}, p[i]? = some ⟨node, place⟩ →
    ∃ place', p'[i]? = some ⟨node, place'⟩ ∧ P.place place place'
  length_le : p.length ≤ p'.length
  length : P.Lenient ∨ p'.length = p.length
  closing : ∀ start acceptElse, P.Answers (p.closing? start acceptElse) (p'.closing? start acceptElse)
  enclosing : ∀ {i : Nat} (skipConditionals : Bool), i < p.length →
    p'.enclosing? i skipConditionals = p.enclosing? i skipConditionals
  loopGuard : ∀ {i : Nat}, i < p.length → p'.loopGuard? i = p.loopGuard? i
  label : ∀ n, P.Answers (p.label? n) (p'.label? n)
  labelCount : P.Lenient ∨ p'.labelCount = p.labelCount

theorem Pairing.Programs.node {P : Pairing W I} {p p' : Program} (h : P.Programs p p') (i : Nat) :
    P.Answers (p.node? i) (p'.node? i) := by
  cases hi : p[i]? with
  | some instruction =>
    obtain ⟨node, place⟩ := instruction
    obtain ⟨place', hi', -⟩ := h.fetch hi
    exact .inl (by simp only [Program.node?, hi, hi', Option.map_some])
  | none =>
    have hnode : p.node? i = none := by simp only [Program.node?, hi, Option.map_none]
    rcases h.length with hlenient | hlength
    · exact .inr ⟨hnode, hlenient⟩
    · have hi' : p'[i]? = none := by
        rw [List.getElem?_eq_none_iff] at hi ⊢
        omega
      exact .inl (by rw [hnode, Program.node?, hi', Option.map_none])

variable [Writer W] [LineSource I]

/-- Corresponding machines show the same, and corresponding changes keep them corresponding. The
machine of a program that has ended itself may point anywhere. -/
structure Pairing.Machines (P : Pairing W I) (length length' : Nat) : Prop where
  lookup : ∀ {m m'}, P.machine m m' → ∀ name, m'.state.lookup name = m.state.lookup name
  lastValue : ∀ {m m'}, P.machine m m' → m'.state.lastValue = m.state.lastValue
  lastReturn : ∀ {m m'}, P.machine m m' → m'.state.lastReturn = m.state.lastReturn
  stack : ∀ {m m'}, P.machine m m' → m'.state.stack = m.state.stack
  functions : ∀ {m m'}, P.machine m m' → m'.state.functions = m.state.functions
  depth : ∀ {m m'}, P.machine m m' → m'.state.frames.length = m.state.frames.length
  halted : ∀ {m m'}, P.machine m m' → m'.state.halted = m.state.halted
  pointer : ∀ {m m'}, P.machine m m' → m.state.halted = false → m'.state.pointer = m.state.pointer
  sink : ∀ {m m'}, P.machine m m' → m'.sink = m.sink
  jump : ∀ {m m'}, P.machine m m' → ∀ target, P.machine (m.jump target) (m'.jump target)
  setStack : ∀ {m m'}, P.machine m m' → ∀ stack,
    P.machine { m with state := { m.state with stack := stack } }
      { m' with state := { m'.state with stack := stack } }
  setLastValue : ∀ {m m'}, P.machine m m' → ∀ value,
    P.machine (m.setLastValue value) (m'.setLastValue value)
  setSink : ∀ {m m'}, P.machine m m' → ∀ sink,
    P.machine { m with sink := sink } { m' with sink := sink }
  assign : ∀ {m m'}, P.machine m m' → ∀ name value,
    P.machine (m.assign name value) (m'.assign name value)
  halt : ∀ {m m'}, P.machine m m' → P.machine (m.halt length) (m'.halt length')
  giveBack : ∀ {m m' frame frame' rest rest'}, P.machine m m' → ∀ value,
    m.state.frames = frame :: rest → m'.state.frames = frame' :: rest' →
    P.machine
      { m with state := { m.state with
          frames := rest, pointer := frame.returnAddress, lastReturn := value } }
      { m' with state := { m'.state with
          frames := rest', pointer := frame'.returnAddress, lastReturn := value } }
  define : ∀ {m m'}, P.machine m m' → ∀ name entry target,
    P.machine
      { m with state := { m.state with
          functions := m.state.functions.insert name entry, pointer := target } }
      { m' with state := { m'.state with
          functions := m'.state.functions.insert name entry, pointer := target } }
  enter : ∀ {m m'}, P.machine m m' → ∀ name entry values,
    P.machine (m.enter name entry values) (m'.enter name entry values)
  readLine : ∀ {m m' place place'}, P.machine m m' → P.place place place' →
    (m.readLine place).Paired P (m'.readLine place')

/-- Two runs that keep pace. -/
structure Lockstep (P : Pairing W I) (setup setup' : Setup) : Prop where
  machines : P.Machines setup.program.length setup'.program.length
  programs : P.Programs setup.program setup'.program
  limit_le : setup.depthLimit ≤ setup'.depthLimit
  limit : P.excused (.callDepth setup.depthLimit) ∨ setup'.depthLimit = setup.depthLimit

open Outcome

namespace Machine

/-! ## Small actions -/

section Actions

variable {P : Pairing W I} {length length' : Nat} (hP : P.Machines length length')
  {m m' : Machine W I} (hm : P.machine m m') {place place' : Position} (hplace : P.place place place')
include hP hm hplace

theorem pop_paired : (m.pop place).Paired P (m'.pop place') := by
  simp only [pop, hP.stack hm]
  split
  · exact .fault hm hplace _
  · exact .done (hP.setStack hm _) _

theorem overwrite_paired (index value : Number) :
    (m.overwrite index value place).Paired P (m'.overwrite index value place') := by
  simp only [overwrite, hP.stack hm]
  split
  · exact .fault hm hplace _
  · split
    · exact .done (hP.setStack hm _) _
    · exact .fault hm hplace _

theorem giveBack_paired (value : Number) :
    (m.giveBack value place).Paired P (m'.giveBack value place') := by
  have hdepth := hP.depth hm
  cases hf : m.state.frames with
  | nil =>
    have hf' : m'.state.frames = [] := by
      rw [hf] at hdepth
      exact List.eq_nil_of_length_eq_zero hdepth
    simp only [giveBack, hf, hf']
    exact .fault hm hplace _
  | cons frame rest =>
    cases hf' : m'.state.frames with
    | nil => rw [hf, hf'] at hdepth; cases hdepth
    | cons frame' rest' =>
      simp only [giveBack, hf, hf']
      exact .done (hP.giveBack hm value hf hf') _

theorem applyUnary_paired (op : UnaryOperator) (value : Number) :
    (m.applyUnary op value place).Paired P (m'.applyUnary op value place') := by
  cases op with
  | paste =>
    simp only [applyUnary, push, State.push, hP.stack hm]
    exact .done (hP.setStack hm _) _
  | giveBack => exact giveBack_paired hP hm hplace value
  | negate => exact .done hm _
  | not => exact .done hm _

theorem onSink_paired (request : Option ChannelFault × W) :
    (m.onSink request place).Paired P (m'.onSink request place') := by
  have hm := hP.setSink hm request.2
  unfold onSink
  split
  · exact .done hm _
  · exact .fault hm hplace _

theorem write_paired (text : String) : (m.write text place).Paired P (m'.write text place') := by
  simp only [write, hP.sink hm]
  exact onSink_paired hP hm hplace _

theorem flush_paired : (m.flush place).Paired P (m'.flush place') := by
  simp only [flush, hP.sink hm]
  exact onSink_paired hP hm hplace _

theorem withLastValue_paired {α : Type} (k : Keyword) {action action' : Number → Outcome α W I}
    (h : ∀ value, (action value).Paired P (action' value)) :
    (m.withLastValue k place action).Paired P (m'.withLastValue k place' action') := by
  simp only [withLastValue, hP.lastValue hm]
  split
  · exact h _
  · exact .fault hm hplace _

theorem print_paired : (m.print place).Paired P (m'.print place') := by
  refine withLastValue_paired hP hm hplace _ fun value => ?_
  split
  · exact write_paired hP hm hplace _
  · exact .fault hm hplace _

theorem scan_paired (name : String) : (m.scan name place).Paired P (m'.scan name place') := by
  refine (hP.readLine hm hplace).andThen fun line m m' hm => ?_
  split
  · exact .done (hP.assign hm _ _) _
  · exact .fault hm hplace _

theorem press_paired (name : String) : (m.press name place).Paired P (m'.press name place') := by
  refine (hP.readLine hm hplace).andThen fun line m m' hm => ?_
  split
  · exact .done (hP.assign hm _ _) _
  · exact .done (hP.assign hm _ _) _

end Actions

/-! ## Instructions -/

section Instructions

variable {P : Pairing W I} {m m' : Machine W I} (hm : P.machine m m') {place place' : Position}
  (hplace : P.place place place')
include hm hplace

variable {p p' : Program} (hP : P.Machines p.length p'.length) (hp : P.Programs p p')
include hP hp

theorem withVariable_paired (k : Keyword) (index : Nat)
    {action action' : String → Machine W I → Outcome Unit W I}
    (haction : ∀ name {m m'}, P.machine m m' → (action name m).Paired P (action' name m')) :
    (m.withVariable p k index place action).Paired P (m'.withVariable p' k index place' action') := by
  unfold withVariable
  rcases hp.node (index + 1) with h | ⟨h, hlenient⟩
  · rw [h]
    split
    · exact haction _ (hP.jump hm _)
    · exact .fault hm hplace _
  · rw [h]
    exact .excused (hlenient _) _

theorem withOperand_paired (k : Keyword) (index : Nat)
    {action action' : Node → Machine W I → Outcome Unit W I}
    (haction : ∀ node {m m'}, P.machine m m' → (action node m).Paired P (action' node m')) :
    (m.withOperand p k index place action).Paired P (m'.withOperand p' k index place' action') := by
  unfold withOperand
  rcases hp.node (index + 1) with h | ⟨h, hlenient⟩
  · rw [h]
    split
    · split
      · exact .fault hm hplace _
      · exact haction _ (hP.jump hm _)
    · exact .fault hm hplace _
  · rw [h]
    exact .excused (hlenient _) _

theorem skipBlock_paired (k : Keyword) (start : Nat) (acceptElse : Bool) :
    (m.skipBlock p k start acceptElse place).Paired P
      (m'.skipBlock p' k start acceptElse place') := by
  unfold skipBlock
  rcases hp.closing start acceptElse with h | ⟨h, hlenient⟩
  · rw [h]
    split
    · exact .done (hP.jump hm _) _
    · exact .fault hm hplace _
  · rw [h]
    exact .excused (hlenient _) _

theorem check_paired {index : Nat} (hindex : index < p.length) :
    (m.check p index place).Paired P (m'.check p' index place') := by
  have enter : ∀ entered acceptElse : Bool,
      (if entered then Outcome.done () m
        else m.skipBlock p .check (index + 1) acceptElse place).Paired P
      (if entered then .done () m'
        else m'.skipBlock p' .check (index + 1) acceptElse place') := by
    intro entered acceptElse
    split
    · exact .done hm _
    · exact skipBlock_paired hm hplace hP hp _ _ _
  refine withLastValue_paired hP hm hplace _ fun value => ?_
  simp only [hp.loopGuard hindex]
  exact enter _ _

omit [Writer W] [LineSource I] in
omit hP in
theorem startLoop_paired (k : Keyword) (index : Nat) :
    (m.startLoop p k index place).Paired P (m'.startLoop p' k index place') := by
  unfold startLoop
  rcases hp.node (index + 1) with h | ⟨h, hlenient⟩
  · rcases hp.node (index + 2) with h' | ⟨h', hlenient⟩
    · rw [h, h']
      split
      · split
        · exact .fault hm hplace _
        · exact .done hm _
      · exact .fault hm hplace _
    · -- without a `check` the first run fails, whatever the condition is
      rw [h']
      split
      · rename_i hcheck
        cases hcheck
      · exact .excused (hlenient _) _
  · rw [h]
    exact .excused (hlenient _) _

theorem closeBlock_paired {index : Nat} (hindex : index < p.length) :
    (m.closeBlock p index place).Paired P (m'.closeBlock p' index place') := by
  simp only [closeBlock, hp.enclosing false hindex]
  split
  · exact .fault hm hplace _
  · exact .done hm _
  · exact .done (hP.jump hm _) _
  · exact (giveBack_paired hP hm hplace 0).andThen fun _ _ _ hm => .done hm _

theorem leave_paired {index : Nat} (hindex : index < p.length) :
    (m.leave p index place).Paired P (m'.leave p' index place') := by
  simp only [leave, hp.enclosing true hindex]
  split
  · exact .fault hm hplace _
  · exact .done hm _
  · exact skipBlock_paired hm hplace hP hp _ _ _
  · exact (giveBack_paired hP hm hplace 0).andThen fun _ _ _ hm => .done hm _

theorem find_paired : (m.find p place).Paired P (m'.find p' place') := by
  refine withLastValue_paired hP hm hplace _ fun value => ?_
  split
  · exact .fault hm hplace _
  · exact .done (hP.halt hm) _
  · rename_i n _ _
    rcases hp.label n with h | ⟨h, hlenient⟩
    · rw [h]
      split
      · exact .done (hP.jump hm _) _
      · rcases hp.labelCount with hlenient | hcount
        · exact .excused (hlenient _) _
        · rw [hcount]
          exact .fault hm hplace _
    · rw [h]
      exact .excused (hlenient _) _

theorem keyword_paired (k : Keyword) {index : Nat} (hindex : index < p.length) :
    (m.keyword p k index place).Paired P (m'.keyword p' k index place') := by
  cases k with
  | print => exact print_paired hP hm hplace
  | send => exact withLastValue_paired hP hm hplace _ fun value => write_paired hP hm hplace _
  | scroll => exact write_paired hP hm hplace _
  | save =>
    refine withLastValue_paired hP hm hplace _ fun value => ?_
    simp only [push, State.push, hP.stack hm]
    exact .done (hP.setStack hm _) _
  | load => exact (pop_paired hP hm hplace).andThen fun _ _ _ hm => .done hm _
  | change => exact .done hm _
  | write =>
    refine withLastValue_paired hP hm hplace _ fun value => ?_
    exact withVariable_paired hm hplace hP hp _ _ fun name _ _ hm => .done (hP.assign hm _ _) _
  | scan =>
    simp only [keyword]
    exact withVariable_paired hm hplace hP hp _ _ fun name _ _ hm => scan_paired hP hm hplace _
  | press =>
    simp only [keyword]
    exact withVariable_paired hm hplace hP hp _ _ fun name _ _ hm => press_paired hP hm hplace _
  | burn => exact .done (hP.halt hm) _
  | check => exact check_paired hm hplace hP hp hindex
  | fix => exact skipBlock_paired hm hplace hP hp _ _ _
  | jam => exact skipBlock_paired hm hplace hP hp _ _ _
  | lock => exact startLoop_paired hm hplace hp _ _
  | start => exact startLoop_paired hm hplace hp _ _
  | «break» => exact closeBlock_paired hm hplace hP hp hindex
  | leave => exact leave_paired hm hplace hP hp hindex
  | find => exact find_paired hm hplace hP hp

theorem define_paired (name : String) (parameters : List String) (index : Nat) :
    (m.define p name parameters index place).Paired P
      (m'.define p' name parameters index place') := by
  unfold define
  rcases hp.closing (index + 1) false with h | ⟨h, hlenient⟩
  · rw [h]
    split
    · exact .fault hm hplace _
    · exact .done (hP.define hm _ _ _) _
  · rw [h]
    exact .excused (hlenient _) _

end Instructions

/-! ## Evaluation and execution -/

/-- With some fuel, evaluation and execution are paired. Instructions are compared only where one is
executed: in a program that has not ended itself, at a place within it. -/
structure InStep (P : Pairing W I) (setup setup' : Setup) (fuel : Nat) : Prop where
  eval : ∀ node {place place' m m'}, P.place place place' → P.machine m m' →
    (Machine.eval setup fuel node place m).Paired P (Machine.eval setup' fuel node place' m')
  evalArguments : ∀ nodes {place place' m m'}, P.place place place' → P.machine m m' →
    (Machine.evalArguments setup fuel nodes place m).Paired P
      (Machine.evalArguments setup' fuel nodes place' m')
  call : ∀ name nodes {place place' m m'}, P.place place place' → P.machine m m' →
    (Machine.call setup fuel name nodes place m).Paired P
      (Machine.call setup' fuel name nodes place' m')
  runUntil : ∀ depth name {place place' m m'}, P.place place place' → P.machine m m' →
    (Machine.runUntil setup fuel depth name place m).Paired P
      (Machine.runUntil setup' fuel depth name place' m')
  step : ∀ {m m'}, P.machine m m' → m.state.halted = false →
    m.state.pointer < setup.program.length →
    (Machine.step setup fuel m).Paired P (Machine.step setup' fuel m')

theorem inStep_zero (P : Pairing W I) (setup setup' : Setup) : InStep P setup setup' 0 where
  eval _ _ _ _ _ _ _ := by rw [Machine.eval, Machine.eval]; rfl
  evalArguments _ _ _ _ _ _ _ := by rw [Machine.evalArguments, Machine.evalArguments]; rfl
  call _ _ _ _ _ _ _ _ := by rw [Machine.call, Machine.call]; rfl
  runUntil _ _ _ _ _ _ _ _ := by rw [Machine.runUntil, Machine.runUntil]; rfl
  step _ _ _ := by rw [Machine.step, Machine.step]; rfl

section Succ

variable {P : Pairing W I} {setup setup' : Setup} (h : Lockstep P setup setup') {fuel : Nat}
  (ih : InStep P setup setup' fuel) {m m' : Machine W I} (hm : P.machine m m')
include h ih hm

theorem eval_paired (node : Node) {place place' : Position} (hplace : P.place place place') :
    (eval setup (fuel + 1) node place m).Paired P (eval setup' (fuel + 1) node place' m') := by
  cases node with
  | number value => simp only [eval]; exact .done hm _
  | «variable» name =>
    simp only [eval, h.machines.lookup hm]
    split
    · exact .done hm _
    · exact .fault hm hplace _
  | binary op left right =>
    simp only [eval]
    refine (ih.eval left hplace hm).andThen fun a m m' hm => ?_
    refine (ih.eval right hplace hm).andThen fun b m m' hm => ?_
    split
    · exact .done hm _
    · exact .fault hm hplace _
  | unary op operand =>
    simp only [eval]
    refine (ih.eval operand hplace hm).andThen fun value m m' hm => ?_
    exact applyUnary_paired h.machines hm hplace op value
  | call name nodes =>
    simp only [eval]
    exact ih.call name nodes hplace hm
  | pop =>
    simp only [eval]
    exact pop_paired h.machines hm hplace
  | keyword k => simp only [eval]; exact .fault hm hplace _
  | label => simp only [eval]; exact .fault hm hplace _
  | define name parameters => simp only [eval]; exact .fault hm hplace _

omit h in
theorem evalArguments_paired (nodes : List Node) {place place' : Position}
    (hplace : P.place place place') :
    (evalArguments setup (fuel + 1) nodes place m).Paired P
      (evalArguments setup' (fuel + 1) nodes place' m') := by
  cases nodes with
  | nil => simp only [evalArguments]; exact .done hm _
  | cons node rest =>
    simp only [evalArguments]
    refine (ih.eval node hplace hm).andThen fun value m m' hm => ?_
    exact (ih.evalArguments rest hplace hm).andThen fun values m m' hm => .done hm _

theorem call_paired (name : String) (nodes : List Node) {place place' : Position}
    (hplace : P.place place place') :
    (call setup (fuel + 1) name nodes place m).Paired P
      (call setup' (fuel + 1) name nodes place' m') := by
  have hfunctions := h.machines.functions hm
  have hdepth := h.machines.depth hm
  cases hknown : m.state.functions.get? name with
  | none =>
    simp only [call, hfunctions, hknown]
    exact .fault hm hplace _
  | some entry =>
    have hknown' : m'.state.functions.get? name = some entry := by rw [hfunctions, hknown]
    by_cases hcount : entry.parameters.length = nodes.length
    · by_cases hroom : m.state.frames.length < setup.depthLimit
      · have hroom' : m'.state.frames.length < setup'.depthLimit := by
          have := h.limit_le
          omega
        rw [call_admitted ⟨hknown, hcount, hroom⟩, call_admitted ⟨hknown', hcount, hroom'⟩, hdepth]
        refine (ih.evalArguments nodes hplace hm).andThen fun values m₁ m₁' hm₁ => ?_
        refine (ih.runUntil _ name hplace (h.machines.enter hm₁ name entry values)).andThen
          fun _ m₂ m₂' hm₂ => ?_
        rw [h.machines.lastReturn hm₂]
        exact .done hm₂ _
      · rw [call_refused hknown hcount (by omega)]
        rcases h.limit with hexcused | hlimit
        · exact .excused hexcused _
        · rw [call_refused hknown' hcount (by omega), hlimit]
          exact .fault hm hplace _
    · simp only [call, hknown, hknown']
      rw [if_pos hcount, if_pos hcount]
      exact .fault hm hplace _

theorem runUntil_paired (depth : Nat) (name : String) {place place' : Position}
    (hplace : P.place place place') :
    (runUntil setup (fuel + 1) depth name place m).Paired P
      (runUntil setup' (fuel + 1) depth name place' m') := by
  have hdepth := h.machines.depth hm
  have hhalted := h.machines.halted hm
  by_cases hframes : depth < m.state.frames.length
  · cases hlive : m.state.halted with
    | true =>
      simp only [runUntil, hdepth, hhalted, hlive, ↓reduceIte]
      split <;> exact .done hm _
    | false =>
      have hpointer := h.machines.pointer hm hlive
      by_cases hend : m.state.pointer < setup.program.length
      · have hend' : m'.state.pointer < setup'.program.length := by
          have := h.programs.length_le
          omega
        rw [runUntil_active hframes hlive hend,
          runUntil_active (by omega) (hhalted.trans hlive) hend']
        refine (ih.step hm hlive hend).andThen fun _ m₁ m₁' hm₁ => ?_
        exact ih.runUntil depth name hplace hm₁
      · simp only [runUntil, hdepth, hhalted, hlive, hpointer]
        rw [if_neg (by omega), if_neg (by simp), if_pos (by omega), if_neg (by omega),
          if_neg (by simp)]
        rcases h.programs.length with hlenient | hlength
        · exact .excused (hlenient _) _
        · rw [if_pos (by omega)]
          exact .fault hm hplace _
  · simp only [runUntil]
    rw [if_pos (by omega), if_pos (by omega)]
    exact .done hm _

theorem step_paired (hlive : m.state.halted = false)
    (hend : m.state.pointer < setup.program.length) :
    (step setup (fuel + 1) m).Paired P (step setup' (fuel + 1) m') := by
  have hpointer := h.machines.pointer hm hlive
  obtain ⟨⟨node, place⟩, hi⟩ : ∃ instruction, setup.program[m.state.pointer]? = some instruction :=
    ⟨_, List.getElem?_eq_getElem hend⟩
  obtain ⟨place', hi', hplace⟩ := h.programs.fetch hi
  have hmoved := h.machines.jump hm (m.state.pointer + 1)
  simp only [step, hi, hi', hpointer]
  split
  · refine withLastValue_paired h.machines hmoved hplace _ fun value => ?_
    refine withOperand_paired hmoved hplace h.machines h.programs _ _ fun operand m m' hm => ?_
    refine (ih.eval operand hplace hm).andThen fun i m m' hm => ?_
    exact overwrite_paired h.machines hm hplace i value
  · exact keyword_paired hmoved hplace h.machines h.programs _ hend
  · exact .done hmoved _
  · exact define_paired hmoved hplace h.machines h.programs _ _ _
  · refine (ih.eval node hplace hmoved).andThen fun value m m' hm => ?_
    exact .done (h.machines.setLastValue hm value) _

end Succ

end Machine

namespace Lockstep

variable {P : Pairing W I} {setup setup' : Setup}

theorem inStep (h : Lockstep P setup setup') (fuel : Nat) : Machine.InStep P setup setup' fuel := by
  induction fuel with
  | zero => exact Machine.inStep_zero P setup setup'
  | succ fuel ih =>
    exact ⟨fun node _ _ _ _ hplace hm => Machine.eval_paired h ih hm node hplace,
      fun nodes _ _ _ _ hplace hm => Machine.evalArguments_paired ih hm nodes hplace,
      fun name nodes _ _ _ _ hplace hm => Machine.call_paired h ih hm name nodes hplace,
      fun depth name _ _ _ _ hplace hm => Machine.runUntil_paired h ih hm depth name hplace,
      fun hm hlive hend => Machine.step_paired h ih hm hlive hend⟩

/-- Runs of programs of one length keep pace to their end. -/
theorem run (h : Lockstep P setup setup') (hlength : setup'.program.length = setup.program.length)
    (hflush : ∀ {m m'}, P.machine m m' →
      P.place (setup.program.position m.state.pointer) (setup'.program.position m'.state.pointer))
    (fuel : Nat) {m m' : Machine W I} (hm : P.machine m m') :
    (Machine.run setup fuel m).Paired P (Machine.run setup' fuel m') := by
  induction fuel generalizing m m' with
  | zero => rw [Machine.run, Machine.run]; rfl
  | succ fuel ih =>
    have hhalted := h.machines.halted hm
    have hfinished : m'.isFinished setup' = m.isFinished setup := by
      cases hlive : m.state.halted with
      | true => simp only [Machine.isFinished, hhalted, hlive, Bool.true_or]
      | false =>
        simp only [Machine.isFinished, hhalted, hlive, hlength, h.machines.pointer hm hlive]
    cases hf : m.isFinished setup with
    | true =>
      simp only [Machine.run, hfinished, hf, ↓reduceIte]
      exact Machine.flush_paired h.machines hm (hflush hm)
    | false =>
      have hactive : m.state.halted = false ∧ m.state.pointer < setup.program.length := by
        simpa [Machine.isFinished] using hf
      rw [Machine.run_active hf, Machine.run_active (hfinished.trans hf)]
      exact ((h.inStep fuel).step hm hactive.1 hactive.2).andThen fun _ _ _ hm₁ => ih hm₁

end Lockstep

/-! ## Runs on one machine -/

/-- A line is read alike where the channels are the same. -/
theorem Machine.readLine_paired {P : Pairing W I} {m m' : Machine W I}
    (hsink : m'.sink = m.sink) (hinput : m'.input = m.input)
    (hrest : ∀ input sink,
      P.machine { m with input := input, sink := sink } { m' with input := input, sink := sink })
    {place place' : Position} (hplace : P.place place place') :
    (m.readLine place).Paired P (m'.readLine place') := by
  unfold Machine.readLine Machine.flush Machine.onSink
  rw [hsink]
  cases (Writer.flush m.sink).1 with
  | none =>
    simp only [Outcome.andThen, hinput]
    split
    · exact .fault (hrest _ _) hplace _
    · exact .fault (hrest _ _) hplace _
    · exact .done (hrest _ _) _
  | some fault =>
    have hm := hrest m.input (Writer.flush m.sink).2
    exact .fault (by simpa only [hinput] using hm) hplace _

namespace Pairing

/-- Corresponding machines are the same. -/
def onOne (place : Position → Position → Prop) (excused : Fault → Prop) : Pairing W I where
  place := place
  machine m m' := m' = m
  excused := excused

theorem machines_onOne (place : Position → Position → Prop) (excused : Fault → Prop)
    (length : Nat) : (onOne place excused : Pairing W I).Machines length length where
  lookup := by rintro _ _ rfl _; rfl
  lastValue := by rintro _ _ rfl; rfl
  lastReturn := by rintro _ _ rfl; rfl
  stack := by rintro _ _ rfl; rfl
  functions := by rintro _ _ rfl; rfl
  depth := by rintro _ _ rfl; rfl
  halted := by rintro _ _ rfl; rfl
  pointer := by rintro _ _ rfl _; rfl
  sink := by rintro _ _ rfl; rfl
  jump := by rintro _ _ rfl _; rfl
  setStack := by rintro _ _ rfl _; rfl
  setLastValue := by rintro _ _ rfl _; rfl
  setSink := by rintro _ _ rfl _; rfl
  assign := by rintro _ _ rfl _ _; rfl
  halt := by rintro _ _ rfl; rfl
  giveBack := by
    rintro m _ frame frame' rest rest' rfl value hf hf'
    cases hf.symm.trans hf'
    rfl
  define := by rintro _ _ rfl _ _ _; rfl
  enter := by rintro _ _ rfl _ _ _; rfl
  readLine := by
    rintro m _ place place' rfl hplace
    exact Machine.readLine_paired rfl rfl (fun _ _ => rfl) hplace

omit [Writer W] [LineSource I] in
theorem Programs.refl {P : Pairing W I} (hplace : ∀ place, P.place place place) (p : Program) :
    P.Programs p p where
  fetch hi := ⟨_, hi, hplace _⟩
  length_le := Nat.le_refl _
  length := .inr rfl
  closing _ _ := .inl rfl
  enclosing _ _ := rfl
  loopGuard _ := rfl
  label _ := .inl rfl
  labelCount := .inr rfl

end Pairing
end VerbScript
