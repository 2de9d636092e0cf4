import VerbScript.Proofs.Effect
import VerbScript.Proofs.Matching

/-!
# VerbScript.Proofs.Preservation

Relations between the machine before and the machine after, for results and faults alike.

Every instruction is made of a few small changes of the machine. A relation that is reflexive and
transitive and holds across each of these changes holds across every evaluation, call and run.

* `Outcome.Leaves P o`: the machine that `o` leaves satisfies `P`. It goes through `andThen`.
* `Quiet p R`: `R` holds across the changes of the instructions that neither end the program nor
  give back a value. `Closed p R`: it holds across the others too.
* `Closed.preserves`: what is closed in this sense is kept by evaluation and execution, with
  `Closed.run` for whole runs. All of it is one induction on the fuel.
-/

namespace VerbScript

variable {W I : Type}

/-- The machine that the outcome leaves satisfies `P`, after a result and after a fault. -/
def Outcome.Leaves {α : Type} (P : Machine W I → Prop) : Outcome α W I → Prop
  | .done _ m => P m
  | .fault _ m => P m
  | .cutOff => True

theorem Outcome.Leaves.andThen {α β : Type} {P Q : Machine W I → Prop} {o : Outcome α W I}
    {next : α → Machine W I → Outcome β W I} (h : o.Leaves P) (hPQ : ∀ m, P m → Q m)
    (hnext : ∀ value m, P m → (next value m).Leaves Q) : (o.andThen next).Leaves Q := by
  cases o with
  | done value m => exact hnext value m h
  | fault cause m => exact hPQ m h
  | cutOff => trivial

theorem Outcome.Leaves.mono {α : Type} {P Q : Machine W I → Prop} {o : Outcome α W I} (h : o.Leaves P)
    (hPQ : ∀ m, P m → Q m) : o.Leaves Q := by
  cases o with
  | done value m => exact hPQ m h
  | fault cause m => exact hPQ m h
  | cutOff => trivial

namespace Program

theorem lt_of_node? {p : Program} {i : Nat} {node : Node} (h : p.node? i = some node) :
    i < p.length := by
  obtain ⟨instruction, hi, -⟩ := Option.map_eq_some_iff.1 h
  exact (List.getElem?_eq_some_iff.1 hi).1

theorem closing?_bounds {p : Program} {acceptElse : Bool} {start target : Nat}
    (h : p.closing? start acceptElse = some target) : start ≤ target ∧ target < p.length := by
  obtain ⟨hle, -, role, hrole, -⟩ := closing?_eq_some_iff.1 h
  obtain ⟨instruction, hi, -⟩ := role?_eq_some_iff.1 hrole
  exact ⟨hle, (List.getElem?_eq_some_iff.1 hi).1⟩

theorem lt_of_loopGuard? {p : Program} {check guard : Nat} {untilLoop : Bool}
    (h : p.loopGuard? check = some (guard, untilLoop)) : guard < p.length := by
  unfold loopGuard? at h
  split at h
  · split at h
    · rename_i k hk
      split at h
      · cases h; exact lt_of_node? hk
      · cases h
    · cases h
  · cases h

theorem loopGuard?_of_opened {p : Program} {index guard check : Nat} {node : Node}
    {untilLoop : Bool} (h : p.opened index node = .loop guard check untilLoop) :
    p.loopGuard? check = some (guard, untilLoop) := by
  unfold opened at h
  split at h
  · cases h
  · split at h
    · rename_i hg
      cases h
      exact hg
    · cases h

/-- Only a loop keyword makes the scan find a loop. -/
theorem loopGuard?_of_enclosing? {p : Program} {skipConditionals : Bool} {index guard check : Nat}
    {untilLoop : Bool} (h : p.enclosing? index skipConditionals = some (.loop guard check untilLoop)) :
    p.loopGuard? check = some (guard, untilLoop) := by
  have scan : ∀ (before : List (Located Node)) (depth : Nat),
      enclosingBefore? p skipConditionals depth before = some (.loop guard check untilLoop) →
      p.loopGuard? check = some (guard, untilLoop) := by
    intro before
    induction before with
    | nil => intro depth h; cases h
    | cons instruction before ih =>
      intro depth h
      simp only [enclosingBefore?] at h
      split at h
      · exact ih _ h
      · split at h
        · exact ih _ h
        · split at h
          · split at h
            · exact ih _ h
            · cases h
          · exact loopGuard?_of_opened (Option.some.inj h)
      · exact ih _ h
  exact scan _ _ h

theorem lt_of_enclosing?_loop {p : Program} {skipConditionals : Bool} {index guard check : Nat}
    {untilLoop : Bool} (h : p.enclosing? index skipConditionals = some (.loop guard check untilLoop)) :
    guard < p.length :=
  lt_of_loopGuard? (loopGuard?_of_enclosing? h)

theorem lt_of_label? {p : Program} {n i : Nat} (h : p.label? n = some i) : i < p.length := by
  have scan : ∀ (l : List (Located Node)) (skipped i : Nat),
      labelOffset? skipped l = some i → i < l.length := by
    intro l
    induction l with
    | nil => intro skipped i h; cases h
    | cons instruction rest ih =>
      intro skipped i h
      have later : ∀ skipped, (labelOffset? skipped rest).map (· + 1) = some i →
          i < (instruction :: rest).length := by
        intro skipped h
        obtain ⟨j, hj, rfl⟩ := Option.map_eq_some_iff.1 h
        exact Nat.succ_lt_succ (ih _ _ hj)
      simp only [labelOffset?] at h
      split at h
      · split at h
        · cases h; exact Nat.succ_pos _
        · exact later _ h
      · exact later _ h
  cases n with
  | zero => cases h
  | succ n => exact scan p n i h

end Program

/-- The keyword neither ends the program nor gives back a value. -/
def Keyword.isQuiet : Keyword → Bool
  | .burn | .find | .break | .leave => false
  | _ => true

namespace Machine

/-- A request to the sink leaves what it made of the sink, whether it failed or not. -/
theorem onSink_leaves {P : Machine W I → Prop} {m : Machine W I}
    {request : Option ChannelFault × W} (h : P { m with sink := request.2 }) (place : Position) :
    (m.onSink request place).Leaves P := by
  unfold onSink
  split
  · exact h
  · exact h

variable [Writer W] [LineSource I]

/-- The relation holds across what quiet instructions are made of. -/
structure Quiet (p : Program) (R : Machine W I → Machine W I → Prop) : Prop where
  refl : ∀ m, R m m
  trans : ∀ {m₁ m₂ m₃}, R m₁ m₂ → R m₂ m₃ → R m₁ m₃
  jump : ∀ {m target}, target ≤ p.length → R m (m.jump target)
  stack : ∀ m stack, R m { m with state := { m.state with stack := stack } }
  lastValue : ∀ m value, R m (m.setLastValue value)
  written : ∀ m text, R m { m with sink := (Writer.write m.sink text).2 }
  flushed : ∀ m, R m { m with sink := (Writer.flush m.sink).2 }
  read : ∀ m, R m { m with input := (LineSource.nextLine m.input).2 }
  assign : ∀ m name value, R m (m.assign name value)

/-- The relation holds across everything that instructions are made of. A function is entered by the
entry that was found before its arguments were evaluated. -/
structure Closed (p : Program) (R : Machine W I → Machine W I → Prop) : Prop extends Quiet p R where
  halt : ∀ m, R m (m.halt p.length)
  giveBack : ∀ {m frame rest} value, m.state.frames = frame :: rest →
    R m { m with state := { m.state with
      frames := rest, pointer := frame.returnAddress, lastReturn := value } }
  define : ∀ {m name parameters index finish}, p.node? index = some (.define name parameters) →
    p.closing? (index + 1) false = some finish →
    R m { m with state := { m.state with
      functions := m.state.functions.insert name ⟨index, finish, parameters⟩
      pointer := finish + 1 } }
  enter : ∀ {m m₁ name entry} values, R m m₁ → m.state.functions.get? name = some entry →
    R m (m₁.enter name entry values)

section Quiet

variable {p : Program} {R : Machine W I → Machine W I → Prop} (hR : Quiet p R)
include hR

theorem Quiet.andThen {α β : Type} {m : Machine W I} {o : Outcome α W I}
    {next : α → Machine W I → Outcome β W I} (h : o.Leaves (R m))
    (hnext : ∀ value m₁, (next value m₁).Leaves (R m₁)) : (o.andThen next).Leaves (R m) :=
  h.andThen (fun _ h => h) fun value m₁ h => (hnext value m₁).mono fun _ h' => hR.trans h h'

theorem Quiet.withLastValue {α : Type} {m : Machine W I} {k : Keyword} {place : Position}
    {action : Number → Outcome α W I} (ha : ∀ value, (action value).Leaves (R m)) :
    (m.withLastValue k place action).Leaves (R m) := by
  unfold Machine.withLastValue
  split
  · exact ha _
  · exact hR.refl m

theorem Quiet.result (m : Machine W I) (op : BinaryOperator) (a b : Number) (place : Position) :
    (match op.result? a b with
      | some value => Outcome.done value m
      | none => .fault ⟨.divisionByZero, place⟩ m).Leaves (R m) := by
  split
  · exact hR.refl m
  · exact hR.refl m

theorem Quiet.pop (m : Machine W I) (place : Position) : (m.pop place).Leaves (R m) := by
  unfold Machine.pop
  split
  · exact hR.refl m
  · exact hR.stack m _

theorem Quiet.overwrite (m : Machine W I) (index value : Number) (place : Position) :
    (m.overwrite index value place).Leaves (R m) := by
  unfold Machine.overwrite
  split
  · exact hR.refl m
  · split
    · exact hR.stack m _
    · exact hR.refl m

theorem Quiet.writeText (m : Machine W I) (text : String) (place : Position) :
    (m.write text place).Leaves (R m) :=
  onSink_leaves (hR.written m text) place

theorem Quiet.flush (m : Machine W I) (place : Position) : (m.flush place).Leaves (R m) :=
  onSink_leaves (hR.flushed m) place

theorem Quiet.readLine (m : Machine W I) (place : Position) : (m.readLine place).Leaves (R m) := by
  refine hR.andThen (hR.flush m place) fun _ m₁ => ?_
  have hread := hR.read m₁
  simp only
  split
  · exact hread
  · exact hread
  · exact hread

theorem Quiet.withVariable (m : Machine W I) {k : Keyword} {index : Nat} {place : Position}
    {action : String → Machine W I → Outcome Unit W I}
    (ha : ∀ name m₁, (action name m₁).Leaves (R m₁)) :
    (m.withVariable p k index place action).Leaves (R m) := by
  unfold Machine.withVariable
  split
  · rename_i name hnode
    exact (ha name _).mono fun _ h => hR.trans (hR.jump (Program.lt_of_node? hnode)) h
  · exact hR.refl m

theorem Quiet.withOperand (m : Machine W I) {k : Keyword} {index : Nat} {place : Position}
    {action : Node → Machine W I → Outcome Unit W I}
    (ha : ∀ node m₁, (action node m₁).Leaves (R m₁)) :
    (m.withOperand p k index place action).Leaves (R m) := by
  unfold Machine.withOperand
  split
  · rename_i operand hnode
    split
    · exact hR.refl m
    · exact (ha operand _).mono fun _ h => hR.trans (hR.jump (Program.lt_of_node? hnode)) h
  · exact hR.refl m

theorem Quiet.skipBlock (m : Machine W I) (k : Keyword) (start : Nat) (acceptElse : Bool)
    (place : Position) : (m.skipBlock p k start acceptElse place).Leaves (R m) := by
  unfold Machine.skipBlock
  split
  · rename_i target hclose
    exact hR.jump (Program.closing?_bounds hclose).2
  · exact hR.refl m

theorem Quiet.check (m : Machine W I) (index : Nat) (place : Position) :
    (m.check p index place).Leaves (R m) := by
  have enter : ∀ entered acceptElse : Bool, (if entered then Outcome.done () m
      else m.skipBlock p .check (index + 1) acceptElse place).Leaves (R m) := by
    intro entered acceptElse
    split
    · exact hR.refl m
    · exact hR.skipBlock m _ _ _ _
  exact hR.withLastValue fun value => enter _ _

theorem Quiet.startLoop (m : Machine W I) (k : Keyword) (index : Nat) (place : Position) :
    (m.startLoop p k index place).Leaves (R m) := by
  unfold Machine.startLoop
  split
  · split
    · exact hR.refl m
    · exact hR.refl m
  · exact hR.refl m

theorem Quiet.print (m : Machine W I) (place : Position) : (m.print place).Leaves (R m) := by
  refine hR.withLastValue fun value => ?_
  split
  · exact hR.writeText m _ _
  · exact hR.refl m

theorem Quiet.scan (m : Machine W I) (name : String) (place : Position) :
    (m.scan name place).Leaves (R m) := by
  refine hR.andThen (hR.readLine m place) fun line m₁ => ?_
  split
  · exact hR.assign m₁ _ _
  · exact hR.refl m₁

theorem Quiet.press (m : Machine W I) (name : String) (place : Position) :
    (m.press name place).Leaves (R m) := by
  refine hR.andThen (hR.readLine m place) fun line m₁ => ?_
  split
  · exact hR.assign m₁ _ _
  · exact hR.assign m₁ _ _

theorem Quiet.keyword {k : Keyword} (hk : k.isQuiet = true) (m : Machine W I) (index : Nat)
    (place : Position) : (m.keyword p k index place).Leaves (R m) := by
  cases k with
  | print => exact hR.print m place
  | send => exact hR.withLastValue fun value => hR.writeText m _ _
  | scroll => exact hR.writeText m _ _
  | save => exact hR.withLastValue fun value => hR.stack m _
  | load => exact hR.andThen (hR.pop m place) fun _ m₁ => hR.refl m₁
  | change => exact hR.refl m
  | write =>
    exact hR.withLastValue fun value => hR.withVariable m fun name m₁ => hR.assign m₁ _ _
  | scan => exact hR.withVariable m fun name m₁ => hR.scan m₁ _ _
  | press => exact hR.withVariable m fun name m₁ => hR.press m₁ _ _
  | check => exact hR.check m index place
  | fix => exact hR.skipBlock m _ _ _ _
  | jam => exact hR.skipBlock m _ _ _ _
  | lock => exact hR.startLoop m _ _ _
  | start => exact hR.startLoop m _ _ _
  | burn => cases hk
  | find => cases hk
  | «break» => cases hk
  | leave => cases hk

/-- `find` jumps to a label, unless it ends the program. -/
theorem Quiet.find (m : Machine W I) (hhalt : R m (m.halt p.length)) (place : Position) :
    (m.find p place).Leaves (R m) := by
  refine hR.withLastValue fun value => ?_
  split
  · exact hR.refl m
  · exact hhalt
  · split
    · rename_i target hlabel
      exact hR.jump (Program.lt_of_label? hlabel)
    · exact hR.refl m

end Quiet

section Closed

variable {p : Program} {R : Machine W I → Machine W I → Prop} (hR : Closed p R)
include hR

theorem Closed.endCall (m : Machine W I) (value : Number) (place : Position) :
    (m.giveBack value place).Leaves (R m) := by
  unfold Machine.giveBack
  split
  · exact hR.refl m
  · exact hR.giveBack value ‹_›

theorem Closed.applyUnary (m : Machine W I) (op : UnaryOperator) (value : Number) (place : Position) :
    (m.applyUnary op value place).Leaves (R m) := by
  cases op with
  | paste => exact hR.stack m _
  | giveBack => exact hR.endCall m value place
  | negate => exact hR.refl m
  | not => exact hR.refl m

theorem Closed.closeBlock (m : Machine W I) (index : Nat) (place : Position) :
    (m.closeBlock p index place).Leaves (R m) := by
  unfold Machine.closeBlock
  split
  · exact hR.refl m
  · exact hR.refl m
  · rename_i guard check untilLoop hloop
    exact hR.jump (Nat.le_of_lt (Program.lt_of_enclosing?_loop hloop))
  · exact hR.andThen (hR.endCall m 0 place) fun _ m₁ => hR.refl m₁

theorem Closed.leave (m : Machine W I) (index : Nat) (place : Position) :
    (m.leave p index place).Leaves (R m) := by
  unfold Machine.leave
  split
  · exact hR.refl m
  · exact hR.refl m
  · exact hR.skipBlock m _ _ _ _
  · exact hR.andThen (hR.endCall m 0 place) fun _ m₁ => hR.refl m₁

theorem Closed.keyword (m : Machine W I) (k : Keyword) (index : Nat) (place : Position) :
    (m.keyword p k index place).Leaves (R m) := by
  cases hk : k.isQuiet with
  | true => exact hR.toQuiet.keyword hk m index place
  | false =>
    cases k with
    | burn => exact hR.halt m
    | find => exact hR.toQuiet.find m (hR.halt m) place
    | «break» => exact hR.closeBlock m index place
    | leave => exact hR.leave m index place
    | _ => cases hk

theorem Closed.defineFunction (m : Machine W I) {name : String} {parameters : List String}
    {index : Nat} (hnode : p.node? index = some (.define name parameters)) (place : Position) :
    (m.define p name parameters index place).Leaves (R m) := by
  unfold Machine.define
  split
  · exact hR.refl m
  · exact hR.define hnode ‹_›

end Closed

/-! ## Evaluation and execution -/

/-- The relation holds across all evaluation and execution with some fuel. -/
structure Preserves (setup : Setup) (R : Machine W I → Machine W I → Prop) (fuel : Nat) : Prop where
  eval : ∀ node place m, (Machine.eval setup fuel node place m).Leaves (R m)
  evalArguments : ∀ nodes place m, (Machine.evalArguments setup fuel nodes place m).Leaves (R m)
  call : ∀ name nodes place m, (Machine.call setup fuel name nodes place m).Leaves (R m)
  runUntil : ∀ depth name place m, (Machine.runUntil setup fuel depth name place m).Leaves (R m)
  step : ∀ m, (Machine.step setup fuel m).Leaves (R m)

theorem preserves_zero (setup : Setup) (R : Machine W I → Machine W I → Prop) :
    Preserves setup R 0 where
  eval _ _ _ := by rw [Machine.eval]; trivial
  evalArguments _ _ _ := by rw [Machine.evalArguments]; trivial
  call _ _ _ _ := by rw [Machine.call]; trivial
  runUntil _ _ _ _ := by rw [Machine.runUntil]; trivial
  step _ := by rw [Machine.step]; trivial

section Succ

variable {setup : Setup} {R : Machine W I → Machine W I → Prop}
  (hR : Closed setup.program R) {fuel : Nat} (ih : Preserves setup R fuel)
include hR ih

theorem eval_preserved (node : Node) (place : Position) (m : Machine W I) :
    (eval setup (fuel + 1) node place m).Leaves (R m) := by
  cases node with
  | number value => simp only [eval]; exact hR.refl m
  | «variable» name =>
    simp only [eval]
    split
    · exact hR.refl m
    · exact hR.refl m
  | binary op left right =>
    simp only [eval]
    refine hR.andThen (ih.eval left place m) fun a m₁ => ?_
    exact hR.andThen (ih.eval right place m₁) fun b m₂ => hR.result m₂ op a b place
  | unary op operand =>
    simp only [eval]
    exact hR.andThen (ih.eval operand place m) fun value m₁ => hR.applyUnary m₁ op value place
  | call name nodes =>
    simp only [eval]
    exact ih.call name nodes place m
  | pop =>
    simp only [eval]
    exact hR.pop m place
  | keyword k => simp only [eval]; exact hR.refl m
  | label => simp only [eval]; exact hR.refl m
  | define name parameters => simp only [eval]; exact hR.refl m

theorem evalArguments_preserved (nodes : List Node) (place : Position) (m : Machine W I) :
    (evalArguments setup (fuel + 1) nodes place m).Leaves (R m) := by
  cases nodes with
  | nil => simp only [evalArguments]; exact hR.refl m
  | cons node rest =>
    simp only [evalArguments]
    refine hR.andThen (ih.eval node place m) fun value m₁ => ?_
    exact hR.andThen (ih.evalArguments rest place m₁) fun values m₂ => hR.refl m₂

theorem call_preserved (name : String) (nodes : List Node) (place : Position) (m : Machine W I) :
    (call setup (fuel + 1) name nodes place m).Leaves (R m) := by
  simp only [call]
  split
  · exact hR.refl m
  · rename_i entry hentry
    split
    · exact hR.refl m
    · split
      · exact hR.refl m
      · -- not `hR.andThen`: that the function is entered rests on `m`, where its entry was found
        refine (ih.evalArguments nodes place m).andThen (fun _ h => h) fun values m₁ h => ?_
        refine Outcome.Leaves.mono ?_ fun _ h' => hR.trans (hR.enter values h hentry) h'
        exact hR.andThen (ih.runUntil _ name place _) fun _ m₂ => hR.refl m₂

theorem runUntil_preserved (depth : Nat) (name : String) (place : Position) (m : Machine W I) :
    (runUntil setup (fuel + 1) depth name place m).Leaves (R m) := by
  simp only [runUntil]
  split
  · exact hR.refl m
  · split
    · exact hR.refl m
    · split
      · exact hR.refl m
      · have hs := ih.step m
        split
        · rename_i m₁ heq
          rw [heq] at hs
          exact (ih.runUntil depth name place m₁).mono fun _ h => hR.trans hs h
        · rename_i heq
          rw [heq] at hs
          exact hs
        · trivial

theorem step_preserved (m : Machine W I) : (step setup (fuel + 1) m).Leaves (R m) := by
  simp only [step]
  split
  · exact hR.refl m
  · rename_i node place hi
    have hnode : setup.program.node? m.state.pointer = some node := by
      rw [Program.node?, hi]; rfl
    have hmoved : R m (m.jump (m.state.pointer + 1)) := hR.jump (Program.lt_of_node? hnode)
    refine Outcome.Leaves.mono ?_ fun _ h => hR.trans hmoved h
    split
    · refine hR.withLastValue fun value => hR.withOperand _ fun operand m₁ => ?_
      exact hR.andThen (ih.eval operand place m₁) fun i m₂ => hR.overwrite m₂ i value place
    · exact hR.keyword _ _ _ _
    · exact hR.refl _
    · exact hR.defineFunction _ hnode place
    · exact hR.andThen (ih.eval node place _) fun value m₁ => hR.lastValue m₁ value

end Succ

theorem Closed.preserves {setup : Setup} {R : Machine W I → Machine W I → Prop}
    (hR : Closed setup.program R) (fuel : Nat) : Preserves setup R fuel := by
  induction fuel with
  | zero => exact preserves_zero setup R
  | succ fuel ih =>
    exact ⟨eval_preserved hR ih, evalArguments_preserved hR ih, call_preserved hR ih,
      runUntil_preserved hR ih, step_preserved hR ih⟩

theorem Closed.run {setup : Setup} {R : Machine W I → Machine W I → Prop} (hR : Closed setup.program R)
    (fuel : Nat) (m : Machine W I) : (run setup fuel m).Leaves (R m) := by
  induction fuel generalizing m with
  | zero => rw [Machine.run]; trivial
  | succ fuel ih =>
    simp only [Machine.run]
    split
    · exact hR.flush m _
    · have hs := (hR.preserves fuel).step m
      split
      · rename_i m₁ heq
        rw [heq] at hs
        exact (ih m₁).mono fun _ h => hR.trans hs h
      · rename_i heq
        rw [heq] at hs
        exact hs
      · trivial

end Machine
end VerbScript
