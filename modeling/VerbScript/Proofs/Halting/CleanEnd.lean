import VerbScript.Proofs.Halting.Frames
import VerbScript.Proofs.Halting.Settles
import VerbScript.Proofs.Preservation
import VerbScript.Proofs.ReturnValue

/-!
# VerbScript.Proofs.Halting.CleanEnd

Programs that end themselves without a fault.

* `Program.EndsCleanly`: in no expression is anything left after a call that could fault.
* `Machine.faultsLive`: in such a program a fault always comes before the program has ended itself.
* `Activity.burn_ends_run`: the run of a program that ends itself ends, and here it ends normally.
  `Activity.burn_ends_in_fault`: in general it does not.
-/

namespace VerbScript

variable {W I : Type}

namespace Node

/-- Whether the expression has a value in every machine. -/
def isSure : Node → Bool
  | .number _ => true
  | .binary op left right => !op.needsDivisor && left.isSure && right.isSure
  | .unary op operand => op != .giveBack && operand.isSure
  | _ => false

mutual

/-- Whether nothing that could fault is evaluated after a call in the expression. -/
def endsCleanly : Node → Bool
  | .binary op left right =>
    left.endsCleanly && right.endsCleanly &&
      (left.callNesting == 0 || (right.isSure && !op.needsDivisor)) &&
      (right.callNesting == 0 || !op.needsDivisor)
  | .unary _ operand => operand.endsCleanly
  | .call _ arguments => argumentsEndCleanly arguments
  | _ => true

def argumentsEndCleanly : List Node → Bool
  | [] => true
  | node :: rest =>
    node.endsCleanly && argumentsEndCleanly rest && (node.callNesting == 0 || rest.all isSure)

end

end Node

/-- In no expression of the program could anything fault after a call. An index is tested after it
has been evaluated, so that no call may stand in it. -/
structure Program.EndsCleanly (p : Program) : Prop where
  expressions : ∀ instruction ∈ p, instruction.value.endsCleanly = true
  indices : ∀ i operand, p.node? i = some (.keyword .change) → p.node? (i + 1) = some operand →
    operand.callNesting = 0

namespace Machine

theorem result_ne_fault {op : BinaryOperator} (h : op.needsDivisor = false) {a b : Number}
    {place : Position} {m m' : Machine W I} {cause : Located Fault} :
    (match op.result? a b with
      | some value => Outcome.done value m
      | none => .fault ⟨.divisionByZero, place⟩ m) ≠ .fault cause m' := by
  simp [BinaryOperator.result?, h]

theorem giveBack_eq_fault {m m' : Machine W I} {value : Number} {place : Position}
    {cause : Located Fault} (h : m.giveBack value place = .fault cause m') :
    m' = m ∧ m.state.frames = [] := by
  unfold giveBack at h
  split at h
  · cases h; exact ⟨rfl, ‹_›⟩
  · cases h

theorem skipBlock_eq_fault {m m' : Machine W I} {p : Program} {k : Keyword} {start : Nat}
    {acceptElse : Bool} {place : Position} {cause : Located Fault}
    (h : m.skipBlock p k start acceptElse place = .fault cause m') : m' = m := by
  unfold skipBlock at h
  split at h
  · cases h
  · cases h; rfl

variable [Writer W] [LineSource I]

theorem eval_sure {setup : Setup} {place : Position} {cause : Located Fault} {m' : Machine W I} :
    ∀ (fuel : Nat) (node : Node) (m : Machine W I), node.isSure = true →
      eval setup fuel node place m ≠ .fault cause m' := by
  intro fuel
  induction fuel with
  | zero => intro node m _ h; simp [eval] at h
  | succ fuel ih =>
    intro node m hsure h
    cases node with
    | number value => simp only [eval] at h; cases h
    | binary op left right =>
      simp only [Node.isSure, Bool.and_eq_true, Bool.not_eq_true'] at hsure
      obtain ⟨⟨hop, hl⟩, hr⟩ := hsure
      simp only [eval] at h
      rcases Outcome.andThen_eq_fault h with h | ⟨a, m₁, -, h⟩
      · exact ih left m hl h
      · rcases Outcome.andThen_eq_fault h with h | ⟨b, m₂, -, h⟩
        · exact ih right m₁ hr h
        · exact result_ne_fault hop h
    | unary op operand =>
      simp only [Node.isSure, Bool.and_eq_true, bne_iff_ne] at hsure
      simp only [eval] at h
      rcases Outcome.andThen_eq_fault h with h | ⟨a, m₁, -, h⟩
      · exact ih operand m hsure.2 h
      · cases op with
        | giveBack => exact hsure.1 rfl
        | _ => cases h
    | _ => cases hsure

theorem evalArguments_sure {setup : Setup} {place : Position} {cause : Located Fault}
    {m' : Machine W I} : ∀ (fuel : Nat) (nodes : List Node) (m : Machine W I),
      nodes.all Node.isSure = true → evalArguments setup fuel nodes place m ≠ .fault cause m' := by
  intro fuel
  induction fuel with
  | zero => intro nodes m _ h; simp [evalArguments] at h
  | succ fuel ih =>
    intro nodes m hsure h
    cases nodes with
    | nil => simp only [evalArguments] at h; cases h
    | cons node rest =>
      simp only [List.all_cons, Bool.and_eq_true] at hsure
      simp only [evalArguments] at h
      rcases Outcome.andThen_eq_fault h with h | ⟨value, m₁, -, h⟩
      · exact eval_sure fuel node m hsure.1 h
      · rcases Outcome.andThen_eq_fault h with h | ⟨values, m₂, -, h⟩
        · exact ih rest m₁ hsure.2 h
        · cases h

/-! ### Faults come before the end -/

theorem quiet_halted (p : Program) :
    Quiet p fun m m' : Machine W I => m'.state.halted = m.state.halted where
  refl _ := rfl
  trans h h' := h'.trans h
  jump _ := rfl
  stack _ _ := rfl
  lastValue _ _ := rfl
  written _ _ := rfl
  flushed _ := rfl
  read _ := rfl
  assign m name value := assign_halted m name value

theorem keyword_fault_halted {m m' : Machine W I} {p : Program} {k : Keyword} {index : Nat}
    {place : Position} {cause : Located Fault} (h : m.keyword p k index place = .fault cause m') :
    m'.state.halted = m.state.halted := by
  cases hk : k.isQuiet with
  | true =>
    have hleaves := (quiet_halted p).keyword hk m index place
    rw [h] at hleaves
    exact hleaves
  | false =>
    cases k with
    | burn => cases h
    | find =>
      simp only [keyword, find, withLastValue] at h
      split at h
      · split at h
        · cases h; rfl
        · cases h
        · split at h
          · cases h
          · cases h; rfl
      · cases h; rfl
    | «break» =>
      simp only [keyword, closeBlock] at h
      split at h
      · cases h; rfl
      · cases h
      · cases h
      · rcases Outcome.andThen_eq_fault h with h | ⟨a, m₁, -, h⟩
        · rw [(giveBack_eq_fault h).1]
        · cases h
    | leave =>
      simp only [keyword, leave] at h
      split at h
      · cases h; rfl
      · cases h
      · rw [skipBlock_eq_fault h]
      · rcases Outcome.andThen_eq_fault h with h | ⟨a, m₁, -, h⟩
        · rw [(giveBack_eq_fault h).1]
        · cases h
    | _ => cases hk

/-- A fault leaves a machine whose program has not ended itself. -/
structure FaultsLive (W I : Type) [Writer W] [LineSource I] (setup : Setup) (fuel : Nat) : Prop where
  eval : ∀ {node place cause} {m m' : Machine W I}, node.returnsOutermost = true →
    node.endsCleanly = true → Machine.eval setup fuel node place m = .fault cause m' →
    m.state.halted = false → m'.state.halted = false
  evalArguments : ∀ {nodes place cause} {m m' : Machine W I}, Node.allReturnFree nodes = true →
    Node.argumentsEndCleanly nodes = true →
    Machine.evalArguments setup fuel nodes place m = .fault cause m' → m.state.halted = false →
    m'.state.halted = false
  call : ∀ {name nodes place cause} {m m' : Machine W I}, Node.allReturnFree nodes = true →
    Node.argumentsEndCleanly nodes = true →
    Machine.call setup fuel name nodes place m = .fault cause m' → m.state.halted = false →
    m'.state.halted = false
  runUntil : ∀ {depth name place cause} {m m' : Machine W I},
    Machine.runUntil setup fuel depth name place m = .fault cause m' → m.state.halted = false →
    m'.state.halted = false
  step : ∀ {cause} {m m' : Machine W I}, Machine.step setup fuel m = .fault cause m' →
    m.state.halted = false → m'.state.halted = false

theorem faultsLive_zero (setup : Setup) : FaultsLive W I setup 0 where
  eval _ _ h := by simp [Machine.eval] at h
  evalArguments _ _ h := by simp [Machine.evalArguments] at h
  call _ _ h := by simp [Machine.call] at h
  runUntil h := by simp [Machine.runUntil] at h
  step h := by simp [Machine.step] at h

theorem runUntil_halted_ne_fault {setup : Setup} {fuel depth : Nat} {name : String}
    {place : Position} {m m' : Machine W I} {cause : Located Fault} (hm : m.state.halted = true) :
    runUntil setup fuel depth name place m ≠ .fault cause m' := by
  cases fuel with
  | zero => intro h; simp [runUntil] at h
  | succ fuel =>
    rw [runUntil_halted setup depth name place hm]
    intro h
    cases h

section

variable {setup : Setup} (hp : setup.program.ReturnsOutermost) (hc : setup.program.EndsCleanly)
  {fuel : Nat} (ih : FaultsLive W I setup fuel)
include ih

theorem binary_faultsLive {op : BinaryOperator} {left right : Node} {place : Position}
    {m m' : Machine W I} {cause : Located Fault} (hl : left.returnFree = true)
    (hr : right.returnFree = true) (hclean : (Node.binary op left right).endsCleanly = true)
    (h : eval setup (fuel + 1) (.binary op left right) place m = .fault cause m')
    (hm : m.state.halted = false) :
    m'.state.halted = false := by
  simp only [Node.endsCleanly, Bool.and_eq_true, Bool.or_eq_true, beq_iff_eq,
    Bool.not_eq_true'] at hclean
  obtain ⟨⟨⟨hcl, hcr⟩, hafterLeft⟩, hafterRight⟩ := hclean
  simp only [eval] at h
  rcases Outcome.andThen_eq_fault h with h | ⟨a, m₁, hleft, h⟩
  · exact ih.eval (Activity.returnsOutermost_of_returnFree hl) hcl h hm
  cases hm₁ : m₁.state.halted with
  | true =>
    -- a call in the left operand has ended the program
    have hsure : right.isSure = true ∧ op.needsDivisor = false := by
      rcases hafterLeft with hfree | hsure
      · rw [eval_callFree fuel left hfree hleft, hm] at hm₁
        cases hm₁
      · exact hsure
    rcases Outcome.andThen_eq_fault h with h | ⟨b, m₂, -, h⟩
    · exact absurd h (eval_sure fuel right m₁ hsure.1)
    · exact absurd h (result_ne_fault hsure.2)
  | false =>
    rcases Outcome.andThen_eq_fault h with h | ⟨b, m₂, hright, h⟩
    · exact ih.eval (Activity.returnsOutermost_of_returnFree hr) hcr h hm₁
    · rcases hafterRight with hfree | htotal
      · have hm₂ := (eval_callFree fuel right hfree hright).trans hm₁
        split at h
        · cases h
        · cases h; exact hm₂
      · exact absurd h (result_ne_fault htotal)

include hp in
theorem eval_faultsLive {node : Node} {place : Position} {m m' : Machine W I} {cause : Located Fault}
    (hnode : node.returnsOutermost = true) (hclean : node.endsCleanly = true)
    (h : eval setup (fuel + 1) node place m = .fault cause m') (hm : m.state.halted = false) :
    m'.state.halted = false := by
  cases node with
  | number value => simp only [eval] at h; cases h
  | «variable» name =>
    simp only [eval] at h
    split at h
    · cases h
    · cases h; exact hm
  | binary op left right =>
    simp only [Node.returnsOutermost, Node.returnFree, Bool.and_eq_true] at hnode
    exact binary_faultsLive ih hnode.1 hnode.2 hclean h hm
  | unary op operand =>
    have hfree : operand.returnFree = true := by
      cases op <;> simp_all [Node.returnsOutermost, Node.returnFree]
    simp only [eval] at h
    rcases Outcome.andThen_eq_fault h with h | ⟨value, m₁, ho, h⟩
    · exact ih.eval (Activity.returnsOutermost_of_returnFree hfree) hclean h hm
    · cases op with
      | giveBack =>
        obtain ⟨rfl, hframes⟩ := giveBack_eq_fault h
        cases hm₁ : m'.state.halted with
        | false => rfl
        | true =>
          have hlt := (leavesFrame hp fuel).eval hfree ho hm hm₁
          rw [hframes] at hlt
          exact absurd hlt (Nat.not_lt_zero _)
      | _ => cases h
  | call name nodes =>
    simp only [eval] at h
    exact ih.call hnode hclean h hm
  | pop =>
    simp only [eval, pop] at h
    split at h
    · cases h; exact hm
    · cases h
  | keyword k => simp only [eval] at h; cases h; exact hm
  | label => simp only [eval] at h; cases h; exact hm
  | define name parameters => simp only [eval] at h; cases h; exact hm

theorem evalArguments_faultsLive {nodes : List Node} {place : Position} {m m' : Machine W I}
    {cause : Located Fault} (hfree : Node.allReturnFree nodes = true)
    (hclean : Node.argumentsEndCleanly nodes = true)
    (h : evalArguments setup (fuel + 1) nodes place m = .fault cause m')
    (hm : m.state.halted = false) :
    m'.state.halted = false := by
  cases nodes with
  | nil => simp only [evalArguments] at h; cases h
  | cons node rest =>
    simp only [Node.allReturnFree, Bool.and_eq_true] at hfree
    simp only [Node.argumentsEndCleanly, Bool.and_eq_true, Bool.or_eq_true, beq_iff_eq] at hclean
    obtain ⟨⟨hcnode, hcrest⟩, hafter⟩ := hclean
    simp only [evalArguments] at h
    rcases Outcome.andThen_eq_fault h with h | ⟨value, m₁, he, h⟩
    · exact ih.eval (Activity.returnsOutermost_of_returnFree hfree.1) hcnode h hm
    rcases Outcome.andThen_eq_fault h with h | ⟨values, m₂, -, h⟩
    · cases hm₁ : m₁.state.halted with
      | true =>
        rcases hafter with hcalls | hsure
        · rw [eval_callFree fuel node hcalls he, hm] at hm₁
          cases hm₁
        · exact absurd h (evalArguments_sure fuel rest m₁ hsure)
      | false => exact ih.evalArguments hfree.2 hcrest h hm₁
    · cases h

theorem call_faultsLive {name : String} {nodes : List Node} {place : Position} {m m' : Machine W I}
    {cause : Located Fault} (hfree : Node.allReturnFree nodes = true)
    (hclean : Node.argumentsEndCleanly nodes = true)
    (h : call setup (fuel + 1) name nodes place m = .fault cause m')
    (hm : m.state.halted = false) : m'.state.halted = false := by
  simp only [call] at h
  split at h
  · cases h; exact hm
  · split at h
    · cases h; exact hm
    · split at h
      · cases h; exact hm
      · rcases Outcome.andThen_eq_fault h with h | ⟨values, m₁, ha, h⟩
        · exact ih.evalArguments hfree hclean h hm
        rcases Outcome.andThen_eq_fault h with h | ⟨_, m₂, -, h⟩
        · cases hm₁ : m₁.state.halted with
          | true => exact absurd h (runUntil_halted_ne_fault hm₁)
          | false => exact ih.runUntil h hm₁
        · cases h

theorem runUntil_faultsLive {depth : Nat} {name : String} {place : Position} {m m' : Machine W I}
    {cause : Located Fault}
    (h : runUntil setup (fuel + 1) depth name place m = .fault cause m')
    (hm : m.state.halted = false) :
    m'.state.halted = false := by
  simp only [runUntil] at h
  split at h
  · cases h
  · split at h
    · cases h
    · split at h
      · cases h; exact hm
      · split at h
        · rename_i m₁ hs
          cases hm₁ : m₁.state.halted with
          | true => exact absurd h (runUntil_halted_ne_fault hm₁)
          | false => exact ih.runUntil h hm₁
        · rename_i hs
          cases h
          exact ih.step hs hm
        · cases h

include hp hc in
theorem step_faultsLive {m m' : Machine W I} {cause : Located Fault}
    (h : step setup (fuel + 1) m = .fault cause m') (hm : m.state.halted = false) :
    m'.state.halted = false := by
  cases hi : setup.program[m.state.pointer]? with
  | none => simp only [step, hi] at h; cases h
  | some instruction =>
  obtain ⟨node, place⟩ := instruction
  have hmem := List.mem_of_getElem? hi
  cases hmarker : node.isMarker with
  | false =>
    rw [step_value hi hmarker] at h
    rcases Outcome.andThen_eq_fault h with h | ⟨value, m₁, -, h⟩
    · exact ih.eval (hp _ hmem) (hc.expressions _ hmem) h hm
    · cases h
  | true =>
    cases node with
    | keyword k =>
      by_cases hk : k = .change
      · subst hk
        simp only [step, hi, withLastValue] at h
        split at h
        · rename_i last _
          simp only [withOperand] at h
          split at h
          · rename_i operand hoperand
            split at h
            · cases h; exact hm
            · obtain ⟨instruction, hget, rfl⟩ := Option.map_eq_some_iff.1 hoperand
              have hmem' := List.mem_of_getElem? hget
              have hchange : setup.program.node? m.state.pointer = some (.keyword .change) := by
                rw [Program.node?, hi]; rfl
              rcases Outcome.andThen_eq_fault h with h | ⟨i, m₁, he, h⟩
              · exact ih.eval (hp _ hmem') (hc.expressions _ hmem') h hm
              · have hm₁ : m₁.state.halted = false :=
                  (eval_callFree fuel _ (hc.indices _ _ hchange hoperand) he).trans hm
                have hleaves := (quiet_halted setup.program).overwrite m₁ i last place
                rw [h] at hleaves
                exact hleaves.trans hm₁
          · cases h; exact hm
        · cases h; exact hm
      · rw [step_keyword hi hk] at h
        exact (keyword_fault_halted h).trans hm
    | label => simp only [step, hi] at h; cases h
    | define name parameters =>
      rw [step_define hi] at h
      unfold define at h
      split at h
      · cases h; exact hm
      · cases h
    | _ => cases hmarker

end

theorem faultsLive {setup : Setup} (hp : setup.program.ReturnsOutermost)
    (hc : setup.program.EndsCleanly) (fuel : Nat) : FaultsLive W I setup fuel := by
  induction fuel with
  | zero => exact faultsLive_zero setup
  | succ fuel ih =>
    exact ⟨eval_faultsLive hp ih, evalArguments_faultsLive ih, call_faultsLive ih,
      runUntil_faultsLive ih, step_faultsLive hp hc ih⟩

theorem write_flushFails (sink : Sink) (text : String) :
    (sink.write text).2.flushFails = sink.flushFails := by
  unfold Sink.write
  split
  · rfl
  · split
    · rfl
    · rfl

theorem closed_flushFails (p : Program) :
    Closed p fun m m' : Machine => m'.sink.flushFails = m.sink.flushFails where
  refl _ := rfl
  trans h h' := h'.trans h
  jump _ := rfl
  stack _ _ := rfl
  lastValue _ _ := rfl
  written _ _ := write_flushFails _ _
  flushed _ := rfl
  read _ := rfl
  assign _ _ _ := rfl
  halt _ := rfl
  giveBack _ _ := rfl
  define _ _ := rfl
  enter _ h _ := h

theorem flush_ne_fault {m m' : Machine} (hm : m.sink.flushFails = false) {place : Position}
    {cause : Located Fault} : m.flush place ≠ .fault cause m' := by
  simp [flush_of_sink hm]

theorem run_faultsLive {setup : Setup} (hp : setup.program.ReturnsOutermost)
    (hc : setup.program.EndsCleanly) {fuel : Nat} {m m' : Machine} {cause : Located Fault}
    (h : run setup fuel m = .fault cause m') (hm : m.state.halted = false)
    (hflush : m.sink.flushFails = false) : m'.state.halted = false := by
  induction fuel generalizing m with
  | zero => simp [run] at h
  | succ fuel ih =>
    cases hf : m.isFinished setup with
    | true =>
      simp only [run, hf, ↓reduceIte] at h
      exact absurd h (flush_ne_fault hflush)
    | false =>
      rw [run_active hf] at h
      rcases Outcome.andThen_eq_fault h with h | ⟨_, m₁, hs, h⟩
      · exact (faultsLive hp hc fuel).step h hm
      have hkept := ((closed_flushFails setup.program).preserves fuel).step m
      rw [hs] at hkept
      have hflush₁ : m₁.sink.flushFails = false := hkept.trans hflush
      cases hm₁ : m₁.state.halted with
      | false => exact ih h hm₁ hflush₁
      | true =>
        cases fuel with
        | zero => simp [run] at h
        | succ fuel =>
          simp only [run, isFinished, hm₁, Bool.true_or, ↓reduceIte] at h
          exact absurd h (flush_ne_fault hflush₁)

end Machine

namespace Activity

/-- If an instruction that ends the program is executed at any moment of a run, at top level or in
calls however deeply nested, the run ends. It ends normally where nothing that could fault is
evaluated after a call in an expression, and values are given back only by the outermost operator of
an instruction. -/
theorem burn_ends_run {setup : Setup} {m m₁ : Machine} {outer : List Activity}
    (hm : m.state.halted = false) (hflush : m.sink.flushFails = false)
    (h : InProgress setup m (.step m₁ :: outer)) (hends : m₁.EndsProgram setup.program) :
    ∃ fuel o, Machine.run setup fuel m = o ∧ o.EndsHalted ∧
      (setup.program.ReturnsOutermost → setup.program.EndsCleanly → ∃ m', o = .done () m') := by
  obtain ⟨o, hsettles, hhalted⟩ := h.run_halts _ _ rfl hends.step
  obtain ⟨fuel, hrun⟩ := hsettles.exists
  refine ⟨fuel, o, hrun, hhalted, ?_⟩
  intro hp hc
  cases o with
  | done value m' => exact ⟨m', rfl⟩
  | fault cause m' =>
    have hlive : m'.state.halted = false := Machine.run_faultsLive hp hc hrun hm hflush
    exact absurd (hlive.symm.trans hhalted) (by simp)
  | cutOff => exact hhalted.elim

/-- A function that gives back what another one yields, which ends the program. -/
def burningInside : Program := .ofNodes
  [.define "g" [], .keyword .burn, .keyword .break, .define "f" [],
    .unary .giveBack (.call "g" []), .keyword .break, .call "f" []]

theorem burn_ends_run_inside :
    ∃ m₁ outer, InProgress ⟨burningInside, 2⟩ {} (.step m₁ :: outer) ∧
      m₁.EndsProgram burningInside ∧ calls outer = 2 ∧
      ∃ fuel m', Machine.run ⟨burningInside, 2⟩ fuel {} = .done () m' ∧ m'.state.halted = true := by
  have hp : (⟨burningInside, 2⟩ : Setup).program.ReturnsOutermost := by decide
  have hc : (⟨burningInside, 2⟩ : Setup).program.EndsCleanly := by
    refine ⟨by decide, fun i operand hi => ?_⟩
    have hlt : i < 7 := Program.lt_of_node? hi
    interval_cases i <;> cases hi
  have h₁ := InProgress.start.goesOn (@GoesOn.run _ _ _ _ ⟨burningInside, 2⟩ {} _ 1 rfl rfl)
  have h₂ := h₁.goesOn (@GoesOn.run _ _ _ _ ⟨burningInside, 2⟩ _ _ 1 rfl rfl)
  have h₃ := ((h₂.begins (.step rfl)).begins (.value rfl rfl)).begins .call
  have h₄ := h₃.begins
    (@Begins.body _ _ _ _ ⟨burningInside, 2⟩ "f" [] _ _ _ _ [] 1 ⟨rfl, rfl, by decide⟩ rfl)
  have h₅ := (h₄.begins (.bodyStep (by decide) rfl (by decide))).begins (.value rfl rfl)
  have h₆ := ((h₅.begins .operand).begins .call).begins
    (@Begins.body _ _ _ _ ⟨burningInside, 2⟩ "g" [] _ _ _ _ [] 1 ⟨rfl, rfl, by decide⟩ rfl)
  have h₇ := h₆.begins (.bodyStep (by decide) rfl (by decide))
  obtain ⟨fuel, o, hrun, hhalted, hnormal⟩ := burn_ends_run rfl rfl h₇ (.burn rfl)
  obtain ⟨m', rfl⟩ := hnormal hp hc
  exact ⟨_, _, h₇, .burn rfl, rfl, fuel, m', hrun, hhalted⟩

/-- A call that ends the program, and a value off the empty stack after it. -/
def popsAfterBurning : Program :=
  [⟨.define "f" [], ⟨1, 1⟩⟩, ⟨.keyword .burn, ⟨1, 15⟩⟩, ⟨.keyword .break, ⟨1, 20⟩⟩,
   ⟨.binary .add (.call "f" []) .pop, ⟨1, 26⟩⟩]

theorem parse_popsAfterBurning :
    Script.parse "use () f code burn break use () f call touch fax" = .ok popsAfterBurning := by
  cbv

/-- The program ends itself, and the run ends with a fault. -/
theorem burn_ends_in_fault :
    Script.parse "use () f code burn break use () f call touch fax" = .ok popsAfterBurning ∧
    (∃ m₁ outer, InProgress ⟨popsAfterBurning, 200⟩ {} (.step m₁ :: outer) ∧
      m₁.EndsProgram popsAfterBurning) ∧
    ∃ m', Machine.run ⟨popsAfterBurning, 200⟩ 20 {} = .fault ⟨.stackUnderflow, ⟨1, 26⟩⟩ m' := by
  have h₁ := InProgress.start.goesOn (@GoesOn.run _ _ _ _ ⟨popsAfterBurning, 200⟩ {} _ 1 rfl rfl)
  have h₂ := (h₁.begins (.step rfl)).begins (.value rfl rfl)
  have h₃ := ((h₂.begins .left).begins .call).begins
    (@Begins.body _ _ _ _ ⟨popsAfterBurning, 200⟩ "f" [] _ _ _ _ [] 1 ⟨rfl, rfl, by decide⟩ rfl)
  have h₄ := h₃.begins (.bodyStep (by decide) rfl (by decide))
  exact ⟨parse_popsAfterBurning, ⟨_, _, h₄, .burn rfl⟩, _, rfl⟩

end Activity
end VerbScript
