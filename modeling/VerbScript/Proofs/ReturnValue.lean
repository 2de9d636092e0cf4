import Mathlib
import VerbScript.Proofs.Reachable
import VerbScript.Proofs.Transparency
import VerbScript.Script

/-!
# VerbScript.Proofs.ReturnValue

Where the value of a call comes from.

All calls leave their value in the one register `lastReturn`. In programs that give back a value only
by the outermost operator of an instruction, a call yields what the instruction gave back that took
its own frame off, whatever the calls inside it gave back.

* `Amid caller name m`: the frame of the call is the innermost one. `quiet_amid`: quiet instructions
  leave it there.
* `Returns setup m value m'`: the instruction under the pointer of `m` takes the innermost frame off.
* `Amid.step`: a step of the body leaves the frame where it is, or returns.
* `call_yields_own_value` puts the steps of a call together. `call_yields_callees_value`: where a
  value is given back inside an expression, a later call in the expression replaces it.
-/

namespace VerbScript.Machine

variable {W I : Type}

/-- The innermost frame is the one that `caller` pushed for a call of `name`. -/
def Amid (caller : Machine W I) (name : String) (m : Machine W I) : Prop :=
  ∃ scope, m.state.frames = ⟨name, caller.state.pointer, scope⟩ :: caller.state.frames

theorem Amid.of_eq {caller m m' : Machine W I} {name : String} (h : Amid caller name m)
    (hf : m'.state.frames = m.state.frames) : Amid caller name m' := by
  obtain ⟨scope, hscope⟩ := h
  exact ⟨scope, hf.trans hscope⟩

theorem Amid.assign {caller m : Machine W I} {name : String} (h : Amid caller name m) (x : String)
    (value : Number) : Amid caller name (m.assign x value) := by
  obtain ⟨scope, hscope⟩ := h
  simp only [Machine.assign, State.assign, hscope]
  split
  · exact ⟨_, rfl⟩
  · exact ⟨scope, rfl⟩

/-- After a value has been given back amid the call, the frames of the caller are left. -/
theorem Amid.giveBack {caller m m' : Machine W I} {name : String} (h : Amid caller name m)
    {value result : Number} {place : Position} (hgive : m.giveBack value place = .done result m') :
    m'.state.frames = caller.state.frames ∧ m'.state.lastReturn = value := by
  obtain ⟨scope, hscope⟩ := h
  obtain ⟨-, frame, rest, hf, rfl⟩ := giveBack_eq_done hgive
  rw [hscope] at hf
  cases hf
  exact ⟨rfl, rfl⟩

theorem giveBack_halted {m m' : Machine W I} {value result : Number} {place : Position}
    (h : m.giveBack value place = .done result m') : m'.state.halted = m.state.halted := by
  obtain ⟨-, frame, rest, -, rfl⟩ := giveBack_eq_done h
  rfl

variable [Writer W] [LineSource I]

/-- The instruction under the pointer takes the innermost frame off and gives back a value: that of
an operand, or zero at the end of a function. -/
inductive Returns (setup : Setup) (m : Machine W I) : Number → Machine W I → Prop where
  | instruction {operand : Node} {place : Position} {value : Number} {m₁ m₂ : Machine W I}
      {fuel : Nat} : setup.program[m.state.pointer]? = some ⟨.unary .giveBack operand, place⟩ →
      eval setup fuel operand place (m.jump (m.state.pointer + 1)) = .done value m₁ →
      m₁.state.frames = m.state.frames → m₁.giveBack value place = .done value m₂ →
      Returns setup m value (m₂.setLastValue value)
  | index {operand : Node} {place : Position} {value last : Number} {m₁ m₂ m' : Machine W I}
      {fuel : Nat} :
      setup.program[m.state.pointer]? = some ⟨.keyword .change, place⟩ →
      setup.program.node? (m.state.pointer + 1) = some (.unary .giveBack operand) →
      eval setup fuel operand place (m.jump (m.state.pointer + 2)) = .done value m₁ →
      m₁.state.frames = m.state.frames → m₁.giveBack value place = .done value m₂ →
      m₂.overwrite value last place = .done () m' → Returns setup m value m'
  | bodyEnd {k : Keyword} {place : Position} {definition : Nat} {m' : Machine W I} :
      k = .break ∨ k = .leave → setup.program[m.state.pointer]? = some ⟨.keyword k, place⟩ →
      setup.program.enclosing? m.state.pointer (k == .leave) = some (.function definition) →
      (m.jump (m.state.pointer + 1)).giveBack 0 place = .done 0 m' → Returns setup m 0 m'

/-- From `m` on instructions are executed, with the frame of the call as the innermost one before
each of them, until one returns `value` from it. -/
inductive Yields (setup : Setup) (caller : Machine W I) (name : String) :
    Machine W I → Number → Machine W I → Prop where
  | last {m m' : Machine W I} {value : Number} : Amid caller name m → Returns setup m value m' →
      Yields setup caller name m value m'
  | step {m m₁ m' : Machine W I} {value : Number} {fuel : Nat} : Amid caller name m →
      Machine.step setup fuel m = .done () m₁ → Yields setup caller name m₁ value m' →
      Yields setup caller name m value m'

/-! ## The frame of a call -/

theorem quiet_amid (p : Program) :
    Quiet p fun m m' : Machine W I => ∀ caller name, Amid caller name m → Amid caller name m' where
  refl _ _ _ h := h
  trans h h' caller name hm := h' caller name (h caller name hm)
  jump _ _ _ h := h.of_eq rfl
  stack _ _ _ _ h := h.of_eq rfl
  lastValue _ _ _ _ h := h.of_eq rfl
  written _ _ _ _ h := h.of_eq rfl
  flushed _ _ _ h := h.of_eq rfl
  read _ _ _ h := h.of_eq rfl
  assign _ x value _ _ h := h.assign x value

/-- The call goes on amid its body, or the instruction has returned from it. -/
def Settled (setup : Setup) (caller : Machine W I) (name : String) (m m' : Machine W I) : Prop :=
  Amid caller name m' ∨
    Returns setup m m'.state.lastReturn m' ∧ m'.state.frames = caller.state.frames

theorem keyword_settled {setup : Setup} {caller m m' : Machine W I} {name : String} {k : Keyword}
    {place : Position} (h : Amid caller name m)
    (hi : setup.program[m.state.pointer]? = some ⟨.keyword k, place⟩)
    (hk : (m.jump (m.state.pointer + 1)).keyword setup.program k m.state.pointer place
      = .done () m') : Settled setup caller name m m' := by
  have hmoved : Amid caller name (m.jump (m.state.pointer + 1)) := h.of_eq rfl
  have hR := quiet_amid (W := W) (I := I) setup.program
  -- the marker that ends a function body: both `break` and `leave` end in this
  have finished : ∀ definition, k = .break ∨ k = .leave →
      setup.program.enclosing? m.state.pointer (k == .leave) = some (.function definition) →
      ((m.jump (m.state.pointer + 1)).giveBack 0 place).andThen (fun _ m => .done () m)
        = .done () m' → Settled setup caller name m m' := by
    intro definition hk henclosing hgive
    obtain ⟨result, m₁, hgive, heq⟩ := Outcome.andThen_eq_done hgive
    cases heq
    obtain ⟨hframes, hreturn⟩ := hmoved.giveBack hgive
    obtain ⟨rfl, -⟩ := giveBack_eq_done hgive
    exact .inr ⟨hreturn ▸ .bodyEnd hk hi henclosing hgive, hframes⟩
  cases hquiet : k.isQuiet with
  | true =>
    have hleaves := hR.keyword hquiet (m.jump (m.state.pointer + 1)) m.state.pointer place
    rw [hk] at hleaves
    exact .inl (hleaves caller name hmoved)
  | false =>
    cases k with
    | burn => cases hk; exact .inl (h.of_eq rfl)
    | find =>
      have hleaves := hR.find (m.jump (m.state.pointer + 1)) (fun _ _ h => h.of_eq rfl) place
      simp only [keyword] at hk
      rw [hk] at hleaves
      exact .inl (hleaves caller name hmoved)
    | «break» =>
      simp only [keyword, closeBlock] at hk
      split at hk
      · cases hk
      · cases hk; exact .inl hmoved
      · cases hk; exact .inl (h.of_eq rfl)
      · exact finished _ (.inl rfl) ‹_› hk
    | leave =>
      simp only [keyword, leave] at hk
      split at hk
      · cases hk
      · cases hk; exact .inl hmoved
      · obtain ⟨target, -, rfl⟩ := skipBlock_eq_done hk
        exact .inl (h.of_eq rfl)
      · exact finished _ (.inr rfl) ‹_› hk
    | _ => cases hquiet

section

variable {setup : Setup} (hp : setup.program.ReturnsOutermost)
include hp

/-- An instruction's expression leaves the frames as they are, or its outermost operator gives back
the value of its operand. -/
theorem eval_instruction {node : Node} {place : Position} {m m' : Machine W I} {value : Number}
    {fuel : Nat} (hnode : node.returnsOutermost = true)
    (h : eval setup fuel node place m = .done value m') (hlive : m'.state.halted = false) :
    m'.state.frames = m.state.frames ∨
      ∃ operand m₁ fuel', node = .unary .giveBack operand ∧
        eval setup fuel' operand place m = .done value m₁ ∧ m₁.state.frames = m.state.frames ∧
        m₁.giveBack value place = .done value m' := by
  cases fuel with
  | zero => simp [eval] at h
  | succ fuel =>
    unfold Node.returnsOutermost at hnode
    split at hnode
    · simp only [eval] at h
      obtain ⟨a, m₁, hoperand, hgive⟩ := Outcome.andThen_eq_done h
      obtain ⟨rfl, -⟩ := giveBack_eq_done hgive
      have hkept := (transparent hp fuel).eval hnode hoperand
      have hlive₁ : m₁.state.halted = false := (giveBack_halted hgive).symm.trans hlive
      exact .inr ⟨_, m₁, fuel, rfl, hoperand, (hkept.live hlive₁).1, hgive⟩
    · exact .inl (((transparent hp (fuel + 1)).eval hnode h).live hlive).1

theorem Amid.step {caller m m' : Machine W I} {name : String} {fuel : Nat} (h : Amid caller name m)
    (hs : step setup fuel m = .done () m') (hlive : m'.state.halted = false) :
    Settled setup caller name m m' := by
  cases fuel with
  | zero => simp [Machine.step] at hs
  | succ fuel =>
  cases hi : setup.program[m.state.pointer]? with
  | none =>
    simp only [Machine.step, hi] at hs
    cases hs
    exact .inl h
  | some instruction =>
  obtain ⟨node, place⟩ := instruction
  cases hm : node.isMarker with
  | false =>
    rw [step_value hi hm] at hs
    obtain ⟨value, m₁, he, heq⟩ := Outcome.andThen_eq_done hs
    cases heq
    rcases eval_instruction hp (hp _ (List.mem_of_getElem? hi)) he hlive with
      hframes | ⟨operand, m₂, fuel', rfl, hoperand, hframes, hgive⟩
    · exact .inl (h.of_eq hframes)
    · obtain ⟨hcaller, hreturn⟩ := (h.of_eq hframes).giveBack hgive
      refine .inr ⟨?_, hcaller⟩
      rw [show (m₁.setLastValue value).state.lastReturn = value from hreturn]
      exact .instruction hi hoperand hframes hgive
  | true =>
    cases node with
    | keyword k =>
      by_cases hk : k = .change
      · subst hk
        simp only [Machine.step, hi] at hs
        obtain ⟨last, hlast, hs⟩ := withLastValue_eq_done hs
        obtain ⟨index, hindex, -, hs⟩ := withOperand_eq_done hs
        obtain ⟨i, m₁, he, hover⟩ := Outcome.andThen_eq_done hs
        obtain ⟨instruction, hget, rfl⟩ := Option.map_eq_some_iff.1 hindex
        have houter := hp _ (List.mem_of_getElem? hget)
        obtain ⟨stack, rfl⟩ := overwrite_eq_done hover
        rcases eval_instruction hp houter he hlive with
          hframes | ⟨operand, m₂, fuel', hnode, hoperand, hframes, hgive⟩
        · exact .inl (h.of_eq hframes)
        · obtain ⟨hcaller, hreturn⟩ := (h.of_eq hframes).giveBack hgive
          refine .inr ⟨?_, hcaller⟩
          rw [hnode] at hindex
          exact hreturn ▸ .index hi hindex hoperand hframes hgive hover
      · rw [step_keyword hi hk] at hs
        exact keyword_settled h hi hs
    | label =>
      simp only [Machine.step, hi] at hs
      cases hs
      exact .inl (h.of_eq rfl)
    | define function parameters =>
      rw [step_define hi] at hs
      unfold define at hs
      split at hs
      · cases hs
      · cases hs; exact .inl (h.of_eq rfl)
    | _ => cases hm

theorem Amid.runUntil {caller m m' : Machine W I} {name : String} {place : Position} {fuel : Nat}
    (h : Amid caller name m) (hm : m.state.halted = false)
    (hr : runUntil setup fuel caller.state.frames.length name place m = .done () m')
    (hlive : m'.state.halted = false) :
    Yields setup caller name m m'.state.lastReturn m' := by
  induction fuel generalizing m with
  | zero => simp [Machine.runUntil] at hr
  | succ fuel ih =>
    have hdepth : caller.state.frames.length < m.state.frames.length := by
      obtain ⟨scope, hscope⟩ := h
      rw [hscope]
      exact Nat.lt_succ_self _
    by_cases hend : m.state.pointer < setup.program.length
    · rw [runUntil_active hdepth hm hend] at hr
      obtain ⟨_, m₁, hs, hr⟩ := Outcome.andThen_eq_done hr
      have hm₁ : m₁.state.halted = false := by
        cases hh : m₁.state.halted with
        | false => rfl
        | true =>
          cases runUntil_of_halted hr hh
          exact hh.symm.trans hlive
      rcases h.step hp hs hm₁ with hamid | ⟨hreturns, hframes⟩
      · exact .step h hs (ih hamid hm₁ hr)
      · have hlast : m' = m₁ := by
          cases fuel with
          | zero => simp [Machine.runUntil] at hr
          | succ fuel =>
            simp only [Machine.runUntil] at hr
            rw [if_pos (Nat.le_of_eq (congrArg List.length hframes))] at hr
            cases hr
            rfl
        rw [hlast]
        exact .last h hreturns
    · simp only [Machine.runUntil] at hr
      rw [if_neg (by omega), if_neg (by simp [hm]), if_pos (by omega)] at hr
      cases hr

end

/-- A call yields the value that was given back when its own frame was taken off: by an operator, or
zero by the end of its body. -/
theorem call_yields_own_value {setup : Setup} (hp : setup.program.ReturnsOutermost) {fuel : Nat}
    {name : String} {arguments : List Node} {place : Position} {m m' : Machine W I} {value : Number}
    (harguments : ∀ node ∈ arguments, node.returnFree = true)
    (h : call setup fuel name arguments place m = .done value m')
    (hlive : m'.state.halted = false) :
    ∃ entry values caller fuel', Admitted setup m name arguments entry ∧
      evalArguments setup fuel' arguments place m = .done values caller ∧
      Yields setup caller name (caller.enter name entry values) value m' := by
  cases fuel with
  | zero => simp [call] at h
  | succ fuel =>
    obtain ⟨entry, values, caller, hadmitted, ha, hr, rfl⟩ := call_eq_done h
    have hkept := (transparent hp fuel).evalArguments (Node.allReturnFree_iff.2 harguments) ha
    have hcaller : caller.state.halted = false := by
      cases hh : caller.state.halted with
      | false => rfl
      | true =>
        cases runUntil_of_halted hr hh
        exact hh.symm.trans hlive
    rw [← (hkept.live hcaller).1] at hr
    have hamid : Amid caller name (caller.enter name entry values) := ⟨_, rfl⟩
    exact ⟨entry, values, caller, fuel, hadmitted, ha, hamid.runUntil hp hcaller hr hlive⟩

/-- A function that calls itself, and then gives back its own parameter. -/
def selfCalling : Program := .ofNodes
  [.define "f" ["x"], .variable "x", .keyword .check, .call "f" [.number 0],
    .unary .giveBack (.variable "x"), .keyword .break, .keyword .break]

def selfCallingMachine : Machine :=
  { state := { pointer := 7, functions := ⟨[("f", ⟨0, 6, ["x"]⟩)]⟩ } }

theorem call_yields_own_value_amid_calls :
    ∃ m', call ⟨selfCalling, 2⟩ 20 "f" [.number 1] {} selfCallingMachine = .done 1 m' ∧
      m'.state.halted = false ∧
      ∃ entry values caller fuel',
        Admitted ⟨selfCalling, 2⟩ selfCallingMachine "f" [.number 1] entry ∧
        evalArguments ⟨selfCalling, 2⟩ fuel' [.number 1] {} selfCallingMachine
          = .done values caller ∧
        Yields ⟨selfCalling, 2⟩ caller "f" (caller.enter "f" entry values) 1 m' := by
  have hp : (⟨selfCalling, 2⟩ : Setup).program.ReturnsOutermost := by decide
  have harguments : ∀ node ∈ [Node.number 1], node.returnFree = true := by decide
  have h : call ⟨selfCalling, 2⟩ 20 "f" [.number 1] {} selfCallingMachine = .done 1 _ := rfl
  exact ⟨_, h, rfl, call_yields_own_value hp harguments h rfl⟩

/-! ## A value given back inside an expression -/

/-- A function that gives back a value and then, in the same expression, makes a call. -/
def returnsThenCalls : Program :=
  [⟨.define "g" [], ⟨1, 1⟩⟩, ⟨.keyword .break, ⟨1, 15⟩⟩,
   ⟨.unary .not (.call "g" []), ⟨1, 21⟩⟩, ⟨.keyword .save, ⟨1, 42⟩⟩,
   ⟨.define "f" [], ⟨1, 47⟩⟩,
   ⟨.binary .add (.unary .giveBack .pop) (.call "g" []), ⟨1, 61⟩⟩,
   ⟨.keyword .break, ⟨1, 102⟩⟩, ⟨.call "f" [], ⟨1, 108⟩⟩, ⟨.keyword .send, ⟨1, 122⟩⟩]

theorem parse_returnsThenCalls :
    Script.parse ("use () g code break use () g call switch save use () f code "
        ++ "zip fax unlock unzip touch use () g call break use () f call send")
      = .ok returnsThenCalls := by
  cbv

/-- The machine before the call of `f`. -/
def beforeCall : Machine :=
  { state := { pointer := 7, lastValue := some 1, stack := [1],
               functions := ⟨[("g", ⟨0, 1, []⟩), ("f", ⟨4, 6, []⟩)]⟩ } }

theorem beforeCall_reachable : Reachable ⟨returnsThenCalls, 200⟩ beforeCall := by
  have h₁ := @Reachable.step Sink Input _ _ ⟨returnsThenCalls, 200⟩ _ _ 1 (.initial [] {}) rfl
  have h₂ := @Reachable.step Sink Input _ _ ⟨returnsThenCalls, 200⟩ _ _ 9 h₁ rfl
  have h₃ := @Reachable.step Sink Input _ _ ⟨returnsThenCalls, 200⟩ _ _ 1 h₂ rfl
  exact @Reachable.step Sink Input _ _ ⟨returnsThenCalls, 200⟩ _ _ 1 h₃ rfl

/-- `f` gives back 1 and with that its frame is gone, but the call yields the 0 of `g`. -/
theorem call_yields_callees_value :
    Script.parse ("use () g code break use () g call switch save use () f code "
        ++ "zip fax unlock unzip touch use () g call break use () f call send")
      = .ok returnsThenCalls ∧
    Reachable ⟨returnsThenCalls, 200⟩ beforeCall ∧
    (∃ m', call ⟨returnsThenCalls, 200⟩ 9 "f" [] ⟨1, 108⟩ (beforeCall.jump 8) = .done 0 m' ∧
      m'.state.halted = false) ∧
    (∃ m₁, eval ⟨returnsThenCalls, 200⟩ 3 (.unary .giveBack .pop) ⟨1, 61⟩
        (((beforeCall.jump 8).enter "f" ⟨4, 6, []⟩ []).jump 6) = .done 1 m₁ ∧
      m₁.state.frames = beforeCall.state.frames) ∧
    (0 : Number) ≠ 1 :=
  ⟨parse_returnsThenCalls, beforeCall_reachable, ⟨_, rfl, rfl⟩, ⟨_, rfl, rfl⟩, by decide⟩

end VerbScript.Machine
