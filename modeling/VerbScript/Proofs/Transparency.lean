import VerbScript.Proofs.Effect

/-!
# VerbScript.Proofs.Transparency

A function call is transparent for its caller, in programs that give back a value only by the
outermost operator of an instruction.

* `Node.returnFree`: the expression gives back nothing. `Node.returnsOutermost`: it does so at most
  by its outermost operator.
* `Kept m m'`: what evaluating a return-free expression keeps. The frames of `m` are still there,
  and unless the program has ended itself they are the only ones and the pointer has not moved.
* `Running caller m`: `m` is between two steps of a call that `caller` made.
* `transparent`: a step of a running call leaves it running or ends it as `Kept caller` says. All
  of it is one induction on the fuel, since evaluation and execution call each other.
-/

namespace VerbScript

variable {W I : Type}

namespace Node

mutual

/-- Whether no value is given back in the expression. -/
def returnFree : Node → Bool
  | .binary _ left right => left.returnFree && right.returnFree
  | .unary op operand => op != .giveBack && operand.returnFree
  | .call _ arguments => allReturnFree arguments
  | _ => true

def allReturnFree : List Node → Bool
  | [] => true
  | node :: rest => node.returnFree && allReturnFree rest

end

theorem allReturnFree_iff {nodes : List Node} :
    allReturnFree nodes = true ↔ ∀ node ∈ nodes, node.returnFree = true := by
  induction nodes with
  | nil => simp [allReturnFree]
  | cons node nodes ih => simp [allReturnFree, ih]

/-- Whether a value is given back at most by the outermost operator. -/
def returnsOutermost : Node → Bool
  | .unary .giveBack operand => operand.returnFree
  | node => node.returnFree

end Node

/-- Values are given back only by the outermost operator of an instruction. -/
def Program.ReturnsOutermost (p : Program) : Prop :=
  ∀ instruction ∈ p, instruction.value.returnsOutermost = true

instance (p : Program) : Decidable p.ReturnsOutermost :=
  inferInstanceAs (Decidable (∀ instruction ∈ p, instruction.value.returnsOutermost = true))

namespace Machine

/-- The same global variables have a value in both machines. -/
def SameGlobals (m m' : Machine W I) : Prop :=
  ∀ name, m'.state.globals.contains name = m.state.globals.contains name

theorem SameGlobals.trans {m₁ m₂ m₃ : Machine W I} (h : SameGlobals m₁ m₂) (h' : SameGlobals m₂ m₃) :
    SameGlobals m₁ m₃ := fun name => (h' name).trans (h name)

/-- What evaluating an expression that gives nothing back keeps. -/
structure Kept (m m' : Machine W I) : Prop where
  halted : m.state.halted = true → m'.state.halted = true
  globals : SameGlobals m m'
  frames : m.state.frames <:+ m'.state.frames
  live : m'.state.halted = false →
    m'.state.frames = m.state.frames ∧ m'.state.pointer = m.state.pointer

theorem Kept.refl (m : Machine W I) : Kept m m :=
  ⟨id, fun _ => rfl, List.suffix_refl _, fun _ => ⟨rfl, rfl⟩⟩

/-- A change of what neither frames nor globals nor the pointer show. -/
theorem Kept.of_eq {m m' : Machine W I} (hh : m'.state.halted = m.state.halted)
    (hg : m'.state.globals = m.state.globals) (hf : m'.state.frames = m.state.frames)
    (hp : m'.state.pointer = m.state.pointer) : Kept m m' := by
  refine ⟨fun h => hh ▸ h, fun name => by rw [hg], by simp [hf], ?_⟩
  exact fun _ => ⟨hf, hp⟩

theorem Kept.trans {m₁ m₂ m₃ : Machine W I} (h : Kept m₁ m₂) (h' : Kept m₂ m₃) : Kept m₁ m₃ := by
  refine ⟨fun hh => h'.halted (h.halted hh), h.globals.trans h'.globals,
    h.frames.trans h'.frames, fun hlive => ?_⟩
  have hmid : m₂.state.halted = false := by
    cases hh : m₂.state.halted with
    | false => rfl
    | true => rw [h'.halted hh] at hlive; cases hlive
  obtain ⟨hf, hp⟩ := h.live hmid
  obtain ⟨hf', hp'⟩ := h'.live hlive
  exact ⟨hf'.trans hf, hp'.trans hp⟩

theorem Kept.of_halted {m m' : Machine W I} (hg : SameGlobals m m')
    (hf : m.state.frames <:+ m'.state.frames) (hh : m'.state.halted = true) : Kept m m' :=
  ⟨fun _ => hh, hg, hf, fun hlive => by rw [hh] at hlive; cases hlive⟩

/-- A call that `caller` made goes on: its frame is on top of those of the caller. -/
structure Running (caller m : Machine W I) : Prop where
  callerLive : caller.state.halted = false
  live : m.state.halted = false
  globals : SameGlobals caller m
  frames : ∃ frame, m.state.frames = frame :: caller.state.frames ∧
    frame.returnAddress = caller.state.pointer

theorem Running.of_eq {caller m m' : Machine W I} (h : Running caller m)
    (hh : m'.state.halted = m.state.halted) (hg : m'.state.globals = m.state.globals)
    (hf : m'.state.frames = m.state.frames) : Running caller m' := by
  refine ⟨h.callerLive, hh.trans h.live, fun name => by rw [hg]; exact h.globals name, ?_⟩
  rw [hf]
  exact h.frames

theorem Running.kept {caller m m' : Machine W I} (h : Running caller m) (hk : Kept m m') :
    Running caller m' ∨ Kept caller m' := by
  obtain ⟨frame, hf, hr⟩ := h.frames
  have hg := h.globals.trans hk.globals
  cases hh : m'.state.halted with
  | false => exact .inl ⟨h.callerLive, hh, hg, frame, (hk.live hh).1.trans hf, hr⟩
  | true =>
    have hsuffix : caller.state.frames <:+ m.state.frames := by
      rw [hf]
      exact List.suffix_cons frame _
    exact .inr (.of_halted hg (hsuffix.trans hk.frames) hh)

/-- Giving back a value in a running call ends it. -/
theorem Running.giveBack {caller m m₁ m' : Machine W I} (h : Running caller m) (hk : Kept m m₁)
    {value result : Number} {place : Position}
    (hgive : m₁.giveBack value place = .done result m') : Kept caller m' := by
  obtain ⟨-, top, below, htop, rfl⟩ := giveBack_eq_done hgive
  obtain ⟨frame, hf, hr⟩ := h.frames
  refine ⟨fun hh => ?_, h.globals.trans hk.globals, ?_, fun hlive => ?_⟩
  · rw [h.callerLive] at hh; cases hh
  · have hsuffix := hk.frames
    rw [hf, htop, List.suffix_cons_iff] at hsuffix
    rcases hsuffix with heq | hsuffix
    · cases heq; exact List.suffix_refl _
    · exact (List.suffix_cons frame _).trans hsuffix
  · have hsame := (hk.live hlive).1
    rw [hf, htop] at hsame
    cases hsame
    exact ⟨rfl, hr⟩

theorem assign_frames {m : Machine W I} {frame : Frame} {rest : List Frame}
    (h : m.state.frames = frame :: rest) (name : String) (value : Number) :
    ∃ frame', (m.assign name value).state.frames = frame' :: rest ∧
      frame'.returnAddress = frame.returnAddress := by
  simp only [assign, State.assign, h]
  split
  · exact ⟨_, rfl, rfl⟩
  · exact ⟨frame, rfl, rfl⟩

theorem assign_halted (m : Machine W I) (name : String) (value : Number) :
    (m.assign name value).state.halted = m.state.halted := by
  simp only [assign, State.assign]
  split
  · rfl
  · split <;> rfl

theorem assign_pointer (m : Machine W I) (name : String) (value : Number) :
    (m.assign name value).state.pointer = m.state.pointer := by
  simp only [assign, State.assign]
  split
  · rfl
  · split <;> rfl

theorem length_assign_frames (m : Machine W I) (name : String) (value : Number) :
    (m.assign name value).state.frames.length = m.state.frames.length := by
  cases hf : m.state.frames with
  | nil => simp only [assign, State.assign, hf]
  | cons frame rest =>
    obtain ⟨frame', htop, -⟩ := assign_frames hf name value
    rw [htop, List.length_cons, List.length_cons]

/-- In a call no new global variable comes into being. -/
theorem assign_sameGlobals {m : Machine W I} {frame : Frame} {rest : List Frame}
    (h : m.state.frames = frame :: rest) (name : String) (value : Number) :
    SameGlobals m (m.assign name value) := by
  intro other
  simp only [assign, State.assign, h]
  split
  · rfl
  · rename_i hglobal
    have hcontains : m.state.globals.contains name = true := by
      cases hc : m.state.globals.contains name with
      | true => rfl
      | false => simp [hc] at hglobal
    simp only [Table.contains, Table.get?_insert]
    split
    · rename_i heq
      rw [heq]
      exact hcontains.symm
    · rfl

theorem Running.effect {caller m m' : Machine W I} (h : Running caller m) {programLength : Nat}
    (he : Effect programLength m m') : Running caller m' ∨ Kept caller m' := by
  obtain ⟨frame, hf, hr⟩ := h.frames
  cases he with
  | jump target => exact .inl (h.of_eq rfl rfl rfl)
  | write sink => exact .inl (h.of_eq rfl rfl rfl)
  | stack stack => exact .inl (h.of_eq rfl rfl rfl)
  | assign target input sink name value =>
    have hf' : ({ m with input := input, sink := sink }.jump target).state.frames
        = frame :: caller.state.frames := hf
    obtain ⟨frame', htop, hret⟩ := assign_frames hf' name value
    refine .inl ⟨h.callerLive, ?_, ?_, frame', htop, hret.trans hr⟩
    · rw [assign_halted]; exact h.live
    · exact h.globals.trans (assign_sameGlobals hf' name value)
  | halt =>
    refine .inr (.of_halted h.globals ?_ rfl)
    rw [show (m.halt programLength).state.frames = m.state.frames from rfl, hf]
    exact List.suffix_cons frame _
  | giveBack value hframes =>
    rw [hf] at hframes
    cases hframes
    refine .inr ⟨fun hh => ?_, h.globals, List.suffix_refl _, fun _ => ⟨rfl, hr⟩⟩
    rw [h.callerLive] at hh
    cases hh
  | define functions target => exact .inl (h.of_eq rfl rfl rfl)

/-! ## Evaluation and execution -/

/-- What evaluation and execution with some fuel keep. -/
structure Transparent (W I : Type) [Writer W] [LineSource I] (setup : Setup) (fuel : Nat) : Prop where
  eval : ∀ {node place value} {m m' : Machine W I}, node.returnFree = true →
    Machine.eval setup fuel node place m = .done value m' → Kept m m'
  evalArguments : ∀ {nodes place values} {m m' : Machine W I}, Node.allReturnFree nodes = true →
    Machine.evalArguments setup fuel nodes place m = .done values m' → Kept m m'
  call : ∀ {name nodes place value} {m m' : Machine W I}, Node.allReturnFree nodes = true →
    Machine.call setup fuel name nodes place m = .done value m' → Kept m m'
  instruction : ∀ {node place value} {caller m m' : Machine W I}, node.returnsOutermost = true →
    Running caller m → Machine.eval setup fuel node place m = .done value m' →
    Running caller m' ∨ Kept caller m'
  runUntil : ∀ {name place} {caller m m' : Machine W I}, Running caller m ∨ Kept caller m →
    Machine.runUntil setup fuel caller.state.frames.length name place m = .done () m' →
    Kept caller m'
  step : ∀ {caller m m' : Machine W I}, Running caller m → Machine.step setup fuel m = .done () m' →
    Running caller m' ∨ Kept caller m'

variable [Writer W] [LineSource I]

theorem transparent_zero (setup : Setup) : Transparent W I setup 0 where
  eval _ h := by simp [Machine.eval] at h
  evalArguments _ h := by simp [Machine.evalArguments] at h
  call _ h := by simp [Machine.call] at h
  instruction _ _ h := by simp [Machine.eval] at h
  runUntil _ h := by simp [Machine.runUntil] at h
  step _ h := by simp [Machine.step] at h

theorem runUntil_of_halted {setup : Setup} {fuel depth : Nat} {name : String} {place : Position}
    {m m' : Machine W I} (h : runUntil setup fuel depth name place m = .done () m')
    (hh : m.state.halted = true) : m' = m := by
  cases fuel with
  | zero => simp [runUntil] at h
  | succ fuel =>
    simp only [runUntil] at h
    rw [if_pos hh] at h
    split at h
    · cases h; rfl
    · cases h; rfl

section Succ

variable {setup : Setup} {fuel : Nat} (ih : Transparent W I setup fuel)
include ih

theorem eval_kept {node : Node} {place : Position} {m m' : Machine W I} {value : Number}
    (hfree : node.returnFree = true) (h : eval setup (fuel + 1) node place m = .done value m') :
    Kept m m' := by
  cases node with
  | number x => simp only [eval] at h; cases h; exact .refl m
  | «variable» name =>
    simp only [eval] at h
    split at h
    · cases h; exact .refl m
    · cases h
  | binary op left right =>
    simp only [eval] at h
    simp only [Node.returnFree, Bool.and_eq_true] at hfree
    obtain ⟨a, m₁, hl, h⟩ := Outcome.andThen_eq_done h
    obtain ⟨b, m₂, hr, h⟩ := Outcome.andThen_eq_done h
    have hk := (ih.eval hfree.1 hl).trans (ih.eval hfree.2 hr)
    split at h
    · cases h; exact hk
    · cases h
  | unary op operand =>
    simp only [eval] at h
    simp only [Node.returnFree, Bool.and_eq_true, bne_iff_ne] at hfree
    obtain ⟨a, m₁, ho, h⟩ := Outcome.andThen_eq_done h
    have hk := ih.eval hfree.2 ho
    cases op with
    | paste => cases h; exact hk.trans (.of_eq rfl rfl rfl rfl)
    | giveBack => exact absurd rfl hfree.1
    | negate => cases h; exact hk
    | not => cases h; exact hk
  | call name nodes =>
    simp only [eval] at h
    exact ih.call hfree h
  | pop =>
    simp only [eval, pop] at h
    split at h
    · cases h
    · cases h; exact .of_eq rfl rfl rfl rfl
  | keyword k => simp only [eval] at h; cases h
  | label => simp only [eval] at h; cases h
  | define name parameters => simp only [eval] at h; cases h

theorem evalArguments_kept {nodes : List Node} {place : Position} {m m' : Machine W I}
    {values : List Number} (hfree : Node.allReturnFree nodes = true)
    (h : evalArguments setup (fuel + 1) nodes place m = .done values m') : Kept m m' := by
  cases nodes with
  | nil => simp only [evalArguments] at h; cases h; exact .refl m
  | cons node rest =>
    simp only [evalArguments] at h
    simp only [Node.allReturnFree, Bool.and_eq_true] at hfree
    obtain ⟨value, m₁, he, h⟩ := Outcome.andThen_eq_done h
    obtain ⟨values', m₂, hr, h⟩ := Outcome.andThen_eq_done h
    cases h
    exact (ih.eval hfree.1 he).trans (ih.evalArguments hfree.2 hr)

theorem call_kept {name : String} {nodes : List Node} {place : Position} {m m' : Machine W I}
    {value : Number} (hfree : Node.allReturnFree nodes = true)
    (h : call setup (fuel + 1) name nodes place m = .done value m') : Kept m m' := by
  simp only [call] at h
  split at h
  · cases h
  · split at h
    · cases h
    · split at h
      · cases h
      · rename_i entry _ _ _
        obtain ⟨values, m₁, ha, h⟩ := Outcome.andThen_eq_done h
        obtain ⟨_, m₂, hu, h⟩ := Outcome.andThen_eq_done h
        cases h
        have hk := ih.evalArguments hfree ha
        refine hk.trans ?_
        cases hh : m₁.state.halted with
        | false =>
          rw [← (hk.live hh).1] at hu
          refine ih.runUntil (.inl ?_) hu
          exact ⟨hh, hh, fun _ => rfl, _, rfl, rfl⟩
        | true =>
          -- the program has ended itself in an argument: no step of the body is executed
          cases runUntil_of_halted hu hh
          exact .of_halted (fun _ => rfl) (List.suffix_cons _ _) hh

theorem runUntil_kept {caller m m' : Machine W I} {name : String} {place : Position}
    (hm : Running caller m ∨ Kept caller m)
    (h : runUntil setup (fuel + 1) caller.state.frames.length name place m = .done () m') :
    Kept caller m' := by
  simp only [runUntil] at h
  rcases hm with hrun | hk
  · obtain ⟨frame, hf, -⟩ := hrun.frames
    have hlen : ¬ m.state.frames.length ≤ caller.state.frames.length := by
      rw [hf, List.length_cons]
      omega
    rw [if_neg hlen, if_neg (by rw [hrun.live]; simp)] at h
    split at h
    · cases h
    · split at h
      · rename_i m₁ hs
        exact ih.runUntil (ih.step hrun hs) h
      · cases h
      · cases h
  · split at h
    · cases h; exact hk
    · rename_i hlen
      cases hh : m.state.halted with
      | true =>
        rw [if_pos hh] at h
        cases h
        exact hk
      | false =>
        rw [(hk.live hh).1] at hlen
        exact absurd (Nat.le_refl _) hlen

theorem instruction_kept {caller m m' : Machine W I} {node : Node} {place : Position} {value : Number}
    (hnode : node.returnsOutermost = true) (hrun : Running caller m)
    (h : eval setup (fuel + 1) node place m = .done value m') :
    Running caller m' ∨ Kept caller m' := by
  unfold Node.returnsOutermost at hnode
  split at hnode
  · simp only [eval] at h
    obtain ⟨a, m₁, ho, h⟩ := Outcome.andThen_eq_done h
    exact .inr (hrun.giveBack (ih.eval hnode ho) h)
  · exact hrun.kept (eval_kept ih hnode h)

theorem step_kept (hp : setup.program.ReturnsOutermost) {caller m m' : Machine W I}
    (hrun : Running caller m) (h : step setup (fuel + 1) m = .done () m') :
    Running caller m' ∨ Kept caller m' := by
  have moved : ∀ target, Running caller (m.jump target) := fun _ => hrun.of_eq rfl rfl rfl
  cases step_cases h with
  | pastEnd _ => exact .inl hrun
  | effect _ _ he => exact (moved _).effect he
  | change _ _ hoperand _ he ho =>
    obtain ⟨instruction, hi, rfl⟩ := Option.map_eq_some_iff.1 hoperand
    have hkept := ih.instruction (hp _ (List.mem_of_getElem? hi)) (moved _) he
    obtain ⟨stack, rfl⟩ := overwrite_eq_done ho
    rcases hkept with hrun' | hk
    · exact .inl (hrun'.of_eq rfl rfl rfl)
    · exact .inr (hk.trans (.of_eq rfl rfl rfl rfl))
  | value hi _ he =>
    rcases ih.instruction (hp _ (List.mem_of_getElem? hi)) (moved _) he with hrun' | hk
    · exact .inl (hrun'.of_eq rfl rfl rfl)
    · exact .inr (hk.trans (.of_eq rfl rfl rfl rfl))

end Succ

theorem transparent {setup : Setup} (hp : setup.program.ReturnsOutermost) (fuel : Nat) :
    Transparent W I setup fuel := by
  induction fuel with
  | zero => exact transparent_zero setup
  | succ fuel ih =>
    exact ⟨eval_kept ih, evalArguments_kept ih, call_kept ih, instruction_kept ih, runUntil_kept ih,
      step_kept ih hp⟩

/-- A call that is done has left the caller's frames, with all that is in them, and the pointer as
they were, and no global variable has been added or lost. -/
theorem call_transparent {setup : Setup} (hp : setup.program.ReturnsOutermost) {fuel : Nat}
    {name : String} {arguments : List Node} {place : Position} {m m' : Machine W I} {value : Number}
    (harguments : ∀ node ∈ arguments, node.returnFree = true)
    (h : call setup fuel name arguments place m = .done value m')
    (hlive : m'.state.halted = false) :
    m'.state.frames = m.state.frames ∧ m'.state.pointer = m.state.pointer ∧
      ∀ global, m'.state.globals.contains global = m.state.globals.contains global := by
  have hk := (transparent hp fuel).call (Node.allReturnFree_iff.2 harguments) h
  obtain ⟨hf, hpointer⟩ := hk.live hlive
  exact ⟨hf, hpointer, hk.globals⟩

/-- A function that counts in a global variable and leaves a conditional by giving back its
parameter. -/
def countingProgram : Program := .ofNodes
  [.define "count" ["step"], .binary .add (.variable "total") (.variable "step"),
    .keyword .write, .variable "total", .keyword .check,
    .unary .giveBack (.variable "step"), .keyword .break, .keyword .break]

/-- A machine in the middle of another call. -/
def countingMachine : Machine :=
  { state := { pointer := 5, globals := ⟨[("total", 1)]⟩,
               frames := [⟨"caller", 3, ⟨[("x", 2)]⟩⟩],
               functions := ⟨[("count", ⟨0, 7, ["step"]⟩)]⟩ } }

theorem call_transparent_counting :
    ∃ value m', call ⟨countingProgram, 200⟩ 20 "count" [.variable "x"] {} countingMachine
        = .done value m' ∧ m'.state.halted = false ∧
      m'.state.frames = countingMachine.state.frames ∧ m'.state.pointer = 5 ∧
      ∀ global, m'.state.globals.contains global = countingMachine.state.globals.contains global := by
  have hp : (⟨countingProgram, 200⟩ : Setup).program.ReturnsOutermost := by decide
  have harguments : ∀ node ∈ [Node.variable "x"], node.returnFree = true := by decide
  have h : call ⟨countingProgram, 200⟩ 20 "count" [.variable "x"] {} countingMachine
      = .done _ _ := rfl
  exact ⟨_, _, h, rfl, call_transparent hp harguments h rfl⟩

end Machine
end VerbScript
