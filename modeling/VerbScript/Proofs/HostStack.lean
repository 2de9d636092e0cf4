import Mathlib
import VerbScript.Machine.Fuel
import VerbScript.Proofs.Transparency
import VerbScript.Script

/-!
# VerbScript.Proofs.HostStack

How deeply calls nest while a program runs.

A call runs its body by the same steps that the caller is in the middle of, so a run is at every
moment a stack of activities. `InProgress setup m stack` says that the activities of `stack`, the
innermost first, are in progress at one moment of the run of `m`, whether or not the run ends.

* `InProgress.run_faults`: a fault of the innermost activity is the fault of the run.
* `InProgress.fits`: the invariant that relates the activities in progress to the frames of the
  machine, in programs that give back a value only by the outermost operator of an instruction.
* `calls_in_progress`: no more bodies are in progress than calls are allowed, so many more calls as
  one instruction nests in arguments, and a call beyond that is a fault of the run.
* `calls_exceed_limit`: without such a factor, and where a value is given back inside an
  expression, more calls are in progress than are allowed.
-/

namespace VerbScript

variable {W I : Type}

open Outcome

namespace Node

mutual

/-- How deeply calls stand in the arguments of calls. -/
def callNesting : Node → Nat
  | .binary _ left right => max left.callNesting right.callNesting
  | .unary _ operand => operand.callNesting
  | .call _ arguments => argumentNesting arguments + 1
  | _ => 0

def argumentNesting : List Node → Nat
  | [] => 0
  | node :: rest => max node.callNesting (argumentNesting rest)

end

end Node

/-- How deeply calls stand in the arguments of calls, in one instruction. -/
def Program.callNesting (p : Program) : Nat :=
  p.foldr (fun instruction deepest => max instruction.value.callNesting deepest) 0

theorem Program.callNesting_le {p : Program} {instruction : Located Node} (h : instruction ∈ p) :
    instruction.value.callNesting ≤ p.callNesting := by
  induction p with
  | nil => cases h
  | cons first rest ih =>
    simp only [Program.callNesting, List.foldr_cons] at ih ⊢
    rcases List.mem_cons.1 h with rfl | h
    · exact Nat.le_max_left _ _
    · exact Nat.le_trans (ih h) (Nat.le_max_right _ _)

/-- What the machine can be in the middle of. -/
inductive Activity (W : Type := Sink) (I : Type := Input) where
  | run (m : Machine W I)
  | step (m : Machine W I)
  | eval (node : Node) (place : Position) (m : Machine W I)
  | arguments (nodes : List Node) (place : Position) (m : Machine W I)
  | call (name : String) (nodes : List Node) (place : Position) (m : Machine W I)
  /-- The steps of a body, until at most `depth` calls are in progress. -/
  | body (depth : Nat) (name : String) (place : Position) (m : Machine W I)

namespace Activity

def isCall : Activity W I → Bool
  | .call _ _ _ _ => true
  | _ => false

def isBody : Activity W I → Bool
  | .body _ _ _ _ => true
  | _ => false

/-- How many calls are in progress. -/
def calls (stack : List (Activity W I)) : Nat := stack.countP isCall

/-- How many calls are in the middle of their body. -/
def bodies (stack : List (Activity W I)) : Nat := stack.countP isBody

theorem calls_cons (a : Activity W I) (stack : List (Activity W I)) :
    calls (a :: stack) = calls stack + if a.isCall then 1 else 0 := List.countP_cons

theorem bodies_cons (a : Activity W I) (stack : List (Activity W I)) :
    bodies (a :: stack) = bodies stack + if a.isBody then 1 else 0 := List.countP_cons

variable [Writer W] [LineSource I]

/-- The first activity begins the second one as a part of itself. -/
inductive Begins (setup : Setup) : Activity W I → Activity W I → Prop where
  | step {m : Machine W I} : m.isFinished setup = false → Begins setup (.run m) (.step m)
  | value {m : Machine W I} {node : Node} {place : Position} :
      setup.program[m.state.pointer]? = some ⟨node, place⟩ → node.isMarker = false →
      Begins setup (.step m) (.eval node place (m.jump (m.state.pointer + 1)))
  | change {m : Machine W I} {operand : Node} {place : Position} {value : Number} :
      setup.program[m.state.pointer]? = some ⟨.keyword .change, place⟩ →
      m.state.lastValue = some value →
      setup.program.node? (m.state.pointer + 1) = some operand → operand.isMarker = false →
      Begins setup (.step m) (.eval operand place (m.jump (m.state.pointer + 2)))
  | left {op : BinaryOperator} {left right : Node} {place : Position} {m : Machine W I} :
      Begins setup (.eval (.binary op left right) place m) (.eval left place m)
  | right {op : BinaryOperator} {left right : Node} {place : Position} {m m₁ : Machine W I}
      {value : Number} {fuel : Nat} : Machine.eval setup fuel left place m = .done value m₁ →
      Begins setup (.eval (.binary op left right) place m) (.eval right place m₁)
  | operand {op : UnaryOperator} {operand : Node} {place : Position} {m : Machine W I} :
      Begins setup (.eval (.unary op operand) place m) (.eval operand place m)
  | call {name : String} {nodes : List Node} {place : Position} {m : Machine W I} :
      Begins setup (.eval (.call name nodes) place m) (.call name nodes place m)
  | arguments {name : String} {nodes : List Node} {place : Position} {m : Machine W I}
      {entry : FunctionEntry} : m.Admitted setup name nodes entry →
      Begins setup (.call name nodes place m) (.arguments nodes place m)
  | argument {node : Node} {nodes : List Node} {place : Position} {m : Machine W I} :
      Begins setup (.arguments (node :: nodes) place m) (.eval node place m)
  | body {name : String} {nodes : List Node} {place : Position} {m m₁ : Machine W I}
      {entry : FunctionEntry} {values : List Number} {fuel : Nat} :
      m.Admitted setup name nodes entry →
      Machine.evalArguments setup fuel nodes place m = .done values m₁ →
      Begins setup (.call name nodes place m)
        (.body m.state.frames.length name place (m₁.enter name entry values))
  | bodyStep {depth : Nat} {name : String} {place : Position} {m : Machine W I} :
      depth < m.state.frames.length → m.state.halted = false →
      m.state.pointer < setup.program.length → Begins setup (.body depth name place m) (.step m)

/-- The first activity goes on as the second one: the next round of a loop. -/
inductive GoesOn (setup : Setup) : Activity W I → Activity W I → Prop where
  | run {m m' : Machine W I} {fuel : Nat} : m.isFinished setup = false →
      Machine.step setup fuel m = .done () m' → GoesOn setup (.run m) (.run m')
  | arguments {node : Node} {nodes : List Node} {place : Position} {m m' : Machine W I}
      {value : Number} {fuel : Nat} : Machine.eval setup fuel node place m = .done value m' →
      GoesOn setup (.arguments (node :: nodes) place m) (.arguments nodes place m')
  | body {depth : Nat} {name : String} {place : Position} {m m' : Machine W I} {fuel : Nat} :
      depth < m.state.frames.length → m.state.halted = false →
      m.state.pointer < setup.program.length → Machine.step setup fuel m = .done () m' →
      GoesOn setup (.body depth name place m) (.body depth name place m')

/-- The activities that are in progress at one moment of the run of a machine. -/
inductive InProgress (setup : Setup) (m : Machine W I) : List (Activity W I) → Prop where
  | start : InProgress setup m [.run m]
  | begins {a b : Activity W I} {outer : List (Activity W I)} :
      InProgress setup m (a :: outer) → Begins setup a b → InProgress setup m (b :: a :: outer)
  | goesOn {a a' : Activity W I} {outer : List (Activity W I)} :
      InProgress setup m (a :: outer) → GoesOn setup a a' → InProgress setup m (a' :: outer)

/-! ## Faults -/

/-- The activity ends with a fault. -/
def Faults (setup : Setup) (cause : Located Fault) (m' : Machine W I) : Activity W I → Prop
  | .run m => Settles (fun fuel => Machine.run setup fuel m) (.fault cause m')
  | .step m => Settles (fun fuel => Machine.step setup fuel m) (.fault cause m')
  | .eval node place m => Settles (fun fuel => Machine.eval setup fuel node place m) (.fault cause m')
  | .arguments nodes place m =>
    Settles (fun fuel => Machine.evalArguments setup fuel nodes place m) (.fault cause m')
  | .call name nodes place m =>
    Settles (fun fuel => Machine.call setup fuel name nodes place m) (.fault cause m')
  | .body depth name place m =>
    Settles (fun fuel => Machine.runUntil setup fuel depth name place m) (.fault cause m')

theorem Faults.of_begins {setup : Setup} {cause : Located Fault} {m' : Machine W I}
    {a b : Activity W I} (hab : Begins setup a b) (h : Faults setup cause m' b) :
    Faults setup cause m' a := by
  cases hab with
  | step hf =>
    refine Settles.of_succ ?_
    simp only [Machine.run_active hf]
    exact h.andThen_fault
  | value hi hm =>
    refine Settles.of_succ ?_
    simp only [Machine.step_value hi hm]
    exact h.andThen_fault
  | change hi hv ho hm =>
    refine Settles.of_succ ?_
    simp only [Machine.step_change hi hv ho hm]
    exact h.andThen_fault
  | left =>
    refine Settles.of_succ ?_
    simp only [Machine.eval]
    exact h.andThen_fault
  | right hl =>
    have hl' := (Machine.eval_stable setup _ _ _).settles hl (by simp)
    refine Settles.of_succ ?_
    simp only [Machine.eval]
    exact hl'.andThen h.andThen_fault
  | operand =>
    refine Settles.of_succ ?_
    simp only [Machine.eval]
    exact h.andThen_fault
  | call =>
    refine Settles.of_succ ?_
    simp only [Machine.eval]
    exact h
  | arguments ha =>
    refine Settles.of_succ ?_
    simp only [Machine.call_admitted ha]
    exact h.andThen_fault
  | argument =>
    refine Settles.of_succ ?_
    simp only [Machine.evalArguments]
    exact h.andThen_fault
  | body ha he =>
    have he' := (Machine.evalArguments_stable setup _ _ _).settles he (by simp)
    refine Settles.of_succ ?_
    simp only [Machine.call_admitted ha]
    exact he'.andThen h.andThen_fault
  | bodyStep hd hh hp =>
    refine Settles.of_succ ?_
    simp only [Machine.runUntil_active hd hh hp]
    exact h.andThen_fault

theorem Faults.of_goesOn {setup : Setup} {cause : Located Fault} {m' : Machine W I}
    {a a' : Activity W I} (haa : GoesOn setup a a') (h : Faults setup cause m' a') :
    Faults setup cause m' a := by
  cases haa with
  | run hf hs =>
    have hs' := (Machine.step_stable setup _).settles hs (by simp)
    refine Settles.of_succ ?_
    simp only [Machine.run_active hf]
    exact hs'.andThen h
  | arguments he =>
    have he' := (Machine.eval_stable setup _ _ _).settles he (by simp)
    refine Settles.of_succ ?_
    simp only [Machine.evalArguments]
    exact he'.andThen h.andThen_fault
  | body hd hh hp hs =>
    have hs' := (Machine.step_stable setup _).settles hs (by simp)
    refine Settles.of_succ ?_
    simp only [Machine.runUntil_active hd hh hp]
    exact hs'.andThen h

/-- A fault of the innermost activity is the fault of the run. -/
theorem InProgress.run_faults {setup : Setup} {m : Machine W I} {stack : List (Activity W I)}
    (h : InProgress setup m stack) {cause : Located Fault} {m' : Machine W I} :
    ∀ a outer, stack = a :: outer → Faults setup cause m' a → Faults setup cause m' (.run m) := by
  induction h with
  | start =>
    intro a outer heq hf
    cases heq
    exact hf
  | begins _ hab ih =>
    intro b outer heq hf
    cases heq
    exact ih _ _ rfl (.of_begins hab hf)
  | goesOn _ haa ih =>
    intro a' outer heq hf
    cases heq
    exact ih _ _ rfl (.of_goesOn haa hf)

/-! ## Activities and frames -/

/-- What holds of the innermost activity when so many bodies and calls are in progress: there is a
frame for each body, and the calls that are still to be made in the arguments of the current
instruction are accounted for. -/
def Fits (setup : Setup) (bodies calls : Nat) : Activity W I → Prop
  | .run _ => bodies = 0 ∧ calls = 0
  | .step m => bodies ≤ m.state.frames.length ∧ calls ≤ setup.program.callNesting * bodies
  | .eval node _ m => node.returnsOutermost = true ∧ bodies ≤ m.state.frames.length ∧
    calls + node.callNesting ≤ setup.program.callNesting * (bodies + 1)
  | .arguments nodes _ m => Node.allReturnFree nodes = true ∧ bodies ≤ m.state.frames.length ∧
    calls + Node.argumentNesting nodes ≤ setup.program.callNesting * (bodies + 1)
  | .call _ nodes _ m => Node.allReturnFree nodes = true ∧ bodies ≤ m.state.frames.length ∧
    calls + Node.argumentNesting nodes ≤ setup.program.callNesting * (bodies + 1)
  | .body depth _ _ _ => bodies ≤ depth + 1 ∧ calls ≤ setup.program.callNesting * bodies

theorem returnsOutermost_of_returnFree {node : Node} (h : node.returnFree = true) :
    node.returnsOutermost = true := by
  unfold Node.returnsOutermost
  split
  · simp [Node.returnFree] at h
  · exact h

section

variable {setup : Setup} (hp : setup.program.ReturnsOutermost)
include hp

theorem frames_le_of_eval {node : Node} {place : Position} {m m' : Machine W I} {value : Number}
    {fuel : Nat} (hnode : node.returnFree = true)
    (h : Machine.eval setup fuel node place m = .done value m') :
    m.state.frames.length ≤ m'.state.frames.length :=
  ((Machine.transparent hp fuel).eval hnode h).frames.length_le

omit [Writer W] [LineSource I] in
theorem fits_eval {node : Node} {place : Position} {m m' : Machine W I} {i bodies calls : Nat}
    (hi : setup.program.node? i = some node) (hframes : m'.state.frames = m.state.frames)
    (h : Fits setup bodies calls (.step m)) : Fits setup bodies calls (.eval node place m') := by
  obtain ⟨instruction, hget, rfl⟩ := Option.map_eq_some_iff.1 hi
  have hmem := List.mem_of_getElem? hget
  have hnest := Program.callNesting_le hmem
  obtain ⟨hb, hc⟩ := h
  refine ⟨hp _ hmem, by rw [hframes]; exact hb, ?_⟩
  rw [Nat.mul_succ]
  omega

theorem Fits.of_begins {a b : Activity W I} {bodies calls : Nat} (h : Fits setup bodies calls a)
    (hab : Begins setup a b) :
    Fits setup (bodies + if b.isBody then 1 else 0) (calls + if b.isCall then 1 else 0) b := by
  cases hab with
  | step _ =>
    obtain ⟨rfl, rfl⟩ := h
    exact ⟨Nat.zero_le _, Nat.zero_le _⟩
  | value hi _ => exact fits_eval hp (by rw [Program.node?, hi]; rfl) rfl h
  | change _ _ ho _ => exact fits_eval hp ho rfl h
  | left =>
    obtain ⟨hr, hb, hc⟩ := h
    simp only [Node.returnsOutermost, Node.returnFree, Bool.and_eq_true] at hr
    simp only [Node.callNesting] at hc
    exact ⟨returnsOutermost_of_returnFree hr.1, hb, by simp [isBody, isCall]; omega⟩
  | right hl =>
    obtain ⟨hr, hb, hc⟩ := h
    simp only [Node.returnsOutermost, Node.returnFree, Bool.and_eq_true] at hr
    simp only [Node.callNesting] at hc
    have hle := frames_le_of_eval hp hr.1 hl
    exact ⟨returnsOutermost_of_returnFree hr.2, Nat.le_trans hb hle, by
      simp [isBody, isCall]; omega⟩
  | @operand op operand place m =>
    obtain ⟨hr, hb, hc⟩ := h
    have hfree : operand.returnFree = true := by
      cases op <;> simp_all [Node.returnsOutermost, Node.returnFree]
    exact ⟨returnsOutermost_of_returnFree hfree, hb, hc⟩
  | call =>
    obtain ⟨hr, hb, hc⟩ := h
    simp only [Node.callNesting] at hc
    exact ⟨hr, hb, by simp [isBody, isCall]; omega⟩
  | arguments _ => exact h
  | argument =>
    obtain ⟨hr, hb, hc⟩ := h
    simp only [Node.allReturnFree, Bool.and_eq_true] at hr
    simp only [Node.argumentNesting] at hc
    exact ⟨returnsOutermost_of_returnFree hr.1, hb, by simp [isBody, isCall]; omega⟩
  | body _ _ =>
    obtain ⟨-, hb, hc⟩ := h
    exact ⟨Nat.succ_le_succ hb, by simp [isBody, isCall]; omega⟩
  | bodyStep hd _ _ =>
    obtain ⟨hb, hc⟩ := h
    exact ⟨by simp [isBody]; omega, hc⟩

theorem Fits.of_goesOn {a a' : Activity W I} {bodies calls : Nat} (h : Fits setup bodies calls a)
    (haa : GoesOn setup a a') : Fits setup bodies calls a' := by
  cases haa with
  | run _ _ => exact h
  | arguments he =>
    obtain ⟨hr, hb, hc⟩ := h
    simp only [Node.allReturnFree, Bool.and_eq_true] at hr
    simp only [Node.argumentNesting] at hc
    exact ⟨hr.2, Nat.le_trans hb (frames_le_of_eval hp hr.1 he), by omega⟩
  | body _ _ _ _ => exact h

end

/-- The invariant of the activities in progress. -/
structure Bounded (setup : Setup) (a : Activity W I) (outer : List (Activity W I)) : Prop where
  fits : Fits setup (bodies (a :: outer)) (calls (a :: outer)) a
  bodies : bodies (a :: outer) ≤ setup.depthLimit
  calls : calls outer ≤ setup.depthLimit * setup.program.callNesting

omit [Writer W] [LineSource I] in
/-- A call that nothing speaks against leaves room for the calls of its instruction. -/
theorem Bounded.admitted {setup : Setup} {outer : List (Activity W I)} {name : String}
    {nodes : List Node} {place : Position} {m : Machine W I} {entry : FunctionEntry}
    (h : Bounded setup (.call name nodes place m) outer) (ha : m.Admitted setup name nodes entry) :
    Activity.bodies (.call name nodes place m :: outer) < setup.depthLimit ∧
      Activity.calls (.call name nodes place m :: outer)
        ≤ setup.depthLimit * setup.program.callNesting := by
  obtain ⟨-, hb, hc⟩ := h.fits
  have hlt := Nat.lt_of_le_of_lt hb ha.room
  refine ⟨hlt, ?_⟩
  have hmul := Nat.mul_le_mul_left setup.program.callNesting (Nat.succ_le_of_lt hlt)
  rw [Nat.mul_comm setup.depthLimit]
  simp only [Nat.succ_eq_add_one] at hmul
  omega

theorem Bounded.of_begins {setup : Setup} (hp : setup.program.ReturnsOutermost) {a b : Activity W I}
    {outer : List (Activity W I)} (h : Bounded setup a outer) (hab : Begins setup a b) :
    Bounded setup b (a :: outer) := by
  have hfits := h.fits.of_begins hp hab
  rw [← bodies_cons, ← calls_cons] at hfits
  have plain : b.isBody = false → a.isCall = false → Bounded setup b (a :: outer) := by
    intro hb ha
    refine ⟨hfits, ?_, ?_⟩
    · rw [bodies_cons, hb]; exact h.bodies
    · rw [calls_cons, ha]; exact h.calls
  cases hab with
  | arguments ha =>
    obtain ⟨-, hcalls⟩ := h.admitted ha
    exact ⟨hfits, by rw [bodies_cons]; exact h.bodies, hcalls⟩
  | body ha he =>
    obtain ⟨hbodies, hcalls⟩ := h.admitted ha
    exact ⟨hfits, by rw [bodies_cons]; exact hbodies, hcalls⟩
  | step _ => exact plain rfl rfl
  | value _ _ => exact plain rfl rfl
  | change _ _ _ _ => exact plain rfl rfl
  | left => exact plain rfl rfl
  | right _ => exact plain rfl rfl
  | operand => exact plain rfl rfl
  | call => exact plain rfl rfl
  | argument => exact plain rfl rfl
  | bodyStep _ _ _ => exact plain rfl rfl

theorem Bounded.of_goesOn {setup : Setup} (hp : setup.program.ReturnsOutermost) {a a' : Activity W I}
    {outer : List (Activity W I)} (h : Bounded setup a outer) (haa : GoesOn setup a a') :
    Bounded setup a' outer := by
  have hbody : a'.isBody = a.isBody := by cases haa <;> rfl
  have hcall : a'.isCall = a.isCall := by cases haa <;> rfl
  have hbodies : Activity.bodies (a' :: outer) = Activity.bodies (a :: outer) := by
    rw [bodies_cons, bodies_cons, hbody]
  have hcalls : Activity.calls (a' :: outer) = Activity.calls (a :: outer) := by
    rw [calls_cons, calls_cons, hcall]
  refine ⟨?_, by rw [hbodies]; exact h.bodies, h.calls⟩
  rw [hbodies, hcalls]
  exact h.fits.of_goesOn hp haa

theorem InProgress.bounded {setup : Setup} (hp : setup.program.ReturnsOutermost) {m : Machine W I}
    {stack : List (Activity W I)} (h : InProgress setup m stack) :
    ∃ a outer, stack = a :: outer ∧ Bounded setup a outer := by
  induction h with
  | start => exact ⟨_, _, rfl, ⟨rfl, rfl⟩, Nat.zero_le _, Nat.zero_le _⟩
  | begins _ hab ih =>
    obtain ⟨a, outer, heq, hb⟩ := ih
    cases heq
    exact ⟨_, _, rfl, hb.of_begins hp hab⟩
  | goesOn _ haa ih =>
    obtain ⟨a, outer, heq, hb⟩ := ih
    cases heq
    exact ⟨_, _, rfl, hb.of_goesOn hp haa⟩

/-- At no moment of a run are more bodies in progress than calls are allowed, and all calls in
progress, those that are still evaluating their arguments included, are at most as many times more
as one instruction nests calls in arguments. A call that is made when as many bodies are in progress
as are allowed ends the run with a fault. -/
theorem calls_in_progress {setup : Setup} (hp : setup.program.ReturnsOutermost) {m : Machine W I}
    {a : Activity W I} {outer : List (Activity W I)} (h : InProgress setup m (a :: outer)) :
    bodies (a :: outer) ≤ setup.depthLimit ∧
      calls outer ≤ setup.depthLimit * setup.program.callNesting ∧
      ∀ name nodes place m₁ entry, a = .call name nodes place m₁ →
        m₁.state.functions.get? name = some entry → entry.parameters.length = nodes.length →
        bodies outer = setup.depthLimit →
        ∃ fuel, Machine.run setup fuel m = .fault ⟨.callDepth setup.depthLimit, place⟩ m₁ := by
  obtain ⟨_, _, heq, hb⟩ := h.bounded hp
  cases heq
  refine ⟨hb.bodies, hb.calls, ?_⟩
  rintro name nodes place m₁ entry rfl hknown hcount hfull
  obtain ⟨-, hframes, -⟩ := hb.fits
  rw [bodies_cons, hfull] at hframes
  have hfault : Faults setup ⟨.callDepth setup.depthLimit, place⟩ m₁ (.call name nodes place m₁) := by
    refine Settles.of_succ ?_
    simp only [Machine.call_refused hknown hcount hframes]
    exact .const _
  exact (h.run_faults _ _ rfl hfault).exists

/-- A function that calls itself. -/
def recursing : Program := .ofNodes
  [.define "f" [], .call "f" [], .keyword .break, .call "f" []]

theorem calls_in_progress_recursing :
    ∃ a outer fuel m, InProgress ⟨recursing, 1⟩ {} (a :: outer) ∧ bodies outer = 1 ∧
      bodies (a :: outer) ≤ 1 ∧ calls outer ≤ 1 * 1 ∧
      Machine.run ⟨recursing, 1⟩ fuel {} = .fault ⟨.callDepth 1, ⟨2, 1⟩⟩ m := by
  have hp : (⟨recursing, 1⟩ : Setup).program.ReturnsOutermost := by decide
  have h₁ := InProgress.start.goesOn (@GoesOn.run _ _ _ _ ⟨recursing, 1⟩ {} _ 1 rfl rfl)
  have h₂ := ((h₁.begins (.step rfl)).begins (.value rfl rfl)).begins .call
  have h₃ := h₂.begins
    (@Begins.body _ _ _ _ ⟨recursing, 1⟩ "f" [] _ _ _ _ [] 1 ⟨rfl, rfl, by decide⟩ rfl)
  have h₄ := h₃.begins (.bodyStep (by decide) rfl (by decide))
  have h₅ := (h₄.begins (.value rfl rfl)).begins .call
  obtain ⟨hbodies, hcalls, hfault⟩ := calls_in_progress hp h₅
  obtain ⟨fuel, hrun⟩ := hfault _ _ _ _ _ rfl rfl rfl rfl
  exact ⟨_, _, fuel, _, h₅, rfl, hbodies, hcalls, hrun⟩

/-! ## More calls than are allowed -/

/-- `f(f(g()))`. -/
def nestedArguments : Program :=
  [⟨.define "g" [], ⟨1, 1⟩⟩, ⟨.keyword .break, ⟨1, 15⟩⟩,
   ⟨.define "f" ["a"], ⟨1, 21⟩⟩, ⟨.keyword .break, ⟨1, 36⟩⟩,
   ⟨.call "f" [.call "f" [.call "g" []]], ⟨1, 42⟩⟩]

theorem parse_nestedArguments :
    Script.parse "use () g code break use (a) f code break use (use (use () g call) f call) f call"
      = .ok nestedArguments := by
  cbv

/-- A function that gives a value back and then, in the same expression, calls itself. -/
def returnsInside : Program :=
  [⟨.define "g" [], ⟨1, 1⟩⟩, ⟨.keyword .break, ⟨1, 15⟩⟩,
   ⟨.call "g" [], ⟨1, 21⟩⟩, ⟨.keyword .save, ⟨1, 35⟩⟩, ⟨.keyword .save, ⟨1, 40⟩⟩,
   ⟨.define "f" [], ⟨1, 45⟩⟩,
   ⟨.binary .add (.unary .giveBack .pop) (.call "f" []), ⟨1, 59⟩⟩,
   ⟨.keyword .break, ⟨1, 100⟩⟩, ⟨.call "f" [], ⟨1, 106⟩⟩]

theorem parse_returnsInside :
    Script.parse ("use () g code break use () g call save save use () f code "
        ++ "zip fax unlock unzip touch use () f call break use () f call")
      = .ok returnsInside := by
  cbv

theorem nestedArguments_in_progress :
    ∃ a outer, InProgress ⟨nestedArguments, 1⟩ {} (a :: outer) ∧ calls outer = 2 := by
  have h₁ := InProgress.start.goesOn (@GoesOn.run _ _ _ _ ⟨nestedArguments, 1⟩ {} _ 1 rfl rfl)
  have h₂ := h₁.goesOn (@GoesOn.run _ _ _ _ ⟨nestedArguments, 1⟩ _ _ 1 rfl rfl)
  have h₃ := ((h₂.begins (.step rfl)).begins (.value rfl rfl)).begins .call
  have h₄ := (h₃.begins (.arguments ⟨rfl, rfl, by decide⟩)).begins .argument
  have h₅ := (h₄.begins .call).begins (.arguments ⟨rfl, rfl, by decide⟩)
  exact ⟨_, _, h₅, rfl⟩

theorem returnsInside_in_progress :
    ∃ a outer, InProgress ⟨returnsInside, 1⟩ {} (a :: outer) ∧ calls outer = 2 := by
  have h₁ := InProgress.start.goesOn (@GoesOn.run _ _ _ _ ⟨returnsInside, 1⟩ {} _ 1 rfl rfl)
  have h₂ := h₁.goesOn (@GoesOn.run _ _ _ _ ⟨returnsInside, 1⟩ _ _ 9 rfl rfl)
  have h₃ := h₂.goesOn (@GoesOn.run _ _ _ _ ⟨returnsInside, 1⟩ _ _ 1 rfl rfl)
  have h₄ := h₃.goesOn (@GoesOn.run _ _ _ _ ⟨returnsInside, 1⟩ _ _ 1 rfl rfl)
  have h₅ := h₄.goesOn (@GoesOn.run _ _ _ _ ⟨returnsInside, 1⟩ _ _ 1 rfl rfl)
  have h₆ := ((h₅.begins (.step rfl)).begins (.value rfl rfl)).begins .call
  have h₇ := h₆.begins
    (@Begins.body _ _ _ _ ⟨returnsInside, 1⟩ "f" [] _ _ _ _ [] 1 ⟨rfl, rfl, by decide⟩ rfl)
  have h₈ := (h₇.begins (.bodyStep (by decide) rfl (by decide))).begins (.value rfl rfl)
  -- the frame of the first call is gone when the second one is made
  have h₉ := h₈.begins (@Begins.right _ _ _ _ ⟨returnsInside, 1⟩ _ _ _ _ _ _ _ 2 rfl)
  have h₁₀ := (h₉.begins .call).begins
    (@Begins.body _ _ _ _ ⟨returnsInside, 1⟩ "f" [] _ _ _ _ [] 1 ⟨rfl, rfl, by decide⟩ rfl)
  exact ⟨_, _, h₁₀, rfl⟩

/-- Where one call is allowed, two are in progress at once and no fault tells so: while the arguments
of a call are evaluated, and after a value was given back inside an expression. -/
theorem calls_exceed_limit :
    (Script.parse "use () g code break use (a) f code break use (use (use () g call) f call) f call"
        = .ok nestedArguments ∧
      (∃ a outer, InProgress ⟨nestedArguments, 1⟩ {} (a :: outer) ∧ 1 < calls outer) ∧
      ∃ m, Machine.run ⟨nestedArguments, 1⟩ 20 {} = .done () m) ∧
    Script.parse ("use () g code break use () g call save save use () f code "
        ++ "zip fax unlock unzip touch use () f call break use () f call") = .ok returnsInside ∧
      (∃ a outer, InProgress ⟨returnsInside, 1⟩ {} (a :: outer) ∧ 1 < calls outer) ∧
      ∃ m, Machine.run ⟨returnsInside, 1⟩ 30 {} = .fault ⟨.stackUnderflow, ⟨1, 59⟩⟩ m := by
  obtain ⟨a, outer, h, hcalls⟩ := nestedArguments_in_progress
  obtain ⟨a', outer', h', hcalls'⟩ := returnsInside_in_progress
  exact ⟨⟨parse_nestedArguments, ⟨a, outer, h, by omega⟩, _, by cbv⟩, parse_returnsInside,
    ⟨a', outer', h', by omega⟩, _, by cbv⟩

end Activity
end VerbScript
