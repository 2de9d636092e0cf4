import VerbScript.Proofs.Trace

/-!
# VerbScript.Proofs.FrameLimit

The limit on calls holds whenever an instruction is executed, in every program.

A call tests the limit before its arguments are evaluated and pushes its frame after that. In
between, arguments may call, give back a value in the middle of an expression, which takes a frame of
the caller off, or end the program, which leaves frames behind.

* `NoDeeper m m'`: unless the program has ended itself, no more calls are in progress in `m'` than in
  `m`. `staysShallow`: this holds across every evaluation and every step, by one induction on the
  fuel.
* `WithinLimit`: what every activity of a run therefore begins with, so that the limit holds at every
  step (`frames_within_limit`).
-/

namespace VerbScript

variable {W I : Type}

namespace Machine

/-- Unless the program has ended itself, it had not done so before, and no more calls are in progress
than before. -/
def NoDeeper (m m' : Machine W I) : Prop :=
  m'.state.halted = false →
    m.state.halted = false ∧ m'.state.frames.length ≤ m.state.frames.length

theorem NoDeeper.refl (m : Machine W I) : NoDeeper m m := by
  intro hlive
  exact ⟨hlive, Nat.le_refl _⟩

theorem NoDeeper.trans {m₁ m₂ m₃ : Machine W I} (h : NoDeeper m₁ m₂) (h' : NoDeeper m₂ m₃) :
    NoDeeper m₁ m₃ := by
  intro hlive
  obtain ⟨hlive₂, hle₂⟩ := h' hlive
  obtain ⟨hlive₁, hle₁⟩ := h hlive₂
  exact ⟨hlive₁, Nat.le_trans hle₂ hle₁⟩

theorem NoDeeper.of_eq {m m' : Machine W I} (hh : m'.state.halted = m.state.halted)
    (hf : m'.state.frames.length = m.state.frames.length) : NoDeeper m m' := by
  intro hlive
  exact ⟨hh.symm.trans hlive, Nat.le_of_eq hf⟩

theorem giveBack_noDeeper {m m' : Machine W I} {value result : Number} {place : Position}
    (h : m.giveBack value place = .done result m') : NoDeeper m m' := by
  obtain ⟨-, frame, rest, hf, rfl⟩ := giveBack_eq_done h
  intro hlive
  exact ⟨hlive, by rw [hf]; exact Nat.le_succ _⟩

theorem applyUnary_noDeeper {m m' : Machine W I} {op : UnaryOperator} {value result : Number}
    {place : Position} (h : m.applyUnary op value place = .done result m') : NoDeeper m m' := by
  cases op with
  | giveBack => exact giveBack_noDeeper h
  | paste => cases h; exact .of_eq rfl rfl
  | negate => cases h; exact .refl m
  | not => cases h; exact .refl m

theorem Effect.noDeeper {programLength : Nat} {m m' : Machine W I} (h : Effect programLength m m') :
    NoDeeper m m' := by
  cases h with
  | jump target => exact .of_eq rfl rfl
  | write sink => exact .of_eq rfl rfl
  | stack stack => exact .of_eq rfl rfl
  | assign target input sink name value =>
    exact .of_eq (assign_halted _ name value) (length_assign_frames _ name value)
  | halt => intro hlive; cases hlive
  | giveBack value hf =>
    intro hlive
    exact ⟨hlive, by rw [hf]; exact Nat.le_succ _⟩
  | define functions target => exact .of_eq rfl rfl

/-! ## Evaluation and execution -/

/-- No evaluation and no step with some fuel leaves more calls in progress than it found, and the
steps of a body leave no more than are asked for. -/
structure StaysShallow (W I : Type) [Writer W] [LineSource I] (setup : Setup) (fuel : Nat) : Prop where
  eval : ∀ {node place value} {m m' : Machine W I},
    Machine.eval setup fuel node place m = .done value m' → NoDeeper m m'
  evalArguments : ∀ {nodes place values} {m m' : Machine W I},
    Machine.evalArguments setup fuel nodes place m = .done values m' → NoDeeper m m'
  call : ∀ {name nodes place value} {m m' : Machine W I},
    Machine.call setup fuel name nodes place m = .done value m' → NoDeeper m m'
  runUntil : ∀ {depth name place} {m m' : Machine W I},
    Machine.runUntil setup fuel depth name place m = .done () m' → m'.state.halted = false →
    m.state.halted = false ∧ m'.state.frames.length ≤ depth
  step : ∀ {m m' : Machine W I}, Machine.step setup fuel m = .done () m' → NoDeeper m m'

variable [Writer W] [LineSource I]

theorem staysShallow_zero (setup : Setup) : StaysShallow W I setup 0 where
  eval h := by simp [Machine.eval] at h
  evalArguments h := by simp [Machine.evalArguments] at h
  call h := by simp [Machine.call] at h
  runUntil h := by simp [Machine.runUntil] at h
  step h := by simp [Machine.step] at h

section Succ

variable {setup : Setup} {fuel : Nat} (ih : StaysShallow W I setup fuel)
include ih

theorem eval_noDeeper {node : Node} {place : Position} {m m' : Machine W I} {value : Number}
    (h : eval setup (fuel + 1) node place m = .done value m') : NoDeeper m m' := by
  cases node with
  | number x => simp only [eval] at h; cases h; exact .refl m
  | «variable» name =>
    simp only [eval] at h
    split at h
    · cases h; exact .refl m
    · cases h
  | binary op left right =>
    simp only [eval] at h
    obtain ⟨a, m₁, hl, h⟩ := Outcome.andThen_eq_done h
    obtain ⟨b, m₂, hr, h⟩ := Outcome.andThen_eq_done h
    have hboth := (ih.eval hl).trans (ih.eval hr)
    split at h
    · cases h; exact hboth
    · cases h
  | unary op operand =>
    simp only [eval] at h
    obtain ⟨a, m₁, ho, h⟩ := Outcome.andThen_eq_done h
    exact (ih.eval ho).trans (applyUnary_noDeeper h)
  | call name nodes =>
    simp only [eval] at h
    exact ih.call h
  | pop =>
    simp only [eval, pop] at h
    split at h
    · cases h
    · cases h; exact .of_eq rfl rfl
  | keyword k => simp only [eval] at h; cases h
  | label => simp only [eval] at h; cases h
  | define name parameters => simp only [eval] at h; cases h

theorem evalArguments_noDeeper {nodes : List Node} {place : Position} {m m' : Machine W I}
    {values : List Number} (h : evalArguments setup (fuel + 1) nodes place m = .done values m') :
    NoDeeper m m' := by
  cases nodes with
  | nil => simp only [evalArguments] at h; cases h; exact .refl m
  | cons node rest =>
    simp only [evalArguments] at h
    obtain ⟨value, m₁, he, h⟩ := Outcome.andThen_eq_done h
    obtain ⟨values', m₂, hr, h⟩ := Outcome.andThen_eq_done h
    cases h
    exact (ih.eval he).trans (ih.evalArguments hr)

/-- What the arguments did to the frames does not matter: the steps of the body are executed until
there are as few as before the call. -/
theorem call_noDeeper {name : String} {nodes : List Node} {place : Position} {m m' : Machine W I}
    {value : Number} (h : call setup (fuel + 1) name nodes place m = .done value m') :
    NoDeeper m m' := by
  obtain ⟨entry, values, m₁, -, ha, hr, -⟩ := call_eq_done h
  intro hlive
  obtain ⟨hlive₁, hle⟩ := ih.runUntil hr hlive
  exact ⟨(ih.evalArguments ha hlive₁).1, hle⟩

theorem runUntil_noDeeper {depth : Nat} {name : String} {place : Position} {m m' : Machine W I}
    (h : runUntil setup (fuel + 1) depth name place m = .done () m')
    (hlive : m'.state.halted = false) :
    m.state.halted = false ∧ m'.state.frames.length ≤ depth := by
  by_cases hdepth : m.state.frames.length ≤ depth
  · simp only [runUntil] at h
    rw [if_pos hdepth] at h
    cases h
    exact ⟨hlive, hdepth⟩
  · cases hm : m.state.halted with
    | true =>
      cases runUntil_of_halted h hm
      rw [hm] at hlive
      cases hlive
    | false =>
      by_cases hend : m.state.pointer < setup.program.length
      · rw [runUntil_active (by omega) hm hend] at h
        obtain ⟨_, m₁, -, h⟩ := Outcome.andThen_eq_done h
        exact ⟨rfl, (ih.runUntil h hlive).2⟩
      · simp only [runUntil] at h
        rw [if_neg hdepth, if_neg (by simp [hm]), if_pos (by omega)] at h
        cases h

theorem step_noDeeper {m m' : Machine W I} (h : step setup (fuel + 1) m = .done () m') :
    NoDeeper m m' := by
  have moved : ∀ target, NoDeeper m (m.jump target) := fun _ => .of_eq rfl rfl
  cases step_cases h with
  | pastEnd _ => exact .refl m
  | effect _ _ he => exact (moved _).trans he.noDeeper
  | change _ _ _ _ he ho =>
    obtain ⟨stack, rfl⟩ := overwrite_eq_done ho
    exact ((moved _).trans (ih.eval he)).trans (.of_eq rfl rfl)
  | value _ _ he => exact ((moved _).trans (ih.eval he)).trans (.of_eq rfl rfl)

end Succ

theorem staysShallow (setup : Setup) (fuel : Nat) : StaysShallow W I setup fuel := by
  induction fuel with
  | zero => exact staysShallow_zero setup
  | succ fuel ih =>
    exact ⟨eval_noDeeper ih, evalArguments_noDeeper ih, call_noDeeper ih, runUntil_noDeeper ih,
      step_noDeeper ih⟩

end Machine

namespace Activity

open Machine

/-- The activity begins with at most as many calls in progress as are allowed, unless the program has
ended itself. -/
def WithinLimit (setup : Setup) (a : Activity W I) : Prop :=
  a.machine.state.halted = false → a.machine.state.frames.length ≤ setup.depthLimit

theorem WithinLimit.noDeeper {setup : Setup} {a b : Activity W I} (h : WithinLimit setup a)
    (hab : NoDeeper a.machine b.machine) : WithinLimit setup b := by
  intro hlive
  obtain ⟨hlive', hle⟩ := hab hlive
  exact Nat.le_trans hle (h hlive')

variable [Writer W] [LineSource I]

theorem WithinLimit.of_begins {setup : Setup} {a b : Activity W I} (h : WithinLimit setup a)
    (hab : Begins setup a b) : WithinLimit setup b := by
  cases hab with
  | right hl => exact h.noDeeper ((staysShallow setup _).eval hl)
  | body ha he =>
    -- the limit was tested before the arguments were evaluated, and they leave no more frames
    intro hlive
    obtain ⟨-, hle⟩ := (staysShallow setup _).evalArguments he hlive
    have hroom := ha.room
    show _ + 1 ≤ setup.depthLimit
    omega
  | step _ => exact h
  | value _ _ => exact h
  | change _ _ _ _ => exact h
  | left => exact h
  | operand => exact h
  | call => exact h
  | arguments _ => exact h
  | argument => exact h
  | bodyStep _ _ _ => exact h

theorem WithinLimit.of_goesOn {setup : Setup} {a a' : Activity W I} (h : WithinLimit setup a)
    (haa : GoesOn setup a a') : WithinLimit setup a' := by
  cases haa with
  | run _ hs => exact h.noDeeper ((staysShallow setup _).step hs)
  | arguments he => exact h.noDeeper ((staysShallow setup _).eval he)
  | body _ _ _ hs => exact h.noDeeper ((staysShallow setup _).step hs)

theorem InProgress.withinLimit {setup : Setup} {m : Machine W I} {stack : List (Activity W I)}
    (h : InProgress setup m stack) (hm : WithinLimit setup (.run m)) :
    ∀ a outer, stack = a :: outer → WithinLimit setup a := by
  induction h with
  | start =>
    intro a outer heq
    cases heq
    exact hm
  | begins _ hab ih =>
    intro b outer heq
    cases heq
    exact (ih _ _ rfl).of_begins hab
  | goesOn _ haa ih =>
    intro a' outer heq
    cases heq
    exact (ih _ _ rfl).of_goesOn haa

/-- No step is begun after the program has ended itself. -/
theorem InProgress.step_live {setup : Setup} {m₀ m : Machine W I} {outer : List (Activity W I)}
    (h : InProgress setup m₀ (.step m :: outer)) : m.state.halted = false := by
  cases h with
  | begins _ hab =>
    cases hab with
    | step hf =>
      simp only [isFinished, Bool.or_eq_false_iff] at hf
      exact hf.1
    | bodyStep _ hlive _ => exact hlive
  | goesOn _ haa => cases haa

/-- In every run, whenever a step begins, at the top or in a call, at most as many calls are in
progress as are allowed; and every evaluation that is done without having ended the program leaves
no more calls in progress than it found. -/
theorem frames_within_limit (setup : Setup) :
    (∀ (input : I) (sink : W) m outer,
      InProgress setup ⟨.initial, input, sink⟩ (.step m :: outer) →
      m.state.frames.length ≤ setup.depthLimit) ∧
    ∀ fuel node place (m : Machine W I) value m',
      Machine.eval setup fuel node place m = .done value m' →
      m'.state.halted = false → m'.state.frames.length ≤ m.state.frames.length := by
  constructor
  · intro input sink m outer h
    exact h.withinLimit (fun _ => Nat.zero_le _) _ _ rfl h.step_live
  · intro fuel node place m value m' h hlive
    exact ((staysShallow setup fuel).eval h hlive).2

/-- A function that gives a value back and then, in the same expression, calls another one. -/
def givesBackInside : Program := .ofNodes
  [.define "g" [], .keyword .break, .define "f" [],
    .binary .add (.unary .giveBack .pop) (.call "g" []), .keyword .break, .call "f" []]

/-- A machine in the body of that function. -/
def insideCall : Machine :=
  { state := { pointer := 4, frames := [⟨"f", 6, {}⟩], stack := [0],
               functions := ⟨[("g", ⟨0, 1, []⟩), ("f", ⟨2, 4, []⟩)]⟩ } }

theorem frames_within_limit_givesBackInside :
    (∃ m outer, InProgress ⟨givesBackInside, 1⟩ {} (.step m :: outer) ∧
      m.state.frames.map Frame.function = ["f"] ∧ m.state.frames.length ≤ 1) ∧
    ∃ value m', Machine.eval ⟨givesBackInside, 1⟩ 20
        (.binary .add (.unary .giveBack .pop) (.call "g" [])) {} insideCall = .done value m' ∧
      m'.state.halted = false ∧ m'.state.frames.length ≤ 1 := by
  obtain ⟨hsteps, hevals⟩ := frames_within_limit (W := Sink) (I := Input) ⟨givesBackInside, 1⟩
  constructor
  · have h₁ := InProgress.start.goesOn (@GoesOn.run _ _ _ _ ⟨givesBackInside, 1⟩ {} _ 1 rfl rfl)
    have h₂ := h₁.goesOn (@GoesOn.run _ _ _ _ ⟨givesBackInside, 1⟩ _ _ 1 rfl rfl)
    have h₃ := ((h₂.begins (.step rfl)).begins (.value rfl rfl)).begins .call
    have h₄ := h₃.begins
      (@Begins.body _ _ _ _ ⟨givesBackInside, 1⟩ "f" [] _ _ _ _ [] 1 ⟨rfl, rfl, by decide⟩ rfl)
    have h₅ := h₄.begins (.bodyStep (by decide) rfl (by decide))
    exact ⟨_, _, h₅, rfl, hsteps [] {} _ _ h₅⟩
  · have heval : Machine.eval ⟨givesBackInside, 1⟩ 20
        (.binary .add (.unary .giveBack .pop) (.call "g" [])) {} insideCall = .done _ _ := rfl
    exact ⟨_, _, heval, rfl, hevals _ _ _ _ _ _ heval rfl⟩

end Activity
end VerbScript
