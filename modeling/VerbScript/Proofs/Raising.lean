import VerbScript.Proofs.HostStack

/-!
# VerbScript.Proofs.Raising

Where a fault comes from.

A fault of a run was raised by one of the activities that were in progress, and all around it only
pass it on.

* `Outcome.Refuses place sink o`: if `o` is a fault, it was raised at `place`, and since `sink` no text
  was written without a fault. All small actions and all instructions without an expression are such.
* `Activity.Raises`: an activity faults, and none of its parts does so. `Activity.exists_raiser`: a
  fault was raised by some part of the activity that faults, a part of a part and so on.
* `Activity.Raises.raisedBy`: what each kind of activity can raise, and where.
-/

namespace VerbScript

variable {W I : Type}

open Outcome

/-- Whether the fault is that a marker was evaluated. -/
def Fault.isNotAValue : Fault → Bool
  | .notAValue _ => true
  | _ => false

/-- The fault is at the place, and not that a marker was evaluated. -/
structure RaisedAt (place : Position) (cause : Located Fault) : Prop where
  position : cause.position = place
  value : cause.value.isNotAValue = false

theorem Outcome.andThen_of_cutOff {α β : Type} {o : Outcome α W I}
    {next : α → Machine W I → Outcome β W I} (h : o = .cutOff) : o.andThen next = .cutOff := by
  rw [h]
  rfl

theorem Outcome.Stable.andThen_cutOff {α β : Type} {f : Nat → Outcome α W I} (h : Stable f)
    {fuel fuel' : Nat} {value : α} {m : Machine W I} (hf : f fuel = .done value m)
    {next : α → Machine W I → Outcome β W I} (hnext : next value m = .cutOff) :
    (f fuel').andThen next = .cutOff := by
  rcases (h.settles hf (by simp)).cutOff_or_eq h fuel' with hcase | hcase
  · exact andThen_of_cutOff hcase
  · rw [hcase]
    exact hnext

variable [Writer W]

/-- What a writer is after requests among which no text was written without a fault. -/
inductive Writer.Unwritten (w : W) : W → Prop where
  | refl : Unwritten w w
  | flush : Unwritten w (Writer.flush w).2
  | failed {text : String} : (Writer.write w text).1 ≠ none → Unwritten w (Writer.write w text).2

/-- A text in memory is then what it was. -/
theorem Sink.eq_of_unwritten {s s' : Sink} (h : Writer.Unwritten s s') : s' = s := by
  cases h with
  | refl => rfl
  | flush => rfl
  | @failed text h =>
    change (s.write text).2 = s
    replace h : (s.write text).1 ≠ none := h
    unfold Sink.write at h ⊢
    split
    · simp_all
    · split <;> simp_all

namespace Outcome

variable {α β : Type} {place : Position} {sink : W}

/-- A fault is raised at the place, and no text was written before without a fault. -/
def Refuses (place : Position) (sink : W) : Outcome α W I → Prop
  | .done _ _ => True
  | .fault cause m => RaisedAt place cause ∧ Writer.Unwritten sink m.sink
  | .cutOff => True

theorem Refuses.fault {fault : Fault} {m : Machine W I} (hsink : Writer.Unwritten sink m.sink)
    (hvalue : fault.isNotAValue = false) :
    Refuses place sink (.fault ⟨fault, place⟩ m : Outcome α W I) :=
  ⟨⟨rfl, hvalue⟩, hsink⟩

theorem Refuses.andThen {o : Outcome α W I} {next : α → Machine W I → Outcome β W I}
    (h : o.Refuses place sink)
    (hnext : ∀ value m, o = .done value m → (next value m).Refuses place sink) :
    (o.andThen next).Refuses place sink := by
  cases o with
  | done value m => exact hnext value m rfl
  | fault cause m => exact h
  | cutOff => trivial

theorem Refuses.raisedAt {o : Outcome α W I} {cause : Located Fault} {m : Machine W I}
    (h : o.Refuses place sink) (ho : o = .fault cause m) : RaisedAt place cause := by
  subst ho
  exact h.1

end Outcome

namespace Machine

/-! ## Small actions and instructions -/

variable (m : Machine W I) (place : Position)

theorem pop_refuses : (m.pop place).Refuses place m.sink := by
  unfold pop
  split
  · exact .fault .refl rfl
  · trivial

theorem overwrite_refuses (index value : Number) :
    (m.overwrite index value place).Refuses place m.sink := by
  unfold overwrite
  split
  · exact .fault .refl rfl
  · split
    · trivial
    · exact .fault .refl rfl

theorem giveBack_refuses (value : Number) : (m.giveBack value place).Refuses place m.sink := by
  unfold giveBack
  split
  · exact .fault .refl rfl
  · trivial

theorem applyUnary_refuses (op : UnaryOperator) (value : Number) :
    (m.applyUnary op value place).Refuses place m.sink := by
  cases op with
  | giveBack => exact m.giveBack_refuses place value
  | _ => trivial

theorem result_refuses (op : BinaryOperator) (a b : Number) :
    (match op.result? a b with
      | some value => Outcome.done value m
      | none => .fault ⟨.divisionByZero, place⟩ m).Refuses place m.sink := by
  split
  · trivial
  · exact .fault .refl rfl

theorem onSink_refuses {request : Option ChannelFault × W}
    (h : request.1 ≠ none → Writer.Unwritten m.sink request.2) :
    (m.onSink request place).Refuses place m.sink := by
  unfold onSink
  split
  · trivial
  · exact .fault (h (by simp [*])) rfl

theorem write_refuses (text : String) : (m.write text place).Refuses place m.sink :=
  m.onSink_refuses place .failed

theorem flush_refuses : (m.flush place).Refuses place m.sink :=
  m.onSink_refuses place fun _ => .flush

theorem withLastValue_refuses {α : Type} (k : Keyword) {action : Number → Outcome α W I}
    (h : ∀ value, (action value).Refuses place m.sink) :
    (m.withLastValue k place action).Refuses place m.sink := by
  unfold withLastValue
  split
  · exact h _
  · exact .fault .refl rfl

theorem withVariable_refuses (p : Program) (k : Keyword) (index : Nat)
    {action : String → Machine W I → Outcome Unit W I}
    (h : ∀ name m, (action name m).Refuses place m.sink) :
    (m.withVariable p k index place action).Refuses place m.sink := by
  unfold withVariable
  split
  · exact h _ _
  · exact .fault .refl rfl

theorem skipBlock_refuses (p : Program) (k : Keyword) (start : Nat) (acceptElse : Bool) :
    (m.skipBlock p k start acceptElse place).Refuses place m.sink := by
  unfold skipBlock
  split
  · trivial
  · exact .fault .refl rfl

theorem print_refuses : (m.print place).Refuses place m.sink := by
  refine m.withLastValue_refuses place _ fun value => ?_
  split
  · exact m.write_refuses place _
  · exact .fault .refl rfl

theorem check_refuses (p : Program) (index : Nat) : (m.check p index place).Refuses place m.sink := by
  have enter : ∀ entered acceptElse : Bool, (if entered then Outcome.done () m
      else m.skipBlock p .check (index + 1) acceptElse place).Refuses place m.sink := by
    intro entered acceptElse
    split
    · trivial
    · exact m.skipBlock_refuses place _ _ _ _
  exact m.withLastValue_refuses place _ fun value => enter _ _

theorem startLoop_refuses (p : Program) (k : Keyword) (index : Nat) :
    (m.startLoop p k index place).Refuses place m.sink := by
  unfold startLoop
  split
  · split
    · exact .fault .refl rfl
    · trivial
  · exact .fault .refl rfl

theorem closeBlock_refuses (p : Program) (index : Nat) :
    (m.closeBlock p index place).Refuses place m.sink := by
  unfold closeBlock
  split
  · exact .fault .refl rfl
  · trivial
  · trivial
  · exact (m.giveBack_refuses place 0).andThen fun _ _ _ => trivial

theorem leave_refuses (p : Program) (index : Nat) :
    (m.leave p index place).Refuses place m.sink := by
  unfold leave
  split
  · exact .fault .refl rfl
  · trivial
  · exact m.skipBlock_refuses place _ _ _ _
  · exact (m.giveBack_refuses place 0).andThen fun _ _ _ => trivial

theorem find_refuses (p : Program) : (m.find p place).Refuses place m.sink := by
  refine m.withLastValue_refuses place _ fun value => ?_
  split
  · exact .fault .refl rfl
  · trivial
  · split
    · trivial
    · exact .fault .refl rfl

theorem define_refuses (p : Program) (name : String) (parameters : List String) (index : Nat) :
    (m.define p name parameters index place).Refuses place m.sink := by
  unfold define
  split
  · exact .fault .refl rfl
  · trivial

variable [LineSource I]

theorem readLine_refuses : (m.readLine place).Refuses place m.sink := by
  refine (m.flush_refuses place).andThen fun _ m₁ hflush => ?_
  obtain rfl := flush_eq_done hflush
  simp only
  split
  · exact .fault .flush rfl
  · exact .fault .flush rfl
  · trivial

theorem scan_refuses (name : String) : (m.scan name place).Refuses place m.sink := by
  refine (m.readLine_refuses place).andThen fun line m₁ hread => ?_
  obtain rfl := readLine_eq_done hread
  split
  · trivial
  · exact .fault .flush rfl

theorem press_refuses (name : String) : (m.press name place).Refuses place m.sink := by
  refine (m.readLine_refuses place).andThen fun line m₁ _ => ?_
  split
  · trivial
  · trivial

theorem keyword_refuses (p : Program) (k : Keyword) (index : Nat) :
    (m.keyword p k index place).Refuses place m.sink := by
  cases k with
  | print => exact m.print_refuses place
  | send => exact m.withLastValue_refuses place _ fun value => m.write_refuses place _
  | scroll => exact m.write_refuses place _
  | save => exact m.withLastValue_refuses place _ fun value => trivial
  | load => exact (m.pop_refuses place).andThen fun _ _ _ => trivial
  | change => trivial
  | write =>
    refine m.withLastValue_refuses place _ fun value => ?_
    exact m.withVariable_refuses place _ _ _ fun name m => trivial
  | scan => exact m.withVariable_refuses place _ _ _ fun name m => m.scan_refuses place name
  | press => exact m.withVariable_refuses place _ _ _ fun name m => m.press_refuses place name
  | burn => trivial
  | check => exact m.check_refuses place _ _
  | fix => exact m.skipBlock_refuses place _ _ _ _
  | jam => exact m.skipBlock_refuses place _ _ _ _
  | lock => exact m.startLoop_refuses place _ _ _
  | start => exact m.startLoop_refuses place _ _ _
  | «break» => exact m.closeBlock_refuses place _ _
  | leave => exact m.leave_refuses place _ _
  | find => exact m.find_refuses place _

/-- A call that is not admitted fails at once. -/
theorem call_refuses {setup : Setup} {name : String} {nodes : List Node}
    (h : ¬ ∃ entry, m.Admitted setup name nodes entry) (fuel : Nat) :
    (call setup (fuel + 1) name nodes place m).Refuses place m.sink := by
  simp only [call]
  split
  · exact .fault .refl rfl
  · rename_i entry hknown
    split
    · exact .fault .refl rfl
    · split
      · exact .fault .refl rfl
      · rename_i hcount hroom
        exact absurd ⟨entry, hknown, of_not_not hcount, Nat.lt_of_not_le hroom⟩ h

/-- A body without a step to take is done or fails at once. -/
theorem runUntil_refuses {setup : Setup} {depth : Nat}
    (h : ¬ (depth < m.state.frames.length ∧ m.state.halted = false ∧
      m.state.pointer < setup.program.length)) (name : String) (fuel : Nat) :
    (runUntil setup (fuel + 1) depth name place m).Refuses place m.sink := by
  simp only [runUntil]
  split
  · trivial
  · split
    · trivial
    · split
      · exact .fault .refl rfl
      · rename_i hdepth hlive hend
        exact absurd ⟨Nat.lt_of_not_le hdepth, Bool.eq_false_iff.2 hlive, Nat.lt_of_not_le hend⟩ h

end Machine

namespace Activity

/-! ## Parts of an activity -/

/-- What the activity yields when it is done. -/
abbrev Value : Activity W I → Type
  | .run _ => Unit
  | .step _ => Unit
  | .eval _ _ _ => Number
  | .arguments _ _ _ => List Number
  | .call _ _ _ _ => Number
  | .body _ _ _ _ => Unit

variable [LineSource I]

/-- How the activity ends. -/
def outcome (setup : Setup) (fuel : Nat) : (a : Activity W I) → Outcome a.Value W I
  | .run m => Machine.run setup fuel m
  | .step m => Machine.step setup fuel m
  | .eval node place m => Machine.eval setup fuel node place m
  | .arguments nodes place m => Machine.evalArguments setup fuel nodes place m
  | .call name nodes place m => Machine.call setup fuel name nodes place m
  | .body depth name place m => Machine.runUntil setup fuel depth name place m

theorem outcome_stable (setup : Setup) (a : Activity W I) :
    Stable fun fuel => a.outcome setup fuel := by
  cases a with
  | run m => exact Machine.run_stable setup m
  | step m => exact Machine.step_stable setup m
  | eval node place m => exact Machine.eval_stable setup node place m
  | arguments nodes place m => exact Machine.evalArguments_stable setup nodes place m
  | call name nodes place m => exact fun fuel => (Machine.keeps setup fuel).call name nodes place m
  | body depth name place m => exact Machine.runUntil_stable setup depth name place m

theorem outcome_zero (setup : Setup) (a : Activity W I) : a.outcome setup 0 = .cutOff := by
  cases a with
  | run m => simp only [outcome, Machine.run]
  | step m => simp only [outcome, Machine.step]
  | eval node place m => simp only [outcome, Machine.eval]
  | arguments nodes place m => simp only [outcome, Machine.evalArguments]
  | call name nodes place m => simp only [outcome, Machine.call]
  | body depth name place m => simp only [outcome, Machine.runUntil]

theorem faults_iff {setup : Setup} {cause : Located Fault} {m' : Machine W I} {a : Activity W I} :
    Faults setup cause m' a ↔ ∃ fuel, a.outcome setup fuel = .fault cause m' := by
  have hsettles : Faults setup cause m' a ↔
      Settles (fun fuel => a.outcome setup fuel) (.fault cause m') := by
    cases a <;> exact Iff.rfl
  rw [hsettles]
  constructor
  · exact Settles.exists
  · rintro ⟨fuel, h⟩
    exact (outcome_stable setup a).settles h (by simp)

section Leads

variable {setup : Setup} {a b : Activity W I} {fuel : Nat}

theorem Begins.cutOff (hab : Begins setup a b) (h : b.outcome setup fuel = .cutOff) :
    a.outcome setup (fuel + 1) = .cutOff := by
  cases hab with
  | step hf =>
    simp only [outcome, Machine.run_active hf] at h ⊢
    exact andThen_of_cutOff h
  | value hi hm =>
    simp only [outcome, Machine.step_value hi hm] at h ⊢
    exact andThen_of_cutOff h
  | change hi hv ho hm =>
    simp only [outcome, Machine.step_change hi hv ho hm] at h ⊢
    exact andThen_of_cutOff h
  | left =>
    simp only [outcome, Machine.eval] at h ⊢
    exact andThen_of_cutOff h
  | right hl =>
    simp only [outcome, Machine.eval] at h ⊢
    exact (Machine.eval_stable setup _ _ _).andThen_cutOff hl (andThen_of_cutOff h)
  | operand =>
    simp only [outcome, Machine.eval] at h ⊢
    exact andThen_of_cutOff h
  | call =>
    simp only [outcome, Machine.eval] at h ⊢
    exact h
  | arguments ha =>
    simp only [outcome, Machine.call_admitted ha] at h ⊢
    exact andThen_of_cutOff h
  | argument =>
    simp only [outcome, Machine.evalArguments] at h ⊢
    exact andThen_of_cutOff h
  | body ha he =>
    simp only [outcome, Machine.call_admitted ha] at h ⊢
    exact (Machine.evalArguments_stable setup _ _ _).andThen_cutOff he (andThen_of_cutOff h)
  | bodyStep hd hh hp =>
    simp only [outcome, Machine.runUntil_active hd hh hp] at h ⊢
    exact andThen_of_cutOff h

theorem GoesOn.cutOff (hab : GoesOn setup a b) (h : b.outcome setup fuel = .cutOff) :
    a.outcome setup (fuel + 1) = .cutOff := by
  cases hab with
  | run hf hs =>
    simp only [outcome, Machine.run_active hf] at h ⊢
    exact (Machine.step_stable setup _).andThen_cutOff hs h
  | arguments he =>
    simp only [outcome, Machine.evalArguments] at h ⊢
    exact (Machine.eval_stable setup _ _ _).andThen_cutOff he (andThen_of_cutOff h)
  | body hd hh hp hs =>
    simp only [outcome, Machine.runUntil_active hd hh hp] at h ⊢
    exact (Machine.step_stable setup _).andThen_cutOff hs h

/-- The second activity is begun by the first one, or is what the first one goes on as. -/
def Leads (setup : Setup) (a b : Activity W I) : Prop := Begins setup a b ∨ GoesOn setup a b

/-- An activity is not at its end before its parts are. -/
theorem Leads.cutOff (hab : Leads setup a b) (h : b.outcome setup fuel = .cutOff) :
    a.outcome setup (fuel + 1) = .cutOff := by
  rcases hab with hab | hab
  · exact hab.cutOff h
  · exact hab.cutOff h

end Leads

/-- The second activity is a part of the first one, or of one of its parts and so on. -/
def Within (setup : Setup) : Activity W I → Activity W I → Prop := Relation.ReflTransGen (Leads setup)

theorem InProgress.within {setup : Setup} {m : Machine W I} {a b : Activity W I}
    {outer : List (Activity W I)} (h : InProgress setup m (a :: outer)) (hab : Within setup a b) :
    ∃ outer', InProgress setup m (b :: outer') := by
  induction hab with
  | refl => exact ⟨outer, h⟩
  | tail _ hbc ih =>
    obtain ⟨outer', h'⟩ := ih
    rcases hbc with hbc | hbc
    · exact ⟨_, h'.begins hbc⟩
    · exact ⟨_, h'.goesOn hbc⟩

/-! ## Who raises a fault -/

/-- The activity ends with a fault that none of its parts ends with. -/
structure Raises (setup : Setup) (cause : Located Fault) (m' : Machine W I) (a : Activity W I) :
    Prop where
  faults : Faults setup cause m' a
  alone : ∀ b, Leads setup a b → ¬ Faults setup cause m' b

theorem exists_raiser {setup : Setup} {cause : Located Fault} {m' : Machine W I} {fuel : Nat}
    {a : Activity W I} (h : a.outcome setup fuel = .fault cause m') :
    ∃ b, Within setup a b ∧ Raises setup cause m' b := by
  induction fuel generalizing a with
  | zero =>
    rw [outcome_zero] at h
    cases h
  | succ fuel ih =>
    by_cases hpart : ∃ b, Leads setup a b ∧ Faults setup cause m' b
    · obtain ⟨b, hab, hb⟩ := hpart
      obtain ⟨_, hfault⟩ := faults_iff.1 hb
      have hstable := outcome_stable setup b
      -- the part is at its end with less fuel than the whole
      have hb : b.outcome setup fuel = .fault cause m' := by
        rcases (hstable.settles hfault (by simp)).cutOff_or_eq hstable fuel with hcut | hb
        · rw [hab.cutOff hcut] at h
          cases h
        · exact hb
      obtain ⟨c, hbc, hc⟩ := ih hb
      exact ⟨c, .head hab hbc, hc⟩
    · refine ⟨a, .refl, faults_iff.2 ⟨_, h⟩, fun b hab hb => hpart ⟨b, hab, hb⟩⟩

/-- What an activity can raise. -/
inductive RaisedBy (setup : Setup) (cause : Located Fault) : Activity W I → Prop where
  /-- At the end of a run. -/
  | flush {m : Machine W I} : m.isFinished setup = true →
      RaisedAt (setup.program.position m.state.pointer) cause → RaisedBy setup cause (.run m)
  | instruction {m : Machine W I} {node : Node} {place : Position} :
      setup.program[m.state.pointer]? = some ⟨node, place⟩ → RaisedAt place cause →
      RaisedBy setup cause (.step m)
  | marker {node : Node} {place : Position} {m : Machine W I} : node.isMarker = true →
      cause = ⟨.notAValue node, place⟩ → RaisedBy setup cause (.eval node place m)
  | value {node : Node} {place : Position} {m : Machine W I} : RaisedAt place cause →
      RaisedBy setup cause (.eval node place m)
  | call {name : String} {nodes : List Node} {place : Position} {m : Machine W I} :
      RaisedAt place cause → RaisedBy setup cause (.call name nodes place m)
  | body {depth : Nat} {name : String} {place : Position} {m : Machine W I} : RaisedAt place cause →
      RaisedBy setup cause (.body depth name place m)

namespace Raises

variable {setup : Setup} {cause : Located Fault} {m m' : Machine W I} {node : Node} {nodes : List Node}
  {name : String} {place : Position} {fuel : Nat}

theorem not_fault {a b : Activity W I} (hr : Raises setup cause m' a) (hab : Leads setup a b)
    (h : b.outcome setup fuel = .fault cause m') : False :=
  hr.alone b hab (faults_iff.2 ⟨fuel, h⟩)

/-- What is left when a part was done or has the fault: the part was done. -/
theorem rest_eq_fault {α : Type} {a b : Activity W I} {next : b.Value → Machine W I → Outcome α W I}
    (hr : Raises setup cause m' a) (hab : Leads setup a b)
    (h : (b.outcome setup fuel).andThen next = .fault cause m') :
    ∃ value m₁, b.outcome setup fuel = .done value m₁ ∧ next value m₁ = .fault cause m' := by
  rcases andThen_eq_fault h with h | h
  · exact (hr.not_fault hab h).elim
  · exact h

theorem run_raisedBy (hr : Raises setup cause m' (.run m))
    (h : Machine.run setup (fuel + 1) m = .fault cause m') : RaisedBy setup cause (.run m) := by
  cases hf : m.isFinished setup with
  | true =>
    simp only [Machine.run, hf, ↓reduceIte] at h
    exact .flush hf ((m.flush_refuses _).raisedAt h)
  | false =>
    rw [Machine.run_active hf] at h
    obtain ⟨_, m₁, hs, h⟩ := hr.rest_eq_fault (.inl (.step hf)) h
    exact (hr.not_fault (b := .run m₁) (.inr (.run hf hs)) h).elim

/-- `change` raises all but the faults of its operand. -/
theorem change_raisedAt (hr : Raises setup cause m' (.step m))
    (hi : setup.program[m.state.pointer]? = some ⟨.keyword .change, place⟩)
    (h : Machine.step setup (fuel + 1) m = .fault cause m') : RaisedAt place cause := by
  simp only [Machine.step, hi, Machine.withLastValue, Machine.withOperand] at h
  split at h
  · rename_i value hv
    split at h
    · rename_i operand ho
      split at h
      · cases h
        exact ⟨rfl, rfl⟩
      · rename_i hm
        obtain ⟨i, m₁, -, h⟩ :=
          hr.rest_eq_fault (.inl (.change hi hv ho (Bool.eq_false_iff.2 hm))) h
        exact (m₁.overwrite_refuses place i value).raisedAt h
    · cases h
      exact ⟨rfl, rfl⟩
  · cases h
    exact ⟨rfl, rfl⟩

theorem step_raisedBy (hr : Raises setup cause m' (.step m))
    (h : Machine.step setup (fuel + 1) m = .fault cause m') : RaisedBy setup cause (.step m) := by
  cases hi : setup.program[m.state.pointer]? with
  | none =>
    simp only [Machine.step, hi] at h
    cases h
  | some instruction =>
    obtain ⟨node, place⟩ := instruction
    refine .instruction hi ?_
    have value (hm : node.isMarker = false) : RaisedAt place cause := by
      rw [Machine.step_value hi hm] at h
      obtain ⟨_, m₁, -, h⟩ := hr.rest_eq_fault (.inl (.value hi hm)) h
      cases h
    cases node with
    | keyword k =>
      by_cases hk : k = .change
      · subst hk
        exact hr.change_raisedAt hi h
      · rw [Machine.step_keyword hi hk] at h
        exact (Machine.keyword_refuses _ _ _ _ _).raisedAt h
    | label =>
      simp only [Machine.step, hi] at h
      cases h
    | define name parameters =>
      rw [Machine.step_define hi] at h
      exact (Machine.define_refuses _ _ _ _ _ _).raisedAt h
    | _ => exact value rfl

theorem eval_raisedBy (hr : Raises setup cause m' (.eval node place m))
    (h : Machine.eval setup (fuel + 1) node place m = .fault cause m') :
    RaisedBy setup cause (.eval node place m) := by
  cases node with
  | number value =>
    simp only [Machine.eval] at h
    cases h
  | «variable» name =>
    simp only [Machine.eval] at h
    split at h
    · cases h
    · cases h
      exact .value ⟨rfl, rfl⟩
  | binary op left right =>
    simp only [Machine.eval] at h
    obtain ⟨a, m₁, hl, h⟩ := hr.rest_eq_fault (.inl .left) h
    obtain ⟨b, m₂, -, h⟩ := hr.rest_eq_fault (.inl (.right hl)) h
    exact .value ((m₂.result_refuses place op a b).raisedAt h)
  | unary op operand =>
    simp only [Machine.eval] at h
    obtain ⟨value, m₁, -, h⟩ := hr.rest_eq_fault (.inl .operand) h
    exact .value ((m₁.applyUnary_refuses place op value).raisedAt h)
  | call name nodes =>
    simp only [Machine.eval] at h
    exact (hr.not_fault (.inl .call) h).elim
  | pop =>
    simp only [Machine.eval] at h
    exact .value ((m.pop_refuses place).raisedAt h)
  | keyword k =>
    simp only [Machine.eval] at h
    cases h
    exact .marker rfl rfl
  | label =>
    simp only [Machine.eval] at h
    cases h
    exact .marker rfl rfl
  | define name parameters =>
    simp only [Machine.eval] at h
    cases h
    exact .marker rfl rfl

/-- The arguments of a call pass faults on and raise none. -/
theorem arguments_not_raised (hr : Raises setup cause m' (.arguments nodes place m))
    (h : Machine.evalArguments setup (fuel + 1) nodes place m = .fault cause m') : False := by
  cases nodes with
  | nil =>
    simp only [Machine.evalArguments] at h
    cases h
  | cons node nodes =>
    simp only [Machine.evalArguments] at h
    obtain ⟨value, m₁, he, h⟩ := hr.rest_eq_fault (.inl .argument) h
    obtain ⟨values, m₂, -, h⟩ := hr.rest_eq_fault (.inr (.arguments he)) h
    cases h

theorem call_raisedBy (hr : Raises setup cause m' (.call name nodes place m))
    (h : Machine.call setup (fuel + 1) name nodes place m = .fault cause m') :
    RaisedBy setup cause (.call name nodes place m) := by
  by_cases hadmitted : ∃ entry, m.Admitted setup name nodes entry
  · obtain ⟨entry, ha⟩ := hadmitted
    rw [Machine.call_admitted ha] at h
    obtain ⟨values, m₁, he, h⟩ := hr.rest_eq_fault (.inl (.arguments ha)) h
    obtain ⟨_, m₂, -, h⟩ := hr.rest_eq_fault (.inl (.body ha he)) h
    cases h
  · exact .call ((m.call_refuses place hadmitted fuel).raisedAt h)

theorem body_raisedBy {depth : Nat} (hr : Raises setup cause m' (.body depth name place m))
    (h : Machine.runUntil setup (fuel + 1) depth name place m = .fault cause m') :
    RaisedBy setup cause (.body depth name place m) := by
  by_cases hactive : depth < m.state.frames.length ∧ m.state.halted = false ∧
      m.state.pointer < setup.program.length
  · obtain ⟨hd, hh, hp⟩ := hactive
    rw [Machine.runUntil_active hd hh hp] at h
    obtain ⟨_, m₁, hs, h⟩ := hr.rest_eq_fault (.inl (.bodyStep hd hh hp)) h
    exact (hr.not_fault (b := .body depth name place m₁) (.inr (.body hd hh hp hs)) h).elim
  · exact .body ((m.runUntil_refuses place hactive name fuel).raisedAt h)

theorem raisedBy {a : Activity W I} (hr : Raises setup cause m' a) : RaisedBy setup cause a := by
  obtain ⟨fuel, h⟩ := faults_iff.1 hr.faults
  cases fuel with
  | zero =>
    rw [outcome_zero] at h
    cases h
  | succ fuel =>
    cases a with
    | run m => exact hr.run_raisedBy h
    | step m => exact hr.step_raisedBy h
    | eval node place m => exact hr.eval_raisedBy h
    | arguments nodes place m => exact (hr.arguments_not_raised h).elim
    | call name nodes place m => exact hr.call_raisedBy h
    | body depth name place m => exact hr.body_raisedBy h

end Raises

end Activity
end VerbScript
