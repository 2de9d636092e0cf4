import VerbScript.Machine.Run

/-!
# VerbScript.Proofs.Effect

What one instruction can do to the machine.

* `Outcome.andThen_eq_done` takes a sequence of two actions apart.
* `Effect` lists what the instructions that evaluate no expression can do. `keyword_effect` and
  `define_effect` say that the list is complete, so that what an instruction keeps is proved by
  going through it once.
* `step_cases` is the same for a whole step: an effect, or one evaluation and what is done with its
  value.
* `step_value` and its like say what a step does once the instruction is known, and `call_admitted`
  what a call does that nothing speaks against. `call_eq_done` takes a call apart that is done.
-/

namespace VerbScript

variable {W I : Type}

theorem Outcome.andThen_eq_done {α β : Type} {o : Outcome α W I}
    {next : α → Machine W I → Outcome β W I} {value : β} {m : Machine W I}
    (h : o.andThen next = .done value m) :
    ∃ a m₁, o = .done a m₁ ∧ next a m₁ = .done value m := by
  cases o with
  | done a m₁ => exact ⟨a, m₁, rfl, h⟩
  | fault cause m₁ => cases h
  | cutOff => cases h

theorem Outcome.andThen_eq_fault {α β : Type} {o : Outcome α W I}
    {next : α → Machine W I → Outcome β W I} {cause : Located Fault} {m : Machine W I}
    (h : o.andThen next = .fault cause m) :
    o = .fault cause m ∨ ∃ a m₁, o = .done a m₁ ∧ next a m₁ = .fault cause m := by
  cases o with
  | done a m₁ => exact .inr ⟨a, m₁, rfl, h⟩
  | fault c m₁ => cases h; exact .inl rfl
  | cutOff => cases h

namespace Machine

/-- What an instruction that evaluates no expression can do, in a program of the given length. -/
inductive Effect (programLength : Nat) (m : Machine W I) : Machine W I → Prop where
  | jump (target : Nat) : Effect programLength m (m.jump target)
  | write (sink : W) : Effect programLength m { m with sink := sink }
  | stack (stack : List Number) :
      Effect programLength m { m with state := { m.state with stack := stack } }
  | assign (target : Nat) (input : I) (sink : W) (name : String) (value : Number) :
      Effect programLength m
        (({ m with input := input, sink := sink }.jump target).assign name value)
  | halt : Effect programLength m (m.halt programLength)
  | giveBack {frame : Frame} {rest : List Frame} (value : Number) :
      m.state.frames = frame :: rest →
      Effect programLength m { m with state := { m.state with
        frames := rest, pointer := frame.returnAddress, lastReturn := value } }
  | define (functions : Table FunctionEntry) (target : Nat) :
      Effect programLength m { m with state := { m.state with
        functions := functions, pointer := target } }

theorem Effect.refl (programLength : Nat) (m : Machine W I) : Effect programLength m m :=
  .jump m.state.pointer

theorem withLastValue_eq_done {α : Type} {m m' : Machine W I} {k : Keyword} {place : Position}
    {action : Number → Outcome α W I} {result : α}
    (h : m.withLastValue k place action = .done result m') :
    ∃ value, m.state.lastValue = some value ∧ action value = .done result m' := by
  unfold withLastValue at h
  split at h
  · exact ⟨_, ‹_›, h⟩
  · cases h

theorem withVariable_eq_done {m m' : Machine W I} {p : Program} {k : Keyword} {index : Nat}
    {place : Position} {action : String → Machine W I → Outcome Unit W I}
    (h : m.withVariable p k index place action = .done () m') :
    ∃ name, p.node? (index + 1) = some (.variable name) ∧
      action name (m.jump (index + 2)) = .done () m' := by
  unfold withVariable at h
  split at h
  · exact ⟨_, ‹_›, h⟩
  · cases h

theorem withOperand_eq_done {m m' : Machine W I} {p : Program} {k : Keyword} {index : Nat}
    {place : Position} {action : Node → Machine W I → Outcome Unit W I}
    (h : m.withOperand p k index place action = .done () m') :
    ∃ operand, p.node? (index + 1) = some operand ∧ operand.isMarker = false ∧
      action operand (m.jump (index + 2)) = .done () m' := by
  unfold withOperand at h
  split at h
  · split at h
    · cases h
    · rename_i operand hi hm
      exact ⟨operand, hi, Bool.eq_false_iff.2 hm, h⟩
  · cases h

theorem onSink_eq_done {m m' : Machine W I} {request : Option ChannelFault × W} {place : Position}
    (h : m.onSink request place = .done () m') :
    request.1 = none ∧ m' = { m with sink := request.2 } := by
  unfold onSink at h
  split at h
  · cases h; exact ⟨‹_›, rfl⟩
  · cases h

theorem onSink_eq_fault {m m' : Machine W I} {request : Option ChannelFault × W}
    {place : Position} {cause : Located Fault} (h : m.onSink request place = .fault cause m') :
    ∃ fault, request.1 = some fault ∧ cause = ⟨.channel fault, place⟩ := by
  unfold onSink at h
  split at h
  · cases h
  · cases h; exact ⟨_, ‹_›, rfl⟩

theorem giveBack_eq_done {m m' : Machine W I} {value result : Number} {place : Position}
    (h : m.giveBack value place = .done result m') :
    result = value ∧ ∃ frame rest, m.state.frames = frame :: rest ∧
      m' = { m with state := { m.state with
        frames := rest, pointer := frame.returnAddress, lastReturn := value } } := by
  unfold giveBack at h
  split at h
  · cases h
  · cases h; exact ⟨rfl, _, _, ‹_›, rfl⟩

theorem overwrite_eq_done {m m' : Machine W I} {index value : Number} {place : Position}
    (h : m.overwrite index value place = .done () m') :
    ∃ stack, m' = { m with state := { m.state with stack := stack } } := by
  unfold overwrite at h
  split at h
  · cases h
  · split at h
    · cases h; exact ⟨_, rfl⟩
    · cases h

theorem skipBlock_eq_done {m m' : Machine W I} {p : Program} {k : Keyword} {start : Nat}
    {acceptElse : Bool} {place : Position}
    (h : m.skipBlock p k start acceptElse place = .done () m') :
    ∃ target, p.closing? start acceptElse = some target ∧ m' = m.jump (target + 1) := by
  unfold skipBlock at h
  split at h
  · cases h; exact ⟨_, ‹_›, rfl⟩
  · cases h

theorem check_effect {m m' : Machine W I} {p : Program} {index : Nat} {place : Position}
    (h : m.check p index place = .done () m') : Effect p.length m m' := by
  obtain ⟨value, -, h⟩ := withLastValue_eq_done h
  simp only at h
  split at h
  · split at h
    · cases h; exact .refl _ _
    · obtain ⟨target, -, rfl⟩ := skipBlock_eq_done h
      exact .jump _
  · split at h
    · cases h; exact .refl _ _
    · obtain ⟨target, -, rfl⟩ := skipBlock_eq_done h
      exact .jump _

theorem startLoop_effect {m m' : Machine W I} {p : Program} {k : Keyword} {index : Nat}
    {place : Position} (h : m.startLoop p k index place = .done () m') : Effect p.length m m' := by
  unfold startLoop at h
  split at h
  · split at h
    · cases h
    · cases h; exact .refl _ _
  · cases h

theorem closeBlock_effect {m m' : Machine W I} {p : Program} {index : Nat} {place : Position}
    (h : m.closeBlock p index place = .done () m') : Effect p.length m m' := by
  unfold closeBlock at h
  split at h
  · cases h
  · cases h; exact .refl _ _
  · cases h; exact .jump _
  · obtain ⟨_, m₁, hg, h⟩ := Outcome.andThen_eq_done h
    obtain ⟨-, frame, rest, hf, rfl⟩ := giveBack_eq_done hg
    cases h
    exact .giveBack 0 hf

theorem leave_effect {m m' : Machine W I} {p : Program} {index : Nat} {place : Position}
    (h : m.leave p index place = .done () m') : Effect p.length m m' := by
  unfold leave at h
  split at h
  · cases h
  · cases h; exact .refl _ _
  · obtain ⟨target, -, rfl⟩ := skipBlock_eq_done h
    exact .jump _
  · obtain ⟨_, m₁, hg, h⟩ := Outcome.andThen_eq_done h
    obtain ⟨-, frame, rest, hf, rfl⟩ := giveBack_eq_done hg
    cases h
    exact .giveBack 0 hf

theorem find_effect {m m' : Machine W I} {p : Program} {place : Position}
    (h : m.find p place = .done () m') : Effect p.length m m' := by
  obtain ⟨value, -, h⟩ := withLastValue_eq_done h
  split at h
  · cases h
  · cases h; exact .halt
  · split at h
    · cases h; exact .jump _
    · cases h

theorem define_effect {m m' : Machine W I} {p : Program} {name : String} {parameters : List String}
    {index : Nat} {place : Position} (h : m.define p name parameters index place = .done () m') :
    Effect p.length m m' := by
  unfold define at h
  split at h
  · cases h
  · cases h; exact .define _ _

variable [Writer W]

theorem write_eq_done {m m' : Machine W I} {text : String} {place : Position}
    (h : m.write text place = .done () m') : ∃ sink, m' = { m with sink := sink } :=
  ⟨_, (onSink_eq_done h).2⟩

theorem flush_eq_done {m m' : Machine W I} {place : Position} (h : m.flush place = .done () m') :
    m' = { m with sink := (Writer.flush m.sink).2 } :=
  (onSink_eq_done h).2

/-- Flushing a text in memory leaves it as it is. -/
theorem flush_eq_done_of_sink {m m' : Machine Sink I} {place : Position}
    (h : m.flush place = .done () m') : m' = m :=
  flush_eq_done h

theorem flush_of_sink {m : Machine Sink I} (h : m.sink.flushFails = false) (place : Position) :
    m.flush place = .done () m := by
  simp [flush, onSink, Writer.flush, Sink.flush, h]

theorem print_effect {m m' : Machine W I} {programLength : Nat} {place : Position}
    (h : m.print place = .done () m') : Effect programLength m m' := by
  obtain ⟨value, -, h⟩ := withLastValue_eq_done h
  split at h
  · obtain ⟨sink, rfl⟩ := write_eq_done h
    exact .write sink
  · cases h

variable [LineSource I]

theorem readLine_eq_done {m m' : Machine W I} {place : Position} {line : String}
    (h : m.readLine place = .done line m') :
    m' = { m with
      input := (LineSource.nextLine m.input).2, sink := (Writer.flush m.sink).2 } := by
  obtain ⟨_, m₁, hf, h⟩ := Outcome.andThen_eq_done h
  cases flush_eq_done hf
  simp only at h
  split at h
  · cases h
  · cases h
  · cases h; rfl

theorem scan_effect {m m' : Machine W I} {programLength target : Nat} {name : String}
    {place : Position} (h : (m.jump target).scan name place = .done () m') :
    Effect programLength m m' := by
  obtain ⟨line, m₁, hl, h⟩ := Outcome.andThen_eq_done h
  cases readLine_eq_done hl
  split at h
  · cases h; exact Effect.assign (m := m) target _ (Writer.flush m.sink).2 name _
  · cases h

theorem press_effect {m m' : Machine W I} {programLength target : Nat} {name : String}
    {place : Position} (h : (m.jump target).press name place = .done () m') :
    Effect programLength m m' := by
  obtain ⟨line, m₁, hl, h⟩ := Outcome.andThen_eq_done h
  cases readLine_eq_done hl
  split at h
  · cases h; exact Effect.assign (m := m) target _ (Writer.flush m.sink).2 name _
  · cases h; exact Effect.assign (m := m) target _ (Writer.flush m.sink).2 name _

theorem keyword_effect {m m' : Machine W I} {p : Program} {k : Keyword} {index : Nat}
    {place : Position} (h : m.keyword p k index place = .done () m') : Effect p.length m m' := by
  cases k with
  | print => exact print_effect h
  | send =>
    obtain ⟨value, -, h⟩ := withLastValue_eq_done h
    obtain ⟨sink, rfl⟩ := write_eq_done h
    exact .write sink
  | scroll =>
    obtain ⟨sink, rfl⟩ := write_eq_done h
    exact .write sink
  | save =>
    obtain ⟨value, -, h⟩ := withLastValue_eq_done h
    cases h
    exact .stack _
  | load =>
    obtain ⟨value, m₁, hp, h⟩ := Outcome.andThen_eq_done h
    unfold pop at hp
    split at hp
    · cases hp
    · cases hp; cases h; exact .stack _
  | change => cases h; exact .refl _ _
  | write =>
    obtain ⟨value, -, h⟩ := withLastValue_eq_done h
    obtain ⟨name, -, h⟩ := withVariable_eq_done h
    cases h
    exact .assign (index + 2) m.input m.sink name value
  | scan =>
    simp only [keyword] at h
    obtain ⟨name, -, h⟩ := withVariable_eq_done h
    exact scan_effect h
  | press =>
    simp only [keyword] at h
    obtain ⟨name, -, h⟩ := withVariable_eq_done h
    exact press_effect h
  | burn => cases h; exact .halt
  | check => exact check_effect h
  | fix =>
    obtain ⟨target, -, rfl⟩ := skipBlock_eq_done h
    exact .jump _
  | jam =>
    obtain ⟨target, -, rfl⟩ := skipBlock_eq_done h
    exact .jump _
  | lock => exact startLoop_effect h
  | start => exact startLoop_effect h
  | «break» => exact closeBlock_effect h
  | leave => exact leave_effect h
  | find => exact find_effect h

/-- What a step that is done has done. -/
inductive Stepped (setup : Setup) (fuel : Nat) (m : Machine W I) : Machine W I → Prop where
  | pastEnd : setup.program[m.state.pointer]? = none → Stepped setup fuel m m
  | effect {instruction : Located Node} {m' : Machine W I} :
      setup.program[m.state.pointer]? = some instruction → instruction.value.isMarker = true →
      Effect setup.program.length (m.jump (m.state.pointer + 1)) m' → Stepped setup fuel m m'
  | change {operand : Node} {place : Position} {value i : Number} {m₁ m' : Machine W I} :
      setup.program[m.state.pointer]? = some ⟨.keyword .change, place⟩ →
      m.state.lastValue = some value →
      setup.program.node? (m.state.pointer + 1) = some operand → operand.isMarker = false →
      eval setup fuel operand place (m.jump (m.state.pointer + 2)) = .done i m₁ →
      m₁.overwrite i value place = .done () m' → Stepped setup fuel m m'
  | value {node : Node} {place : Position} {value : Number} {m₁ : Machine W I} :
      setup.program[m.state.pointer]? = some ⟨node, place⟩ → node.isMarker = false →
      eval setup fuel node place (m.jump (m.state.pointer + 1)) = .done value m₁ →
      Stepped setup fuel m (m₁.setLastValue value)

theorem step_cases {setup : Setup} {fuel : Nat} {m m' : Machine W I}
    (h : step setup (fuel + 1) m = .done () m') : Stepped setup fuel m m' := by
  simp only [step] at h
  split at h
  · cases h; exact .pastEnd ‹_›
  · rename_i node place hi
    split at h
    · obtain ⟨value, hv, h⟩ := withLastValue_eq_done h
      obtain ⟨operand, ho, hm, h⟩ := withOperand_eq_done h
      obtain ⟨i, m₁, he, h⟩ := Outcome.andThen_eq_done h
      exact .change hi hv ho hm he h
    · exact .effect hi rfl (keyword_effect h)
    · cases h; exact .effect hi rfl (.refl _ _)
    · exact .effect hi rfl (define_effect h)
    · rename_i hchange hkeyword hlabel hdefine
      obtain ⟨value, m₁, he, h⟩ := Outcome.andThen_eq_done h
      cases h
      refine .value hi ?_ he
      cases node with
      | keyword k => exact absurd rfl (hkeyword k)
      | label => exact absurd rfl hlabel
      | define name parameters => exact absurd rfl (hdefine name parameters)
      | _ => rfl

/-! ## Steps and calls -/

theorem step_value {setup : Setup} {m : Machine W I} {node : Node} {place : Position}
    (hi : setup.program[m.state.pointer]? = some ⟨node, place⟩) (hm : node.isMarker = false)
    (fuel : Nat) :
    step setup (fuel + 1) m = (eval setup fuel node place (m.jump (m.state.pointer + 1))).andThen
      fun value m => .done () (m.setLastValue value) := by
  simp only [step, hi]
  cases node with
  | keyword k => cases hm
  | label => cases hm
  | define name parameters => cases hm
  | _ => rfl

theorem step_change {setup : Setup} {m : Machine W I} {operand : Node} {place : Position}
    {value : Number} (hi : setup.program[m.state.pointer]? = some ⟨.keyword .change, place⟩)
    (hv : m.state.lastValue = some value)
    (ho : setup.program.node? (m.state.pointer + 1) = some operand)
    (hm : operand.isMarker = false) (fuel : Nat) :
    step setup (fuel + 1) m
      = (eval setup fuel operand place (m.jump (m.state.pointer + 2))).andThen
        fun i m => m.overwrite i value place := by
  have hv' : (m.jump (m.state.pointer + 1)).state.lastValue = some value := hv
  simp only [step, hi, withLastValue, hv', withOperand, ho, hm]
  rfl

theorem step_keyword {setup : Setup} {m : Machine W I} {k : Keyword} {place : Position}
    (hi : setup.program[m.state.pointer]? = some ⟨.keyword k, place⟩) (hk : k ≠ .change)
    (fuel : Nat) :
    step setup (fuel + 1) m
      = (m.jump (m.state.pointer + 1)).keyword setup.program k m.state.pointer place := by
  simp only [step, hi]

theorem step_define {setup : Setup} {m : Machine W I} {name : String} {parameters : List String}
    {place : Position}
    (hi : setup.program[m.state.pointer]? = some ⟨.define name parameters, place⟩) (fuel : Nat) :
    step setup (fuel + 1) m = (m.jump (m.state.pointer + 1)).define setup.program name parameters
      m.state.pointer place := by
  simp only [step, hi]

/-- Nothing speaks against the call: the function is known and takes as many arguments, and there is
room for one more call. -/
structure Admitted (setup : Setup) (m : Machine W I) (name : String) (arguments : List Node)
    (entry : FunctionEntry) : Prop where
  known : m.state.functions.get? name = some entry
  count : entry.parameters.length = arguments.length
  room : m.state.frames.length < setup.depthLimit

/-- Enters the body of a function. -/
def enter (m : Machine W I) (name : String) (entry : FunctionEntry) (values : List Number) :
    Machine W I :=
  { m with state := (m.state.pushFrame
      ⟨name, m.state.pointer, Table.ofPairs (entry.parameters.zip values)⟩).jump (entry.start + 1) }

theorem call_admitted {setup : Setup} {m : Machine W I} {name : String} {arguments : List Node}
    {entry : FunctionEntry} (h : Admitted setup m name arguments entry) (place : Position)
    (fuel : Nat) :
    call setup (fuel + 1) name arguments place m
      = (evalArguments setup fuel arguments place m).andThen fun values m₁ =>
        (runUntil setup fuel m.state.frames.length name place (m₁.enter name entry values)).andThen
          fun _ m => .done m.state.lastReturn m := by
  have hroom := h.room
  simp only [call, h.known]
  rw [if_neg (by simp [h.count]), if_neg (by omega)]
  rfl

theorem call_refused {setup : Setup} {m : Machine W I} {name : String} {arguments : List Node}
    {entry : FunctionEntry} (hknown : m.state.functions.get? name = some entry)
    (hcount : entry.parameters.length = arguments.length)
    (hfull : setup.depthLimit ≤ m.state.frames.length) (place : Position) (fuel : Nat) :
    call setup (fuel + 1) name arguments place m
      = .fault ⟨.callDepth setup.depthLimit, place⟩ m := by
  simp only [call, hknown]
  rw [if_neg (by simp [hcount]), if_pos hfull]

/-- A call that is done was admitted, and its arguments and its body are done. -/
theorem call_eq_done {setup : Setup} {fuel : Nat} {name : String} {arguments : List Node}
    {place : Position} {m m' : Machine W I} {value : Number}
    (h : call setup (fuel + 1) name arguments place m = .done value m') :
    ∃ entry values caller, Admitted setup m name arguments entry ∧
      evalArguments setup fuel arguments place m = .done values caller ∧
      runUntil setup fuel m.state.frames.length name place (caller.enter name entry values)
        = .done () m' ∧ value = m'.state.lastReturn := by
  simp only [call] at h
  split at h
  · cases h
  · rename_i entry hentry
    split at h
    · cases h
    · rename_i hcount
      split at h
      · cases h
      · rename_i hroom
        obtain ⟨values, caller, ha, h⟩ := Outcome.andThen_eq_done h
        obtain ⟨_, m₂, hr, h⟩ := Outcome.andThen_eq_done h
        cases h
        have hadmitted : Admitted setup m name arguments entry :=
          ⟨hentry, Decidable.not_not.1 hcount, Nat.lt_of_not_le hroom⟩
        exact ⟨entry, values, caller, hadmitted, ha, hr, rfl⟩

theorem runUntil_active {setup : Setup} {depth : Nat} {name : String} {place : Position}
    {m : Machine W I} (hframes : depth < m.state.frames.length) (hlive : m.state.halted = false)
    (hend : m.state.pointer < setup.program.length) (fuel : Nat) :
    runUntil setup (fuel + 1) depth name place m
      = (step setup fuel m).andThen fun _ m => runUntil setup fuel depth name place m := by
  simp only [runUntil]
  rw [if_neg (by omega), if_neg (by simp [hlive]), if_neg (by omega)]
  cases step setup fuel m <;> rfl

theorem run_active {setup : Setup} {m : Machine W I} (hf : m.isFinished setup = false) (fuel : Nat) :
    run setup (fuel + 1) m = (step setup fuel m).andThen fun _ m => run setup fuel m := by
  simp only [run, hf, Bool.false_eq_true, ↓reduceIte]
  cases step setup fuel m <;> rfl

end Machine
end VerbScript
