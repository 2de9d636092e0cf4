import VerbScript.Machine.Keyword

/-!
# VerbScript.Machine.Step

Evaluation of expressions and execution of instructions.

A call runs the instructions of its body on the same machine until the frame it pushed is gone, so
evaluation and execution call each other. All of it counts down one fuel, and an outcome that is not
cut off is the same with more fuel.
-/

namespace VerbScript

/-- How many calls may be in progress at once where nothing else is asked for. -/
def defaultDepthLimit : Nat := 200

/-- What a run executes: the program, and how many calls may be in progress at once. -/
structure Setup where
  program : Program
  depthLimit : Nat := defaultDepthLimit

namespace Machine

variable {W I : Type}

variable [Writer W] [LineSource I]

mutual

/-- Evaluates an expression; operands are evaluated from left to right. -/
def eval (setup : Setup) : Nat → Node → Position → Machine W I → Outcome Number W I
  | 0, _, _, _ => .cutOff
  | fuel + 1, node, place, m =>
    match node with
    | .number value => .done value m
    | .variable name =>
      match m.state.lookup name with
      | some value => .done value m
      | none => .fault ⟨.unknownVariable name, place⟩ m
    | .binary op left right =>
      (eval setup fuel left place m).andThen fun a m =>
      (eval setup fuel right place m).andThen fun b m =>
        match op.result? a b with
        | some value => .done value m
        | none => .fault ⟨.divisionByZero, place⟩ m
    | .unary op operand =>
      (eval setup fuel operand place m).andThen fun value m => m.applyUnary op value place
    | .call name arguments => call setup fuel name arguments place m
    | .pop => m.pop place
    | .keyword _ | .label | .define _ _ => .fault ⟨.notAValue node, place⟩ m

/-- Evaluates the arguments of a call in order. -/
def evalArguments (setup : Setup) :
    Nat → List Node → Position → Machine W I → Outcome (List Number) W I
  | 0, _, _, _ => .cutOff
  | _ + 1, [], _, m => .done [] m
  | fuel + 1, argument :: rest, place, m =>
    (eval setup fuel argument place m).andThen fun value m =>
    (evalArguments setup fuel rest place m).andThen fun values m => .done (value :: values) m

/-- Calls a function. The limit on calls is tested before the arguments are evaluated, and the
arguments are evaluated before the frame is pushed. -/
def call (setup : Setup) : Nat → String → List Node → Position → Machine W I → Outcome Number W I
  | 0, _, _, _, _ => .cutOff
  | fuel + 1, name, arguments, place, m =>
    match m.state.functions.get? name with
    | none => .fault ⟨.unknownFunction name, place⟩ m
    | some entry =>
      if entry.parameters.length ≠ arguments.length then
        .fault ⟨.argumentCount name entry.parameters.length arguments.length, place⟩ m
      else if setup.depthLimit ≤ m.state.frames.length then
        .fault ⟨.callDepth setup.depthLimit, place⟩ m
      else
        let depth := m.state.frames.length
        (evalArguments setup fuel arguments place m).andThen fun values m =>
          let scope := Table.ofPairs (entry.parameters.zip values)
          let m := { m with state :=
            (m.state.pushFrame ⟨name, m.state.pointer, scope⟩).jump (entry.start + 1) }
          (runUntil setup fuel depth name place m).andThen fun _ m => .done m.state.lastReturn m

/-- Executes instructions until at most `depth` calls are in progress or the program has ended
itself. -/
def runUntil (setup : Setup) : Nat → Nat → String → Position → Machine W I → Outcome Unit W I
  | 0, _, _, _, _ => .cutOff
  | fuel + 1, depth, name, place, m =>
    if m.state.frames.length ≤ depth then .done () m
    else if m.state.halted then .done () m
    else if setup.program.length ≤ m.state.pointer then .fault ⟨.ranOffEnd name, place⟩ m
    else
      match step setup fuel m with
      | .done _ m => runUntil setup fuel depth name place m
      | .fault cause m => .fault cause m
      | .cutOff => .cutOff

/-- Executes the instruction under the pointer, which first moves on. Past the end of the program
nothing happens. -/
def step (setup : Setup) : Nat → Machine W I → Outcome Unit W I
  | 0, _ => .cutOff
  | fuel + 1, m =>
    let index := m.state.pointer
    match setup.program[index]? with
    | none => .done () m
    | some ⟨node, place⟩ =>
      let m := m.jump (index + 1)
      match node with
      | .keyword .change =>
        m.withLastValue .change place fun value =>
        m.withOperand setup.program .change index place fun operand m =>
        (eval setup fuel operand place m).andThen fun i m => m.overwrite i value place
      | .keyword k => m.keyword setup.program k index place
      | .label => .done () m
      | .define name parameters => m.define setup.program name parameters index place
      | node => (eval setup fuel node place m).andThen fun value m => .done () (m.setLastValue value)

end

end Machine
end VerbScript
