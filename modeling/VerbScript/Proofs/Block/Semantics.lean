import VerbScript.Machine.Run

/-!
# VerbScript.Proofs.Block.Semantics

Structured programs: blocks of statements in which conditionals, loops and function bodies are
nested, and what they mean without pointers, return addresses and markers.

* `Block.code` flattens a block into the instructions of a program.
* `Store` is what a block acts on: the variables, the calls in progress, the value stack, the last
  value, the functions with their bodies, and the two channels.
* `Block.exec` executes a block by recursion on its structure. A block ends with a `Signal`: it ran
  to its end, or `leave` was reached, or a value was given back. All of it counts down one fuel,
  which decides nothing but whether there is an outcome yet.
-/

namespace VerbScript

variable {W I : Type}

/-- Unary operators that an expression may use anywhere. -/
inductive Modifier where
  | negate
  | not
  | paste

def Modifier.operator : Modifier → UnaryOperator
  | .negate => .negate
  | .not => .not
  | .paste => .paste

/-- Expressions that give nothing back. -/
inductive Expression where
  | number (value : Number)
  | variable (name : String)
  | binary (op : BinaryOperator) (left right : Expression)
  | unary (op : Modifier) (operand : Expression)
  | call (name : String) (arguments : List Expression)
  | pop

namespace Expression

mutual

def node : Expression → Node
  | .number value => .number value
  | .variable name => .variable name
  | .binary op left right => .binary op left.node right.node
  | .unary op operand => .unary op.operator operand.node
  | .call name arguments => .call name (nodes arguments)
  | .pop => .pop

def nodes : List Expression → List Node
  | [] => []
  | e :: rest => e.node :: nodes rest

end

end Expression

/-- Statements that only act on the last value and the value stack. -/
inductive Action where
  | print
  | send
  | scroll
  | save
  | load

def Action.keyword : Action → Keyword
  | .print => .print
  | .send => .send
  | .scroll => .scroll
  | .save => .save
  | .load => .load

/-- Where an assignment takes its value from: the last value, a line as a number, or the first
character of a line. -/
inductive Origin where
  | last
  | line
  | character

def Origin.keyword : Origin → Keyword
  | .last => .write
  | .line => .scan
  | .character => .press

/-- Statements one after another. Every node that a statement leaves in the program has a place of
its own. -/
inductive Block where
  | nil
  | evaluate (place : Position) (e : Expression) (rest : Block)
  | giveBack (place : Position) (e : Expression) (rest : Block)
  | action (place : Position) (a : Action) (rest : Block)
  | assign (place : Position) (origin : Origin) (name : Located String) (rest : Block)
  | change (place : Position) (e : Located Expression) (rest : Block)
  /-- Executes a block if the last value is true. -/
  | when (check : Position) (yes : Block) (finish : Position) (rest : Block)
  | either (check : Position) (yes : Block) (split : Position) (no : Block) (finish : Position)
      (rest : Block)
  /-- Repeats a block while the condition is true, or until it is. -/
  | loop (start : Position) (untilTrue : Bool) (condition : Located Expression) (check : Position)
      (body : Block) (finish : Position) (rest : Block)
  | define (place : Position) (name : String) (parameters : List String) (body : Block)
      (finish : Position) (rest : Block)
  | leave (place : Position) (rest : Block)

def loopKeyword (untilTrue : Bool) : Keyword := if untilTrue then .start else .lock

namespace Block

def code : Block → Program
  | .nil => []
  | .evaluate place e rest => ⟨e.node, place⟩ :: rest.code
  | .giveBack place e rest => ⟨.unary .giveBack e.node, place⟩ :: rest.code
  | .action place a rest => ⟨.keyword a.keyword, place⟩ :: rest.code
  | .assign place origin name rest =>
    ⟨.keyword origin.keyword, place⟩ :: ⟨.variable name.value, name.position⟩ :: rest.code
  | .change place e rest => ⟨.keyword .change, place⟩ :: ⟨e.value.node, e.position⟩ :: rest.code
  | .when check yes finish rest =>
    ⟨.keyword .check, check⟩ :: (yes.code ++ ⟨.keyword .break, finish⟩ :: rest.code)
  | .either check yes split no finish rest =>
    ⟨.keyword .check, check⟩ :: (yes.code ++ ⟨.keyword .fix, split⟩ ::
      (no.code ++ ⟨.keyword .break, finish⟩ :: rest.code))
  | .loop start untilTrue condition check body finish rest =>
    ⟨.keyword (loopKeyword untilTrue), start⟩ :: ⟨condition.value.node, condition.position⟩ ::
      ⟨.keyword .check, check⟩ :: (body.code ++ ⟨.keyword .break, finish⟩ :: rest.code)
  | .define place name parameters body finish rest =>
    ⟨.define name parameters, place⟩ :: (body.code ++ ⟨.keyword .break, finish⟩ :: rest.code)
  | .leave place rest => ⟨.keyword .leave, place⟩ :: rest.code

end Block

structure Procedure where
  parameters : List String
  body : Block

/-- A call in progress: the function and its local variables. -/
structure Activation where
  function : String
  scope : Table Number

structure Store (W I : Type) where
  lastValue : Option Number := none
  globals : Table Number := {}
  /-- The calls in progress, the innermost first. -/
  frames : List Activation := []
  stack : List Number := []
  procedures : Table Procedure := {}
  input : I
  sink : W

inductive Ending (α W I : Type) where
  | done (value : α) (s : Store W I)
  | fault (cause : Located Fault) (s : Store W I)
  | cutOff

def Ending.andThen {α β : Type} (o : Ending α W I) (next : α → Store W I → Ending β W I) :
    Ending β W I :=
  match o with
  | .done value s => next value s
  | .fault cause s => .fault cause s
  | .cutOff => .cutOff

theorem Ending.andThen_assoc {α β γ : Type} (e : Ending α W I) (f : α → Store W I → Ending β W I)
    (g : β → Store W I → Ending γ W I) :
    (e.andThen f).andThen g = e.andThen fun value s => (f value s).andThen g := by
  cases e <;> rfl

namespace Store

def lookup (s : Store W I) (name : String) : Option Number :=
  match s.frames with
  | [] => s.globals.get? name
  | frame :: _ =>
    match frame.scope.get? name with
    | some value => some value
    | none => s.globals.get? name

def assign (s : Store W I) (name : String) (value : Number) : Store W I :=
  match s.frames with
  | [] => { s with globals := s.globals.insert name value }
  | frame :: rest =>
    if frame.scope.contains name || !s.globals.contains name then
      { s with frames := { frame with scope := frame.scope.insert name value } :: rest }
    else { s with globals := s.globals.insert name value }

def push (s : Store W I) (value : Number) : Store W I := { s with stack := value :: s.stack }

def pop (s : Store W I) (place : Position) : Ending Number W I :=
  match s.stack with
  | [] => .fault ⟨.stackUnderflow, place⟩ s
  | top :: rest => .done top { s with stack := rest }

def overwrite (s : Store W I) (index value : Number) (place : Position) : Ending Unit W I :=
  match index.index? with
  | none => .fault ⟨.invalidIndex index, place⟩ s
  | some i =>
    if i < s.stack.length then .done () { s with stack := s.stack.set i value }
    else .fault ⟨.stackIndex i s.stack.length, place⟩ s

def setLastValue (s : Store W I) (value : Number) : Store W I := { s with lastValue := some value }

/-- The last value, which the statement with the given keyword needs. -/
def withLastValue {α : Type} (s : Store W I) (k : Keyword) (place : Position)
    (action : Number → Ending α W I) : Ending α W I :=
  match s.lastValue with
  | some value => action value
  | none => .fault ⟨.missingValue k, place⟩ s

/-- Goes on with what a request to the sink leaves of it, unless the request failed. -/
def onSink (s : Store W I) (request : Option ChannelFault × W) (place : Position) :
    Ending Unit W I :=
  match request with
  | (none, sink) => .done () { s with sink := sink }
  | (some fault, sink) => .fault ⟨.channel fault, place⟩ { s with sink := sink }

variable [Writer W] [LineSource I]

def write (s : Store W I) (text : String) (place : Position) : Ending Unit W I :=
  s.onSink (Writer.write s.sink text) place

def flush (s : Store W I) (place : Position) : Ending Unit W I :=
  s.onSink (Writer.flush s.sink) place

def readLine (s : Store W I) (place : Position) : Ending String W I :=
  (s.flush place).andThen fun _ s =>
    match LineSource.nextLine s.input with
    | (none, rest) => .fault ⟨.inputExhausted, place⟩ { s with input := rest }
    | (some (.error fault), rest) => .fault ⟨.channel fault, place⟩ { s with input := rest }
    | (some (.ok line), rest) => .done line { s with input := rest }

def act (s : Store W I) (a : Action) (place : Position) : Ending Unit W I :=
  match a with
  | .print =>
    s.withLastValue .print place fun value =>
      match value.character? with
      | some c => s.write (String.singleton c) place
      | none => .fault ⟨.invalidCharacter value, place⟩ s
  | .send => s.withLastValue .send place fun value => s.write value.plainText place
  | .scroll => s.write "\n" place
  | .save => s.withLastValue .save place fun value => .done () (s.push value)
  | .load => (s.pop place).andThen fun _ s => .done () s

def obtain? (s : Store W I) (origin : Origin) (place : Position) : Ending Number W I :=
  match origin with
  | .last => s.withLastValue .write place fun value => .done value s
  | .line =>
    (s.readLine place).andThen fun line s =>
      match Number.ofText? (Text.trim line) with
      | some value => .done value s
      | none => .fault ⟨.invalidInput line, place⟩ s
  | .character =>
    (s.readLine place).andThen fun line s =>
      match line.toList with
      | c :: _ => .done (.ofChar c) s
      | [] => .done Machine.emptyLineCode s

def receive (s : Store W I) (origin : Origin) (name : String) (place : Position) : Ending Unit W I :=
  (s.obtain? origin place).andThen fun value s => .done () (s.assign name value)

def modify (s : Store W I) (op : Modifier) (value : Number) : Store W I :=
  match op with
  | .paste => s.push value
  | .negate | .not => s

def enter (s : Store W I) (function : String) (scope : Table Number) : Store W I :=
  { s with frames := ⟨function, scope⟩ :: s.frames }

def exit (s : Store W I) : Store W I := { s with frames := s.frames.tail }

end Store

inductive Signal where
  | next
  /-- The innermost loop or function is left. -/
  | left
  | returned (value : Number)

/-- The value of a call whose body ended so. -/
def Signal.value : Signal → Number
  | .next | .left => 0
  | .returned value => value

namespace Block

variable [Writer W] [LineSource I]

mutual

/-- Evaluates an expression, where at most `limit` calls may be in progress. -/
def eval (limit : Nat) : Nat → Expression → Position → Store W I → Ending Number W I
  | 0, _, _, _ => .cutOff
  | fuel + 1, e, place, s =>
    match e with
    | .number value => .done value s
    | .variable name =>
      match s.lookup name with
      | some value => .done value s
      | none => .fault ⟨.unknownVariable name, place⟩ s
    | .binary op left right =>
      (eval limit fuel left place s).andThen fun a s =>
      (eval limit fuel right place s).andThen fun b s =>
        match op.result? a b with
        | some value => .done value s
        | none => .fault ⟨.divisionByZero, place⟩ s
    | .unary op operand =>
      (eval limit fuel operand place s).andThen fun value s =>
        .done (op.operator.value value) (s.modify op value)
    | .call name arguments => call limit fuel name arguments place s
    | .pop => s.pop place

def evalAll (limit : Nat) : Nat → List Expression → Position → Store W I → Ending (List Number) W I
  | 0, _, _, _ => .cutOff
  | _ + 1, [], _, s => .done [] s
  | fuel + 1, e :: rest, place, s =>
    (eval limit fuel e place s).andThen fun value s =>
    (evalAll limit fuel rest place s).andThen fun values s => .done (value :: values) s

/-- Calls a function: its body is executed in a scope of its own. -/
def call (limit : Nat) : Nat → String → List Expression → Position → Store W I → Ending Number W I
  | 0, _, _, _, _ => .cutOff
  | fuel + 1, name, arguments, place, s =>
    match s.procedures.get? name with
    | none => .fault ⟨.unknownFunction name, place⟩ s
    | some f =>
      if f.parameters.length ≠ arguments.length then
        .fault ⟨.argumentCount name f.parameters.length arguments.length, place⟩ s
      else if limit ≤ s.frames.length then .fault ⟨.callDepth limit, place⟩ s
      else
        (evalAll limit fuel arguments place s).andThen fun values s =>
        (exec limit fuel true f.body
          (s.enter name (Table.ofPairs (f.parameters.zip values)))).andThen fun signal s =>
        .done signal.value s.exit

/-- Executes a block; `inside` says whether it is inside a loop or a function. -/
def exec (limit : Nat) : Nat → Bool → Block → Store W I → Ending Signal W I
  | 0, _, _, _ => .cutOff
  | fuel + 1, inside, b, s =>
    match b with
    | .nil => .done .next s
    | .evaluate place e rest =>
      (eval limit fuel e place s).andThen fun value s =>
      exec limit fuel inside rest (s.setLastValue value)
    | .giveBack place e _ =>
      (eval limit fuel e place s).andThen fun value s =>
        if s.frames.isEmpty then .fault ⟨.returnOutsideFunction, place⟩ s
        else .done (.returned value) (s.setLastValue value)
    | .action place a rest =>
      (s.act a place).andThen fun _ s => exec limit fuel inside rest s
    | .assign place origin name rest =>
      (s.receive origin name.value place).andThen fun _ s => exec limit fuel inside rest s
    | .change place e rest =>
      (s.withLastValue .change place fun value =>
        (eval limit fuel e.value place s).andThen fun i s => s.overwrite i value place).andThen
        fun _ s => exec limit fuel inside rest s
    | .when check yes _ rest =>
      s.withLastValue .check check fun value =>
      (if value.isTrue then exec limit fuel inside yes s else .done .next s).andThen fun signal s =>
        match signal with
        | .next => exec limit fuel inside rest s
        | signal => .done signal s
    | .either check yes _ no _ rest =>
      s.withLastValue .check check fun value =>
      (exec limit fuel inside (if value.isTrue then yes else no) s).andThen fun signal s =>
        match signal with
        | .next => exec limit fuel inside rest s
        | signal => .done signal s
    | .loop start untilTrue condition check body finish rest =>
      (eval limit fuel condition.value condition.position s).andThen fun value s =>
      let s := s.setLastValue value
      if value.isTrue = untilTrue then exec limit fuel inside rest s
      else
        (exec limit fuel true body s).andThen fun signal s =>
          match signal with
          | .next =>
            exec limit fuel inside (.loop start untilTrue condition check body finish rest) s
          | .left => exec limit fuel inside rest s
          | .returned value => .done (.returned value) s
    | .define _ name parameters body _ rest =>
      exec limit fuel inside rest
        { s with procedures := s.procedures.insert name ⟨parameters, body⟩ }
    | .leave place _ =>
      if inside then .done .left s else .fault ⟨.orphan .leave, place⟩ s

end

/-- Executes a whole program and flushes what it wrote. -/
def run (limit fuel : Nat) (b : Block) (s : Store W I) : Ending Unit W I :=
  (exec limit fuel false b s).andThen fun _ s => s.flush (b.code.position b.code.length)

end Block
end VerbScript
