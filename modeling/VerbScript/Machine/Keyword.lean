import VerbScript.Machine.Outcome
import VerbScript.Program.Markers
import VerbScript.Text.Blank

/-!
# VerbScript.Machine.Keyword

The instructions that evaluate no expression: all keywords but `change`, and the definition of a
function. The pointer has already moved past the instruction at `index`.
-/

namespace VerbScript.Machine

variable {W I : Type}

/-- The code that `press` stores for an empty line: that of a line feed. -/
def emptyLineCode : Number := .ofNat 10

variable [Writer W] [LineSource I]

/-- Writes the character whose code is the last value. -/
def print (m : Machine W I) (place : Position) : Outcome Unit W I :=
  m.withLastValue .print place fun value =>
    match value.character? with
    | some c => m.write (String.singleton c) place
    | none => .fault ⟨.invalidCharacter value, place⟩ m

/-- The variable that follows a keyword, for which the pointer moves past it. -/
def withVariable (m : Machine W I) (p : Program) (k : Keyword) (index : Nat) (place : Position)
    (action : String → Machine W I → Outcome Unit W I) : Outcome Unit W I :=
  match p.node? (index + 1) with
  | some (.variable name) => action name (m.jump (index + 2))
  | _ => .fault ⟨.expectedVariable k, place⟩ m

/-- The expression that follows a keyword, for which the pointer moves past it. -/
def withOperand (m : Machine W I) (p : Program) (k : Keyword) (index : Nat) (place : Position)
    (action : Node → Machine W I → Outcome Unit W I) : Outcome Unit W I :=
  match p.node? (index + 1) with
  | some operand =>
    if operand.isMarker then .fault ⟨.missingOperand k, place⟩ m
    else action operand (m.jump (index + 2))
  | none => .fault ⟨.missingOperand k, place⟩ m

/-- Reads a line as a number. -/
def scan (m : Machine W I) (name : String) (place : Position) : Outcome Unit W I :=
  (m.readLine place).andThen fun line m =>
    match Number.ofText? (Text.trim line) with
    | some value => .done () (m.assign name value)
    | none => .fault ⟨.invalidInput line, place⟩ m

/-- Reads a line for its first character. -/
def press (m : Machine W I) (name : String) (place : Position) : Outcome Unit W I :=
  (m.readLine place).andThen fun line m =>
    match line.toList with
    | c :: _ => .done () (m.assign name (.ofChar c))
    | [] => .done () (m.assign name emptyLineCode)

/-- Goes on after the marker that ends the block whose body starts at `start`. -/
def skipBlock (m : Machine W I) (p : Program) (k : Keyword) (start : Nat) (acceptElse : Bool)
    (place : Position) : Outcome Unit W I :=
  match p.closing? start acceptElse with
  | some target => .done () (m.jump (target + 1))
  | none => .fault ⟨.unclosedBlock k, place⟩ m

/-- Enters the block that `check` opens if the last value says so, else goes on after it, or in the
second branch of a conditional. -/
def check (m : Machine W I) (p : Program) (index : Nat) (place : Position) : Outcome Unit W I :=
  m.withLastValue .check place fun value =>
    let guard := p.loopGuard? index
    let enter :=
      match guard with
      | some (_, true) => !value.isTrue
      | _ => value.isTrue
    if enter then .done () m else m.skipBlock p .check (index + 1) guard.isNone place

/-- A loop keyword is followed by a condition and `check`. -/
def startLoop (m : Machine W I) (p : Program) (k : Keyword) (index : Nat) (place : Position) :
    Outcome Unit W I :=
  match p.node? (index + 1), p.node? (index + 2) with
  | some condition, some (.keyword .check) =>
    if condition.isMarker then .fault ⟨.malformedLoop k, place⟩ m else .done () m
  | _, _ => .fault ⟨.malformedLoop k, place⟩ m

/-- The end of a block: a loop starts again, and a function gives back zero. -/
def closeBlock (m : Machine W I) (p : Program) (index : Nat) (place : Position) : Outcome Unit W I :=
  match p.enclosing? index false with
  | none => .fault ⟨.orphan .break, place⟩ m
  | some (.conditional _) => .done () m
  | some (.loop guard _ _) => .done () (m.jump guard)
  | some (.function _) => (m.giveBack 0 place).andThen fun _ m => .done () m

/-- Leaves the innermost loop or function. -/
def leave (m : Machine W I) (p : Program) (index : Nat) (place : Position) : Outcome Unit W I :=
  match p.enclosing? index true with
  | none => .fault ⟨.orphan .leave, place⟩ m
  | some (.conditional _) => .done () m
  | some (.loop _ check _) => m.skipBlock p .leave (check + 1) false place
  | some (.function _) => (m.giveBack 0 place).andThen fun _ m => .done () m

/-- Goes on after the label whose number is the last value; number zero ends the program. -/
def find (m : Machine W I) (p : Program) (place : Position) : Outcome Unit W I :=
  m.withLastValue .find place fun value =>
    match value.index? with
    | none => .fault ⟨.invalidIndex value, place⟩ m
    | some 0 => .done () (m.halt p.length)
    | some n =>
      match p.label? n with
      | some target => .done () (m.jump (target + 1))
      | none => .fault ⟨.labelOutOfRange n p.labelCount, place⟩ m

/-- Carries out the keyword at an index. `change` is carried out where expressions are evaluated and
does nothing here. -/
def keyword (m : Machine W I) (p : Program) (k : Keyword) (index : Nat) (place : Position) :
    Outcome Unit W I :=
  match k with
  | .print => m.print place
  | .send => m.withLastValue .send place fun value => m.write value.plainText place
  | .scroll => m.write "\n" place
  | .save => m.withLastValue .save place fun value => .done () (m.push value)
  | .load => (m.pop place).andThen fun _ m => .done () m
  | .change => .done () m
  | .write =>
    m.withLastValue .write place fun value =>
      m.withVariable p .write index place fun name m => .done () (m.assign name value)
  | .scan => m.withVariable p .scan index place fun name m => m.scan name place
  | .press => m.withVariable p .press index place fun name m => m.press name place
  | .burn => .done () (m.halt p.length)
  | .check => m.check p index place
  | .fix | .jam => m.skipBlock p k (index + 1) false place
  | .lock | .start => m.startLoop p k index place
  | .break => m.closeBlock p index place
  | .leave => m.leave p index place
  | .find => m.find p place

/-- Enters a function into the table, in the place of an earlier one of its name, and goes on after
its body. -/
def define (m : Machine W I) (p : Program) (name : String) (parameters : List String) (index : Nat)
    (place : Position) : Outcome Unit W I :=
  match p.closing? (index + 1) false with
  | none => .fault ⟨.unclosedDefinition name, place⟩ m
  | some finish =>
    .done ()
      { m with state := { m.state with
          functions := m.state.functions.insert name ⟨index, finish, parameters⟩
          pointer := finish + 1 } }

end VerbScript.Machine
