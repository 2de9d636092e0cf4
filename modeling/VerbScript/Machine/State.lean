import VerbScript.Machine.Table
import VerbScript.Number.Exact

/-!
# VerbScript.Machine.State

What a run changes: the pointer, the registers, the variables, the calls in progress, the value
stack and the table of functions.
-/

namespace VerbScript

/-- A call in progress. -/
structure Frame where
  function : String
  /-- Where the caller goes on. -/
  returnAddress : Nat
  /-- The local variables, the parameters first. -/
  scope : Table Number
  deriving DecidableEq, Repr

/-- A function whose definition has been reached: the index of the definition, the index of the
`break` that closes the body, and the parameters. -/
structure FunctionEntry where
  start : Nat
  finish : Nat
  parameters : List String
  deriving DecidableEq, Repr

structure State where
  /-- The index of the next instruction. -/
  pointer : Nat := 0
  /-- The value of the last expression that was an instruction. -/
  lastValue : Option Number := none
  /-- The value of the last return. -/
  lastReturn : Number := 0
  globals : Table Number := {}
  /-- The calls in progress, the innermost first. -/
  frames : List Frame := []
  /-- The value stack, the top first. -/
  stack : List Number := []
  functions : Table FunctionEntry := {}
  /-- Whether the program has ended itself. -/
  halted : Bool := false
  deriving DecidableEq, Repr

namespace State

/-- The state before a run. -/
def initial : State := {}

/-- Whether the state is that before a run; zero may have either sign. -/
def isInitial (s : State) : Bool :=
  s.pointer == 0 && s.lastValue.isNone && s.lastReturn == 0 && s.globals.entries.isEmpty
    && s.frames.isEmpty && s.stack.isEmpty && s.functions.entries.isEmpty && !s.halted

/-- The value of a variable: local to the innermost call, else global. -/
def lookup (s : State) (name : String) : Option Number :=
  match s.frames with
  | [] => s.globals.get? name
  | frame :: _ =>
    match frame.scope.get? name with
    | some value => some value
    | none => s.globals.get? name

/-- Gives a variable a value. In a call a local variable is meant if there is one, else a global
one if there is one; a new variable is local. -/
def assign (s : State) (name : String) (value : Number) : State :=
  match s.frames with
  | [] => { s with globals := s.globals.insert name value }
  | frame :: rest =>
    if frame.scope.contains name || !s.globals.contains name then
      { s with frames := { frame with scope := frame.scope.insert name value } :: rest }
    else { s with globals := s.globals.insert name value }

def jump (s : State) (target : Nat) : State := { s with pointer := target }

def push (s : State) (value : Number) : State := { s with stack := value :: s.stack }

/-- Enters a call. -/
def pushFrame (s : State) (frame : Frame) : State := { s with frames := frame :: s.frames }

end State
end VerbScript
