import VerbScript.Machine.Fault
import VerbScript.Machine.State
import VerbScript.Position

/-!
# VerbScript.Machine.Outcome

A machine is a state with its two channels. An action on it is done with a result, or stops at a
fault and leaves the machine as it then is, or is cut off because its fuel is used up. The small
actions from which instructions are built are here.

`W` and `I` are what the machine writes to and reads from, whatever that is; `Machine` alone writes
to a `Sink` and reads from an `Input`.
-/

namespace VerbScript

structure Machine (W : Type := Sink) (I : Type := Input) where
  state : State := {}
  input : I := by exact []
  sink : W := by exact {}
  deriving DecidableEq, Repr

inductive Outcome (α : Type) (W : Type := Sink) (I : Type := Input) where
  | done (value : α) (m : Machine W I)
  | fault (cause : Located Fault) (m : Machine W I)
  /-- The fuel was used up; nothing is known of the result. -/
  | cutOff
  deriving Repr

variable {W I : Type}

/-- Goes on with the result of an action that is done. -/
@[inline]
def Outcome.andThen {α β : Type} (o : Outcome α W I) (next : α → Machine W I → Outcome β W I) :
    Outcome β W I :=
  match o with
  | .done value m => next value m
  | .fault cause m => .fault cause m
  | .cutOff => .cutOff

namespace Machine

def jump (m : Machine W I) (target : Nat) : Machine W I := { m with state := m.state.jump target }

def assign (m : Machine W I) (name : String) (value : Number) : Machine W I :=
  { m with state := m.state.assign name value }

def push (m : Machine W I) (value : Number) : Machine W I := { m with state := m.state.push value }

def setLastValue (m : Machine W I) (value : Number) : Machine W I :=
  { m with state := { m.state with lastValue := some value } }

/-- Ends the program, the calls in progress included. -/
def halt (m : Machine W I) (programLength : Nat) : Machine W I :=
  { m with state := { m.state with halted := true, pointer := programLength } }

/-- Takes the top value off the stack. -/
def pop (m : Machine W I) (place : Position) : Outcome Number W I :=
  match m.state.stack with
  | [] => .fault ⟨.stackUnderflow, place⟩ m
  | top :: rest => .done top { m with state := { m.state with stack := rest } }

/-- Puts a value in the place of one on the stack, counted from the top. -/
def overwrite (m : Machine W I) (index value : Number) (place : Position) : Outcome Unit W I :=
  match index.index? with
  | none => .fault ⟨.invalidIndex index, place⟩ m
  | some i =>
    if i < m.state.stack.length then
      .done () { m with state := { m.state with stack := m.state.stack.set i value } }
    else .fault ⟨.stackIndex i m.state.stack.length, place⟩ m

/-- Ends the innermost call with a value; its caller goes on. -/
def giveBack (m : Machine W I) (value : Number) (place : Position) : Outcome Number W I :=
  match m.state.frames with
  | [] => .fault ⟨.returnOutsideFunction, place⟩ m
  | frame :: rest =>
    .done value
      { m with state := { m.state with
          frames := rest, pointer := frame.returnAddress, lastReturn := value } }

/-- Applies a unary operator, with what it does to the machine. -/
def applyUnary (m : Machine W I) (op : UnaryOperator) (value : Number) (place : Position) :
    Outcome Number W I :=
  match op with
  | .paste => .done value (m.push value)
  | .giveBack => m.giveBack value place
  | .negate | .not => .done (op.value value) m

/-- The last value, on which a keyword acts. -/
def withLastValue {α : Type} (m : Machine W I) (k : Keyword) (place : Position)
    (action : Number → Outcome α W I) : Outcome α W I :=
  match m.state.lastValue with
  | some value => action value
  | none => .fault ⟨.missingValue k, place⟩ m

/-- Goes on with what a request to the sink leaves of it, unless the request failed. -/
def onSink (m : Machine W I) (request : Option ChannelFault × W) (place : Position) :
    Outcome Unit W I :=
  let m := { m with sink := request.2 }
  match request.1 with
  | none => .done () m
  | some fault => .fault ⟨.channel fault, place⟩ m

def write [Writer W] (m : Machine W I) (text : String) (place : Position) : Outcome Unit W I :=
  m.onSink (Writer.write m.sink text) place

def flush [Writer W] (m : Machine W I) (place : Position) : Outcome Unit W I :=
  m.onSink (Writer.flush m.sink) place

/-- Reads a line, after flushing what was written. -/
def readLine [Writer W] [LineSource I] (m : Machine W I) (place : Position) : Outcome String W I :=
  (m.flush place).andThen fun _ m =>
    let (line, rest) := LineSource.nextLine m.input
    let m := { m with input := rest }
    match line with
    | none => .fault ⟨.inputExhausted, place⟩ m
    | some (.error fault) => .fault ⟨.channel fault, place⟩ m
    | some (.ok line) => .done line m

end Machine
end VerbScript
