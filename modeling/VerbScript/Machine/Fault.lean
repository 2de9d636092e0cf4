import VerbScript.Machine.Channel
import VerbScript.Node

/-!
# VerbScript.Machine.Fault

Why a run stops before its end.
-/

namespace VerbScript

inductive Fault where
  /-- No expression has been evaluated that the keyword could use. -/
  | missingValue (k : Keyword)
  /-- No expression follows the keyword. -/
  | missingOperand (k : Keyword)
  /-- Nothing closes the block that the keyword belongs to. -/
  | unclosedBlock (k : Keyword)
  /-- Nothing closes the body of the function. -/
  | unclosedDefinition (name : String)
  /-- No block is open that the keyword could close. -/
  | orphan (k : Keyword)
  | malformedLoop (k : Keyword)
  | unknownVariable (name : String)
  | unknownFunction (name : String)
  | argumentCount (name : String) (expected found : Nat)
  | stackUnderflow
  | stackIndex (index depth : Nat)
  | labelOutOfRange (index labels : Nat)
  | invalidIndex (value : Number)
  /-- No variable follows the keyword. -/
  | expectedVariable (k : Keyword)
  | inputExhausted
  | invalidInput (line : String)
  | invalidCharacter (value : Number)
  | divisionByZero
  | returnOutsideFunction
  | notAValue (found : Node)
  | callDepth (limit : Nat)
  | ranOffEnd (name : String)
  | channel (fault : ChannelFault)
  deriving Repr

/-- The fault in words. -/
def Fault.message : Fault → String
  | .missingValue k => s!"'{k.word}' used without a previously evaluated expression."
  | .missingOperand k => s!"'{k.word}' must be followed by an expression."
  | .unclosedBlock k => s!"Unmatched break: nothing closes '{k.word}'."
  | .unclosedDefinition name => s!"Unmatched break: nothing closes 'definition of '{name}''."
  | .orphan k => s!"'{k.word}' has no enclosing construct to close."
  | .malformedLoop k => s!"'{k.word}' must be followed by a condition and 'check'."
  | .unknownVariable name => s!"Unknown variable '{name}'."
  | .unknownFunction name =>
    s!"Unknown function '{name}'. Functions must be defined before they are called."
  | .argumentCount name expected found =>
    s!"Function '{name}' takes {expected} argument(s), but {found} were supplied."
  | .stackUnderflow => "Value stack is empty."
  | .stackIndex index depth =>
    s!"Stack index {index} is out of bounds for a stack of {depth} value(s)."
  | .labelOutOfRange index labels =>
    s!"Label {index} does not exist; the program has {labels} label(s)."
  | .invalidIndex value =>
    s!"{value.text} is not a valid index. Indices are non-negative integers."
  | .expectedVariable k =>
    s!"'{k.word}' must be followed by a variable: name it, <variable>, rename it"
  | .inputExhausted => "No more input to read."
  | .invalidInput line => s!"Input '{line}' is not a number."
  | .invalidCharacter value => s!"{value.text} is not a character code."
  | .divisionByZero => "Division by zero."
  | .returnOutsideFunction => "Return outside of a function call."
  | .notAValue found => s!"'{found.text}' does not produce a value."
  | .callDepth limit => s!"Call depth exceeded the limit of {limit}."
  | .ranOffEnd name =>
    s!"Function '{name}' ran past the end of the program without returning."
  | .channel fault => s!"I/O failure: {fault.message}."

end VerbScript
