import VerbScript.Node
import VerbScript.Token

/-!
# VerbScript.Node.ParseError

Why a sequence of tokens is not a program.
-/

namespace VerbScript

/-- What is wrong with a function header. -/
inductive HeaderProblem where
  /-- The token in the place of the function's name is no name. -/
  | functionName (found : Token)
  /-- The token after the name is neither `code` nor `call`. -/
  | ending (found : Token)
  | repeatedParameter (name : String)
  /-- The argument of a definition is not a plain name. -/
  | parameter (found : Node)
  deriving Repr

def HeaderProblem.message : HeaderProblem → String
  | .functionName found => s!"the function name must be an identifier, found {found.text}"
  | .ending found => s!"the header must end with 'code it' or 'call it', found {found.text}"
  | .repeatedParameter name => s!"parameter '{name}' appears twice"
  | .parameter found => s!"parameter '{found.text}' is not a plain name"

inductive ParseError where
  /-- A token that begins no expression. -/
  | unexpectedToken (found : Token)
  | missingPunctuation (expected : Char) (found : Token)
  | unexpectedEnd
  | expectedWord (expected : StructuralWord) (found : Token)
  /-- A name that stands alone where variables are written `name … rename`. -/
  | bareName (word : String)
  /-- A word with a meaning that stands alone in the place of a value. -/
  | reservedWord (word : String)
  /-- A token other than a free name in the place of a variable's name. -/
  | reservedToken (found : Token)
  /-- A marker in the place of a value. -/
  | expectedValue (found : Node)
  | invalidHeader (problem : HeaderProblem)
  /-- Digit words that spell no number. -/
  | malformedNumber (digits : String)
  deriving Repr

def ParseError.message : ParseError → String
  | .unexpectedToken found => s!"Unexpected token: {found.text}."
  | .missingPunctuation expected found =>
    s!"Unexpected token: expected '{expected}', found {found.text}."
  | .unexpectedEnd => "Unexpected end of input."
  | .expectedWord expected found => s!"Expected '{expected.word}', found {found.text}."
  | .bareName word =>
    s!"Unexpected identifier '{word}'. Variables are referenced as: name it, {word}, rename it"
  | .reservedWord word => s!"{word} is reserved and cannot name anything."
  | .reservedToken found => s!"{found.text} is reserved and cannot name anything."
  | .expectedValue found => s!"Expected a value, found marker '{found.text}'."
  | .invalidHeader problem =>
    s!"Invalid function header: {problem.message}. Example: use it (a bring it b) add code it"
  | .malformedNumber digits => s!"'{digits}' is not a valid number."

end VerbScript
