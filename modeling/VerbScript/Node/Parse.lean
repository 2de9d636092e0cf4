import VerbScript.Node.ParseError
import VerbScript.Position

/-!
# VerbScript.Node.Parse

Expressions read from tokens.

    expression ::= atom (binary-operator atom)* unary-operator* format?
    atom       ::= digit+ | name N rename | zip expression unzip unary-operator*
                 | use ( (expression (bring | plug)?)* ) N (code | call) | keyword | label | pop

Binary operators are grouped by precedence climbing. A marker stands alone, and only where a whole
instruction may stand. In an argument list a bare name is a variable.

Every function takes the tokens and gives back what it did not read. The mutual recursion counts
down a bound on its depth, which `Node.expression` and the functions after it derive from the
number of tokens.
-/

namespace VerbScript

/-- Tokens with their places. -/
abbrev Tokens := List (Located Token)

/-- What reading yields: a result, or an error at a place. -/
abbrev Parsed := Except (Located ParseError)

namespace Node

/-- The place of the next token, or `fallback` at the end. -/
def nextPosition (fallback : Position) : Tokens → Position
  | [] => fallback
  | t :: _ => t.position

def expectWord (word : StructuralWord) (fallback : Position) :
    Tokens → Parsed Tokens
  | [] => .error ⟨.unexpectedEnd, fallback⟩
  | t :: rest =>
    if t.value = .structural word then .ok rest
    else .error ⟨.expectedWord word t.value, t.position⟩

def expectPunctuation (c : Char) (fallback : Position) :
    Tokens → Parsed Tokens
  | [] => .error ⟨.unexpectedEnd, fallback⟩
  | t :: rest =>
    if t.value = .punctuation c then .ok rest
    else .error ⟨.missingPunctuation c t.value, t.position⟩

/-- The name that a token is, if it is free to be one. -/
def freeName? : Token → Option String
  | .name text => if Vocabulary.isName text then some text else none
  | _ => none

/-- Reads `N rename`, the rest of a variable. -/
def parseVariable (start : Position) : Tokens → Parsed (Node × Tokens)
  | [] => .error ⟨.unexpectedEnd, start⟩
  | t :: rest =>
    match freeName? t.value with
    | none => .error ⟨.reservedToken t.value, t.position⟩
    | some name => do
      let rest ← expectWord .rename start rest
      .ok (.variable name, rest)

/-- The character that a digit word contributes to a number's text. -/
def digitChar (value : Nat) : Char :=
  if value = Vocabulary.decimalPoint then '.' else Char.ofNat ('0'.toNat + value)

/-- Splits off the digit words at the front. -/
def takeDigits : Tokens → List Char × Tokens
  | [] => ([], [])
  | t :: rest =>
    match t.value with
    | .digit value =>
      let (digits, rest) := takeDigits rest
      (digitChar value :: digits, rest)
    | _ => ([], t :: rest)

/-- Reads a number from all the digit words at the front. -/
def parseNumber (start : Position) (tokens : Tokens) : Parsed (Node × Tokens) :=
  let (digits, rest) := takeDigits tokens
  let text := String.ofList digits
  match Number.ofText? text with
  | some value => .ok (.number value, rest)
  | none => .error ⟨.malformedNumber text, start⟩

/-- Applies the unary operators at the front to a node, the first one innermost. -/
def postfixes (node : Node) : Tokens → Node × Tokens
  | [] => (node, [])
  | t :: rest =>
    match t.value with
    | .unary op => postfixes (.unary op node) rest
    | _ => (node, t :: rest)

/-- Passes over a `format` at the front. -/
def skipFormat : Tokens → Tokens
  | [] => []
  | t :: rest => if t.value = .structural .format then rest else t :: rest

/-- Passes over a `bring` or `plug` at the front. -/
def skipSeparator : Tokens → Tokens
  | [] => []
  | t :: rest =>
    if t.value = .structural .bring ∨ t.value = .structural .plug then rest else t :: rest

/-- Refuses a marker in the place of a value. -/
def asValue (node : Node) (place : Position) : Parsed Unit :=
  if node.isMarker then .error ⟨.expectedValue node, place⟩ else .ok ()

/-- The parameter names of a definition: plain names, no two alike. `seen` come before. -/
def parameters (start : Position) (seen : List String) :
    List Node → Parsed (List String)
  | [] => .ok seen
  | .variable name :: rest =>
    if name ∈ seen then .error ⟨.invalidHeader (.repeatedParameter name), start⟩
    else parameters start (seen ++ [name]) rest
  | node :: _ => .error ⟨.invalidHeader (.parameter node), start⟩

/-- Reads what follows the argument list of a function header. -/
def parseHeaderEnd (start : Position) (arguments : List Node) : Tokens → Parsed (Node × Tokens)
  | [] => .error ⟨.unexpectedEnd, start⟩
  | t :: rest =>
    match freeName? t.value with
    | none => .error ⟨.invalidHeader (.functionName t.value), start⟩
    | some name =>
      match rest with
      | [] => .error ⟨.unexpectedEnd, start⟩
      | ending :: rest =>
        match ending.value with
        | .structural .code => do
          let names ← parameters start [] arguments
          .ok (.define name names, rest)
        | .structural .call => .ok (.call name arguments, rest)
        | found => .error ⟨.invalidHeader (.ending found), start⟩

mutual

/-- Reads an atom. `bare` says whether a bare name is a variable here. -/
def parseAtom : Nat → Bool → Position → Tokens → Parsed (Node × Tokens)
  | 0, _, fallback, _ => .error ⟨.unexpectedEnd, fallback⟩
  | _ + 1, _, fallback, [] => .error ⟨.unexpectedEnd, fallback⟩
  | bound + 1, bare, _, t :: rest =>
    match t.value with
    | .structural .zip => do
      let (inner, rest) ← parseValue bound false t.position rest
      let rest ← expectWord .unzip t.position rest
      .ok (postfixes inner rest)
    | .structural .use => do
      let rest ← expectPunctuation '(' t.position rest
      let (arguments, rest) ← parseArguments bound t.position rest
      parseHeaderEnd t.position arguments rest
    | .structural .name => parseVariable t.position rest
    | .digit _ => parseNumber t.position (t :: rest)
    | .keyword k => .ok (.keyword k, rest)
    | .label => .ok (.label, rest)
    | .pop => .ok (.pop, rest)
    | .name text =>
      if !Vocabulary.isName text then .error ⟨.reservedWord text, t.position⟩
      else if bare then .ok (.variable text, rest)
      else .error ⟨.bareName text, t.position⟩
    | found => .error ⟨.unexpectedToken found, t.position⟩

/-- Extends `left` by the binary operators at the front that bind tighter than `floor`. An operator
takes as its right operand all that binds tighter than itself, so equal ones group to the left. -/
def climb : Nat → Node → Nat → Bool → Position → Tokens → Parsed (Node × Tokens)
  | 0, _, _, _, fallback, _ => .error ⟨.unexpectedEnd, fallback⟩
  | _ + 1, left, _, _, _, [] => .ok (left, [])
  | bound + 1, left, floor, bare, fallback, t :: rest =>
    match t.value with
    | .binary op =>
      if op.precedence ≤ floor then .ok (left, t :: rest)
      else do
        let place := nextPosition t.position rest
        let (operand, rest) ← parseAtom bound bare t.position rest
        asValue operand place
        let (right, rest) ← climb bound operand op.precedence bare fallback rest
        climb bound (.binary op left right) floor bare fallback rest
    | _ => .ok (left, t :: rest)

/-- Reads an expression or a marker. -/
def parseExpression : Nat → Bool → Position → Tokens → Parsed (Node × Tokens)
  | 0, _, fallback, _ => .error ⟨.unexpectedEnd, fallback⟩
  | bound + 1, bare, fallback, tokens => do
    let (atom, rest) ← parseAtom bound bare fallback tokens
    if atom.isMarker then .ok (atom, skipFormat rest)
    else
      let (node, rest) ← climb bound atom 0 bare fallback rest
      let (node, rest) := postfixes node rest
      .ok (node, skipFormat rest)

/-- Reads an expression that is not a marker. -/
def parseValue : Nat → Bool → Position → Tokens → Parsed (Node × Tokens)
  | 0, _, fallback, _ => .error ⟨.unexpectedEnd, fallback⟩
  | bound + 1, bare, fallback, tokens => do
    let (node, rest) ← parseExpression bound bare fallback tokens
    asValue node (nextPosition fallback tokens)
    .ok (node, rest)

/-- Reads arguments up to and including the closing parenthesis. -/
def parseArguments : Nat → Position → Tokens → Parsed (List Node × Tokens)
  | 0, start, _ => .error ⟨.unexpectedEnd, start⟩
  | _ + 1, start, [] => .error ⟨.unexpectedEnd, start⟩
  | bound + 1, start, t :: rest =>
    if t.value = .punctuation ')' then .ok ([], rest)
    else do
      let (argument, rest) ← parseValue bound true start (t :: rest)
      let (arguments, rest) ← parseArguments bound start (skipSeparator rest)
      .ok (argument :: arguments, rest)

end

/-- A depth that no reading of the tokens exceeds: between two tokens read the functions call one
another at most four times. -/
def depthBound (tokens : Tokens) : Nat := 4 * tokens.length + 4

def expression (bare : Bool) (fallback : Position) (tokens : Tokens) : Parsed (Node × Tokens) :=
  parseExpression (depthBound tokens) bare fallback tokens

def valueExpression (bare : Bool) (fallback : Position) (tokens : Tokens) : Parsed (Node × Tokens) :=
  parseValue (depthBound tokens) bare fallback tokens

end Node
end VerbScript
