import VerbScript.Vocabulary

/-!
# VerbScript.Node

Nodes: the instructions of a program and the expressions in them.

Expressions nest, instructions do not: conditionals, loops and function bodies are delimited by
markers in a flat sequence.
-/

namespace VerbScript

inductive Node where
  | number (value : Number)
  | variable (name : String)
  | binary (op : BinaryOperator) (left right : Node)
  | unary (op : UnaryOperator) (operand : Node)
  | keyword (k : Keyword)
  | label
  | define (name : String) (parameters : List String)
  | call (name : String) (arguments : List Node)
  /-- Takes a value off the stack. -/
  | pop
  deriving Repr, Inhabited

namespace Node

/-- Whether the node is a marker and not a value. -/
def isMarker : Node → Bool
  | .keyword _ | .label | .define _ _ => true
  | _ => false

mutual

/-- How a listing and an error message show the node. -/
def text : Node → String
  | .number value => value.text
  | .variable name => name
  | .binary op left right => s!"({left.text} {op.symbol} {right.text})"
  | .unary op operand => s!"{op.symbol}({operand.text})"
  | .keyword k => k.word
  | .label => Vocabulary.labelWord
  | .define name parameters => "define " ++ name ++ "(" ++ ", ".intercalate parameters ++ ")"
  | .call name arguments => name ++ "(" ++ ", ".intercalate (texts arguments) ++ ")"
  | .pop => Vocabulary.popWord

/-- How the arguments of a call are shown, one by one. -/
def texts : List Node → List String
  | [] => []
  | node :: rest => node.text :: texts rest

end

/-- What a marker does to the nesting of blocks. -/
inductive Role where
  /-- Opens a block: `check`, and the definition of a function. -/
  | opens
  /-- Closes the innermost block: `break`. -/
  | closes
  /-- Splits a conditional without closing it: `fix` and `jam`. -/
  | splits
  | plain
  deriving DecidableEq, Repr

def role : Node → Role
  | .keyword .check => .opens
  | .keyword .break => .closes
  | .keyword k => if k.isElseMarker then .splits else .plain
  | .define _ _ => .opens
  | _ => .plain

theorem role_eq_opens_iff {node : Node} :
    node.role = .opens ↔
      node = .keyword .check ∨ ∃ name parameters, node = .define name parameters := by
  cases node with
  | keyword k => cases k <;> simp [role, Keyword.isElseMarker]
  | _ => simp [role]

theorem role_eq_closes_iff {node : Node} : node.role = .closes ↔ node = .keyword .break := by
  cases node with
  | keyword k => cases k <;> simp [role, Keyword.isElseMarker]
  | _ => simp [role]

theorem role_eq_splits_iff {node : Node} :
    node.role = .splits ↔ node = .keyword .fix ∨ node = .keyword .jam := by
  cases node with
  | keyword k => cases k <;> simp [role, Keyword.isElseMarker]
  | _ => simp [role]

def isLabel : Node → Bool
  | .label => true
  | _ => false

end Node
end VerbScript
