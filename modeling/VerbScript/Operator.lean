import VerbScript.Number.Integral

/-!
# VerbScript.Operator

The operators of expressions: how tightly they bind, how a listing shows them, what they compute.
-/

namespace VerbScript

inductive BinaryOperator where
  | add
  | subtract
  | multiply
  | divide
  | floorDivide
  | remainder
  | equal
  | less
  | greater
  deriving DecidableEq, Repr

namespace BinaryOperator

/-- The binding strength; the larger binds tighter. Addition binds tighter than subtraction, and
either division tighter than multiplication. -/
def precedence : BinaryOperator → Nat
  | .equal => 1
  | .less | .greater => 7
  | .subtract => 10
  | .add => 15
  | .multiply | .remainder => 20
  | .divide | .floorDivide => 25

def symbol : BinaryOperator → String
  | .add => "+"
  | .subtract => "-"
  | .multiply => "*"
  | .divide => "/f"
  | .floorDivide => "/i"
  | .remainder => "%"
  | .equal => "=="
  | .less => "<"
  | .greater => ">"

/-- Whether the operator has no value for a zero divisor. -/
def needsDivisor : BinaryOperator → Bool
  | .divide | .floorDivide | .remainder => true
  | _ => false

/-- The value for operands that the operator accepts. -/
def value (op : BinaryOperator) (left right : Number) : Number :=
  match op with
  | .add => left + right
  | .subtract => left - right
  | .multiply => left * right
  | .divide => left / right
  | .floorDivide => (left / right : Number).floor
  | .remainder => Number.remainder left right
  | .equal => .ofBool (left == right)
  | .less => .ofBool (decide (left < right))
  | .greater => .ofBool (decide (right < left))

/-- Applies the operator; there is no result for a division by zero of either sign. -/
def result? (op : BinaryOperator) (left right : Number) : Option Number :=
  if op.needsDivisor && right == 0 then none else some (op.value left right)

end BinaryOperator

/-- Operators after their operand. `paste` also pushes its operand, and `giveBack` ends a call
with it. -/
inductive UnaryOperator where
  | negate
  | not
  | paste
  | giveBack
  deriving DecidableEq, Repr

namespace UnaryOperator

def symbol : UnaryOperator → String
  | .negate => "-"
  | .not => "!"
  | .paste => "paste"
  | .giveBack => "return"

/-- The value of the operator applied to an operand, apart from what it does to the machine. -/
def value (op : UnaryOperator) (x : Number) : Number :=
  match op with
  | .negate => -x
  | .not => .ofBool (x == 0)
  | .paste | .giveBack => x

end UnaryOperator
end VerbScript
