import VerbScript.Program

/-!
# VerbScript.Program.Markers

The blocks of a flat program, recovered by matching markers like brackets.

`check` and function definitions open a block and `break` closes it; `fix` and `jam` split a
conditional without closing it. `closing?` looks forward for the end of a block, `enclosing?`
looks backward for the block that is still open. A `check` two instructions after `lock` or `start`
opens the body of a loop, any other `check` a conditional.
-/

namespace VerbScript

/-- The block that a closing marker belongs to. -/
inductive Enclosing where
  | conditional (check : Nat)
  /-- A loop, which starts again at `guard`; an until-loop runs while its condition is false. -/
  | loop (guard check : Nat) (untilLoop : Bool)
  | function (definition : Nat)
  deriving DecidableEq, Repr

namespace Program

/-- How far ahead the marker is that ends a block, `depth` blocks being open inside it. With
`acceptElse` the marker between two branches ends the block as well. -/
def closingOffset? (acceptElse : Bool) : Nat → List (Located Node) → Option Nat
  | _, [] => none
  | depth, instruction :: rest =>
    match instruction.value.role with
    | .opens => (closingOffset? acceptElse (depth + 1) rest).map (· + 1)
    | .closes =>
      match depth with
      | 0 => some 0
      | depth + 1 => (closingOffset? acceptElse depth rest).map (· + 1)
    | .splits =>
      if acceptElse && depth == 0 then some 0
      else (closingOffset? acceptElse depth rest).map (· + 1)
    | .plain => (closingOffset? acceptElse depth rest).map (· + 1)

/-- The index of the marker that ends the block whose body starts at `start`. -/
def closing? (p : Program) (start : Nat) (acceptElse : Bool) : Option Nat :=
  (closingOffset? acceptElse 0 (p.drop start)).map (start + ·)

/-- Whether a `check` at the index `check` opens a loop body: the index of the loop's guard, and
whether it is an until-loop. -/
def loopGuard? (p : Program) (check : Nat) : Option (Nat × Bool) :=
  match check with
  | guard + 2 =>
    match p.node? guard with
    | some (.keyword k) => if k.isLoopMarker then some (guard, k == .start) else none
    | _ => none
  | _ => none

/-- The block that the opening marker `node` at an index opens. -/
def opened (p : Program) (index : Nat) (node : Node) : Enclosing :=
  match node with
  | .define _ _ => .function index
  | _ =>
    match p.loopGuard? index with
    | some (guard, untilLoop) => .loop guard index untilLoop
    | none => .conditional index

/-- Looks for the open block in the instructions before a point, the nearest first, `depth` blocks
having been closed since. With `skipConditionals` open conditionals are passed over. -/
def enclosingBefore? (p : Program) (skipConditionals : Bool) :
    Nat → List (Located Node) → Option Enclosing
  | _, [] => none
  | depth, instruction :: before =>
    match instruction.value.role with
    | .closes => enclosingBefore? p skipConditionals (depth + 1) before
    | .opens =>
      match depth with
      | depth + 1 => enclosingBefore? p skipConditionals depth before
      | 0 =>
        match p.opened before.length instruction.value with
        | .conditional check =>
          if skipConditionals then enclosingBefore? p skipConditionals 0 before
          else some (.conditional check)
        | block => some block
    | _ => enclosingBefore? p skipConditionals depth before

/-- The innermost block still open just before an index. -/
def enclosing? (p : Program) (index : Nat) (skipConditionals : Bool) : Option Enclosing :=
  enclosingBefore? p skipConditionals 0 (p.take index).reverse

/-- The offset of the label that has `skipped` labels before it. -/
def labelOffset? : Nat → List (Located Node) → Option Nat
  | _, [] => none
  | skipped, instruction :: rest =>
    if instruction.value.isLabel then
      match skipped with
      | 0 => some 0
      | skipped + 1 => (labelOffset? skipped rest).map (· + 1)
    else (labelOffset? skipped rest).map (· + 1)

/-- The index of the `n`-th label, counted from 1. -/
def label? (p : Program) (n : Nat) : Option Nat :=
  match n with
  | 0 => none
  | n + 1 => labelOffset? n p

def labelCount (p : Program) : Nat := p.countP (·.value.isLabel)

end Program
end VerbScript
