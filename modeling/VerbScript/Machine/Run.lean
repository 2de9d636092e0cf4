import VerbScript.Machine.Step

/-!
# VerbScript.Machine.Run

Whole runs: instructions are executed until the program ends itself or the pointer leaves it, and
then the output is flushed.
-/

namespace VerbScript.Machine

variable {W I : Type}

/-- Fuel that no run uses up in practice. -/
def ampleFuel : Nat := Nat.pow 2 62

/-- Whether there is nothing left to execute. -/
def isFinished (m : Machine W I) (setup : Setup) : Bool :=
  m.state.halted || decide (setup.program.length ≤ m.state.pointer)

variable [Writer W] [LineSource I]

/-- Runs the machine to its end. -/
def run (setup : Setup) : Nat → Machine W I → Outcome Unit W I
  | 0, _ => .cutOff
  | fuel + 1, m =>
    if m.isFinished setup then m.flush (setup.program.position m.state.pointer)
    else
      match step setup fuel m with
      | .done _ m => run setup fuel m
      | .fault cause m => .fault cause m
      | .cutOff => .cutOff

/-- Forgets the state; what was read and written stays. -/
def reset (m : Machine W I) : Machine W I := { m with state := .initial }

end VerbScript.Machine
