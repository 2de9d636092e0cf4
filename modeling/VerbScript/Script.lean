import VerbScript.Machine.Run
import VerbScript.Program.Parse
import VerbScript.Token.Stream

/-!
# VerbScript.Script

Scripts from source text to outcome: tokens, program, run. The first layer that fails ends it.
-/

namespace VerbScript

/-- Why a script has no result. -/
inductive Failure where
  | scan (error : Located ScanError)
  | parse (error : Located ParseError)
  | run (fault : Located Fault)
  deriving Repr

namespace Failure

def position : Failure → Position
  | .scan error => error.position
  | .parse error => error.position
  | .run fault => fault.position

def cause : Failure → String
  | .scan error => error.value.message
  | .parse error => error.value.message
  | .run fault => fault.value.message

def message (f : Failure) : String := report f.position f.cause

end Failure

namespace Script

/-- The program that a source text spells. -/
def parse (source : String) : Except Failure Program :=
  match Token.ofSource source with
  | .error error => .error (.scan error)
  | .ok tokens =>
    match Program.ofTokens tokens with
    | .error error => .error (.parse error)
    | .ok program => .ok program

inductive Ending where
  | success
  | failure (f : Failure)
  | cutOff
  deriving Repr

/-- Runs a source text on a machine: how it ended, and what was written and read until then. -/
def run {W I : Type} [Writer W] [LineSource I] (source : String) (depthLimit fuel : Nat)
    (m : Machine W I) : Ending × Machine W I :=
  match parse source with
  | .error f => (.failure f, m)
  | .ok program =>
    match Machine.run ⟨program, depthLimit⟩ fuel m with
    | .done _ m => (.success, m)
    | .fault cause m => (.failure (.run cause), m)
    | .cutOff => (.cutOff, m)

end Script
end VerbScript
