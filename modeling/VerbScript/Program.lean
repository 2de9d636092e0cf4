import VerbScript.Node
import VerbScript.Position

/-!
# VerbScript.Program

Programs: flat sequences of nodes, each at the place of its first token, and their listing.
-/

namespace VerbScript

abbrev Program := List (Located Node)

namespace Program

/-- The program of bare nodes, each on a line of its own. -/
def ofNodes (nodes : List Node) : Program :=
  nodes.mapIdx fun i node => ⟨node, ⟨i + 1, 1⟩⟩

def node? (p : Program) (i : Nat) : Option Node := p[i]?.map (·.value)

/-- The place of the instruction at an index; past the end, that of the last instruction. -/
def position (p : Program) (i : Nat) : Position :=
  match p[i]? with
  | some instruction => instruction.position
  | none =>
    match p.getLast? with
    | some instruction => instruction.position
    | none => {}

def padLeft (width : Nat) (text : String) : String :=
  String.ofList (List.replicate (width - text.length) ' ') ++ text

def padRight (width : Nat) (text : String) : String :=
  text ++ String.ofList (List.replicate (width - text.length) ' ')

/-- The line of an instruction in a listing: its index, its place, its node. -/
def line (i : Nat) (instruction : Located Node) : String :=
  padLeft 4 (toString i) ++ "  "
    ++ padLeft 4 (toString instruction.position.line) ++ ":"
    ++ padRight 3 (toString instruction.position.column) ++ " "
    ++ instruction.value.text ++ "\n"

def listing (p : Program) : String := String.join (p.mapIdx line)

end Program
end VerbScript
