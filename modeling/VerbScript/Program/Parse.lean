import VerbScript.Node.Parse
import VerbScript.Program

/-!
# VerbScript.Program.Parse

Programs read from tokens: expressions and markers one after another, each at the place of its
first token, until the tokens run out.
-/

namespace VerbScript.Program

/-- Reads at most `count` instructions, which must use up the tokens. -/
def parseInstructions : Nat → Tokens → Parsed Program
  | _, [] => .ok []
  | 0, t :: _ => .error ⟨.unexpectedEnd, t.position⟩
  | count + 1, t :: rest => do
    let (node, rest) ← Node.expression false t.position (t :: rest)
    let instructions ← parseInstructions count rest
    .ok (⟨node, t.position⟩ :: instructions)

/-- The program that the tokens spell. Every instruction takes a token at least. -/
def ofTokens (tokens : Tokens) : Parsed Program :=
  parseInstructions tokens.length tokens

end VerbScript.Program
