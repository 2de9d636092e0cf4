import VerbScript.Vocabulary

/-!
# VerbScript.Token

Tokens: the words and parentheses of a source text with their meaning. Filler words, comments and
the continuations of phrases leave no token.
-/

namespace VerbScript

inductive Token where
  | punctuation (c : Char)
  | binary (op : BinaryOperator)
  | unary (op : UnaryOperator)
  /-- A digit word; the value 10 is the decimal point. -/
  | digit (value : Nat)
  | keyword (k : Keyword)
  | structural (word : StructuralWord)
  | label
  | pop
  /-- A word without a meaning of its own. -/
  | name (text : String)
  deriving DecidableEq, Repr

namespace Token

/-- How an error message speaks of the token. -/
def text : Token → String
  | .punctuation c => s!"'{c}'"
  | .binary op => s!"operator '{op.symbol}'"
  | .unary op => s!"operator '{op.symbol}'"
  | .digit value =>
    match Vocabulary.digitWords[value]? with
    | some word => s!"digit '{word}'"
    | none => s!"digit {value}"
  | .keyword k => s!"keyword '{k.word}'"
  | .structural word => s!"'{word.word}'"
  | .label => s!"label '{Vocabulary.labelWord}'"
  | .pop => s!"'{Vocabulary.popWord}'"
  | .name text => s!"identifier '{text}'"

end Token

/-- What a word of the source stands for. -/
inductive Meaning where
  | nothing
  | comment
  | token (t : Token)
  /-- A token that must be completed by the words `next :: more`. -/
  | phrase (t : Token) (keyword next : String) (more : List String)
  deriving DecidableEq, Repr

namespace Meaning

/-- An operator, with its continuation if it has one. -/
def ofOperator (word : String) (t : Token) : Meaning :=
  match Vocabulary.continuation? word with
  | some (next :: more) => .phrase t word next more
  | _ => .token t

/-- The meaning of a word in its canonical spelling. The tables have no word in common, and a word
in none of them is a name: whether a name may stand here is decided later. -/
def ofCanonical (word : String) : Meaning :=
  if Vocabulary.isFiller word then .nothing
  else if word = Vocabulary.commentStart then .comment
  else if word = Vocabulary.labelWord then .token .label
  else match Vocabulary.digit? word with
  | some value => .token (.digit value)
  | none =>
  match Vocabulary.binary? word with
  | some op => ofOperator word (.binary op)
  | none =>
  match Vocabulary.unary? word with
  | some op => ofOperator word (.unary op)
  | none =>
  match Keyword.ofWord? word with
  | some k => .token (.keyword k)
  | none =>
  match StructuralWord.ofWord? word with
  | some w => .token (.structural w)
  | none =>
  if word = Vocabulary.popWord then .token .pop else .token (.name word)

/-- The meaning of a word in any spelling. -/
def ofWord (word : String) : Meaning := ofCanonical (Vocabulary.canonical word)

end Meaning
end VerbScript
