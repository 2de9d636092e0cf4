import VerbScript.Operator

/-!
# VerbScript.Vocabulary

The words of the language. Each class of words is a table, and a word is looked up in it; a word
in no table is free to name a variable or a function.
-/

namespace VerbScript

/-- Words that are an instruction by themselves. -/
inductive Keyword where
  | print
  | send
  | scroll
  | save
  | load
  | change
  | write
  | scan
  | press
  | burn
  | check
  | fix
  | jam
  | lock
  | start
  | break
  | leave
  | find
  deriving DecidableEq, Repr

namespace Keyword

def word : Keyword → String
  | .print => "print"
  | .send => "send"
  | .scroll => "scroll"
  | .save => "save"
  | .load => "load"
  | .change => "change"
  | .write => "write"
  | .scan => "scan"
  | .press => "press"
  | .burn => "burn"
  | .check => "check"
  | .fix => "fix"
  | .jam => "jam"
  | .lock => "lock"
  | .start => "start"
  | .break => "break"
  | .leave => "leave"
  | .find => "find"

def all : List Keyword :=
  [.print, .send, .scroll, .save, .load, .change, .write, .scan, .press, .burn, .check, .fix, .jam,
   .lock, .start, .break, .leave, .find]

def ofWord? (word : String) : Option Keyword := all.find? (·.word == word)

/-- Whether the keyword stands between the two branches of a conditional. -/
def isElseMarker : Keyword → Bool
  | .fix | .jam => true
  | _ => false

theorem isElseMarker_iff {k : Keyword} : k.isElseMarker = true ↔ k = .fix ∨ k = .jam := by
  cases k <;> simp [isElseMarker]

/-- Whether the keyword makes a loop of the `check` two instructions later. -/
def isLoopMarker : Keyword → Bool
  | .lock | .start => true
  | _ => false

end Keyword

/-- Words from which expressions and function headers are built. They leave no instruction. -/
inductive StructuralWord where
  | name
  | rename
  | zip
  | unzip
  | use
  | code
  | call
  | bring
  | plug
  | format
  deriving DecidableEq, Repr

namespace StructuralWord

def word : StructuralWord → String
  | .name => "name"
  | .rename => "rename"
  | .zip => "zip"
  | .unzip => "unzip"
  | .use => "use"
  | .code => "code"
  | .call => "call"
  | .bring => "bring"
  | .plug => "plug"
  | .format => "format"

def all : List StructuralWord :=
  [.name, .rename, .zip, .unzip, .use, .code, .call, .bring, .plug, .format]

def ofWord? (word : String) : Option StructuralWord := all.find? (·.word == word)

end StructuralWord

namespace Vocabulary

/-- The word that marks a target of jumps. -/
def labelWord : String := "technologic"

def commentStart : String := "pause"

def commentEnd : String := "play"

/-- The word that takes a value off the stack. -/
def popWord : String := "fax"

/-- The digit words in order of their value, and last the decimal point. -/
def digitWords : List String :=
  ["erase", "click", "watch", "view", "work", "surf", "update", "upgrade", "zoom", "fill", "point"]

/-- The value that stands for the decimal point. -/
def decimalPoint : Nat := 10

def digit? (word : String) : Option Nat := digitWords.findIdx? (· == word)

/-- Words with a second spelling, each with the spelling that counts. -/
def synonyms : List (String × String) :=
  [("tune", "fix"), ("snap", "jam"), ("rewrite", "write"), ("rate", "check")]

/-- The spelling of a word that counts. -/
def canonical (word : String) : String := (synonyms.lookup word).getD word

/-- Words that may stand anywhere and mean nothing. -/
def isFiller (word : String) : Bool := ["it", "quick", "mail"].contains word

def binaryWords : List (String × BinaryOperator) :=
  [("touch", .add), ("trash", .subtract), ("cross", .multiply), ("cut", .divide),
   ("crack", .floorDivide), ("rip", .remainder), ("drag", .equal), ("pay", .less), ("buy", .less),
   ("charge", .greater)]

def unaryWords : List (String × UnaryOperator) :=
  [("turn", .negate), ("switch", .not), ("paste", .paste), ("unlock", .giveBack)]

def binary? (word : String) : Option BinaryOperator := binaryWords.lookup word

def unary? (word : String) : Option UnaryOperator := unaryWords.lookup word

/-- The words that must follow a word. -/
def continuation? (word : String) : Option (List String) :=
  if word = "drag" then some ["and", "drop"] else none

/-- Whether the word occurs only after another one. -/
def isContinuation (word : String) : Bool := ["and", "drop"].contains word

/-- Whether a word is free to name a variable or a function. -/
def isName (word : String) : Bool :=
  let word := canonical word
  !(isFiller word
    || word == labelWord
    || word == commentStart
    || isContinuation word
    || (digit? word).isSome
    || (binary? word).isSome
    || (unary? word).isSome
    || (Keyword.ofWord? word).isSome
    || (StructuralWord.ofWord? word).isSome
    || word == popWord)

end Vocabulary
end VerbScript
