import VerbScript.Token
import VerbScript.Token.Piece

/-!
# VerbScript.Token.Stream

The token stream of a source text. Its items are tokens and scan errors, in the order of the text;
reading goes on after an error. `Token.ofSource` is the strict form: all tokens, or the first error.
-/

namespace VerbScript

/-- Why a text is not a sequence of tokens. -/
inductive ScanError where
  | unexpectedCharacter (c : Char)
  /-- A phrase that `keyword` begins goes on with another word than `expected`, or not at all. -/
  | brokenPhrase (keyword expected : String) (found : Option String)
  deriving DecidableEq, Repr

def ScanError.message : ScanError → String
  | .unexpectedCharacter c => s!"Unexpected character '{c}'."
  | .brokenPhrase keyword expected (some found) =>
    s!"Keyword '{keyword}' must be followed by '{expected}', found '{found}'."
  | .brokenPhrase keyword expected none =>
    s!"Keyword '{keyword}' must be followed by '{expected}', found end of input."

/-- A phrase that has begun: the token it spells, where it began, and the words still due. -/
structure Phrase where
  token : Token
  keyword : String
  start : Position
  next : String
  more : List String
  deriving DecidableEq, Repr

/-- What the reader is in the middle of. -/
inductive ReadMode where
  | code
  | comment
  | phrase (p : Phrase)
  deriving DecidableEq, Repr

namespace Token

abbrev Item := Except (Located ScanError) (Located Token)

/-- The error of a phrase that goes on with `found`. -/
def brokenPhrase (p : Phrase) (found : Option String) : Item :=
  .error ⟨.brokenPhrase p.keyword p.next found, p.start⟩

/-- Reads a piece of code: the items it makes, and what the reader is then in the middle of. -/
def readCode (piece : Piece) (place : Position) : List Item × ReadMode :=
  match piece with
  | .opening => ([.ok ⟨.punctuation '(', place⟩], .code)
  | .closing => ([.ok ⟨.punctuation ')', place⟩], .code)
  | .stray c => ([.error ⟨.unexpectedCharacter c, place⟩], .code)
  | .word letters =>
    match Meaning.ofWord (String.ofList letters) with
    | .nothing => ([], .code)
    | .comment => ([], .comment)
    | .token t => ([.ok ⟨t, place⟩], .code)
    | .phrase t opener next more => ([], .phrase ⟨t, opener, place, next, more⟩)

/-- Reads a piece of a comment, which ends with the first word that closes it. -/
def readComment (piece : Piece) : ReadMode :=
  match piece with
  | .word letters => if String.ofList letters = Vocabulary.commentEnd then .code else .comment
  | _ => .comment

/-- Reads a piece of a phrase. Filler is passed over; a piece that does not fit ends the phrase. -/
def readPhrase (p : Phrase) (piece : Piece) : List Item × ReadMode :=
  if Vocabulary.isFiller piece.text then ([], .phrase p)
  else if piece.text = p.next then
    match p.more with
    | [] => ([.ok ⟨p.token, p.start⟩], .code)
    | next :: more => ([], .phrase { p with next := next, more := more })
  else ([brokenPhrase p (some piece.text)], .code)

def read (mode : ReadMode) (piece : Located Piece) : List Item × ReadMode :=
  match mode with
  | .code => readCode piece.value piece.position
  | .comment => ([], readComment piece.value)
  | .phrase p => readPhrase p piece.value

/-- What is still to report when the text ends. -/
def finish : ReadMode → List Item
  | .phrase p => [brokenPhrase p none]
  | _ => []

def stream (mode : ReadMode) : List (Located Piece) → List Item
  | [] => finish mode
  | piece :: rest =>
    let (items, next) := read mode piece
    items ++ stream next rest

/-- The token stream of a source text, errors included. -/
def streamOf (source : String) : List Item := stream .code (Piece.ofSource source)

/-- All values, or the first error. -/
def collect : List Item → Except (Located ScanError) (List (Located Token))
  | [] => .ok []
  | .error e :: _ => .error e
  | .ok t :: rest =>
    match collect rest with
    | .ok ts => .ok (t :: ts)
    | .error e => .error e

/-- The tokens of a source text, or the first error in it. -/
def ofSource (source : String) : Except (Located ScanError) (List (Located Token)) :=
  collect (streamOf source)

end Token
end VerbScript
