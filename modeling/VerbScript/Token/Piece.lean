import VerbScript.Position

/-!
# VerbScript.Token.Piece

The pieces of a source text: words, parentheses and stray characters, each with its place.

A word is a longest run of ASCII letters and digits. Blanks, commas and dashes separate words and
are dropped; so are line feeds, which also start a new line.
-/

namespace VerbScript

inductive Piece where
  | word (letters : List Char)
  | opening
  | closing
  | stray (c : Char)
  deriving DecidableEq, Repr

namespace Piece

/-- Whether a character belongs to words. -/
def isLetter (c : Char) : Bool := c.isAlphanum

/-- Whether a character separates words and means nothing else. -/
def isSeparator (c : Char) : Bool :=
  ['\n', ' ', '\t', '\r', '\x0c', ',', '-'].contains c

def text : Piece → String
  | .word letters => String.ofList letters
  | .opening => "("
  | .closing => ")"
  | .stray c => String.singleton c

/-- Puts a letter in front of pieces: it joins a word that starts right after it. -/
def consLetter (c : Char) (place : Position) (pieces : List (Located Piece)) :
    List (Located Piece) :=
  match pieces with
  | ⟨.word letters, start⟩ :: rest =>
    if start = place.advance c then ⟨.word (c :: letters), place⟩ :: rest
    else ⟨.word [c], place⟩ :: pieces
  | _ => ⟨.word [c], place⟩ :: pieces

/-- The pieces of a text that starts at `place`. -/
def ofChars (place : Position) : List Char → List (Located Piece)
  | [] => []
  | c :: text =>
    let rest := ofChars (place.advance c) text
    if isLetter c then consLetter c place rest
    else if isSeparator c then rest
    else if c = '(' then ⟨.opening, place⟩ :: rest
    else if c = ')' then ⟨.closing, place⟩ :: rest
    else ⟨.stray c, place⟩ :: rest

def ofSource (source : String) : List (Located Piece) := ofChars .first source.toList

end Piece
end VerbScript
