/-!
# VerbScript.Position

Places in a source text, and things found at a place.
-/

namespace VerbScript

/-- A place in a source text. Lines count from 1; columns count the bytes of the line's UTF-8 form
from 1. The place `0, 0` stands for no place at all. -/
structure Position where
  line : Nat := 0
  column : Nat := 0
  deriving DecidableEq, Repr, Inhabited

namespace Position

def first : Position := ⟨1, 1⟩

/-- The place right after a character. -/
def advance (place : Position) (c : Char) : Position :=
  if c = '\n' then ⟨place.line + 1, 1⟩ else ⟨place.line, place.column + c.utf8Size⟩

def text (place : Position) : String := s!"line {place.line}, column {place.column}"

end Position

/-- Something with the place where it was found. -/
structure Located (α : Type) where
  value : α
  position : Position
  deriving DecidableEq, Repr

/-- How every error is reported: its place, then its cause in words. -/
def report (position : Position) (cause : String) : String :=
  s!"Error at {position.text}: {cause}"

end VerbScript
