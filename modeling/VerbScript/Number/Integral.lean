import VerbScript.Number.Shortest

/-!
# VerbScript.Number.Integral

Whole numbers among the numbers of the language: rounding down, remainders, and the values that
serve as an index or as a character code. All of it is computed on exact values.
-/

namespace VerbScript

namespace Exact

/-- The natural number that the value equals, if it equals one. Both zeros equal zero. -/
def natural? : Exact → Option Nat
  | .finite negative units =>
    if units % one = 0 ∧ (negative = false ∨ units = 0) then some (units / one) else none
  | _ => none

end Exact

namespace Number

/-- The largest whole number up to which every whole number is a number of the language. -/
def maxExactInteger : Nat := 9007199254740991

/-- The number as an index: a natural number up to `maxExactInteger`. -/
def index? (x : Number) : Option Nat :=
  match x.exact.natural? with
  | some n => if n ≤ maxExactInteger then some n else none
  | none => none

/-- The character whose code the number is. -/
def character? (x : Number) : Option Char :=
  match x.exact.natural? with
  | some n => if n.isValidChar then some (Char.ofNat n) else none
  | none => none

/-- The code of a character. -/
def ofChar (c : Char) : Number := ofNat c.toNat

/-- The largest whole number not above `x`. Values that are not finite stay as they are. -/
def floor (x : Number) : Number :=
  match x.exact with
  | .finite negative units =>
    if units % Exact.one = 0 then x
    else if negative then ofRatio true ((units / Exact.one + 1) * Exact.one) 1
    else ofRatio false (units / Exact.one * Exact.one) 1
  | _ => x

/-- The remainder of a division that rounds toward zero. It has the sign of the dividend, also
when it is zero; a finite dividend is its own remainder by an infinite divisor. -/
def remainder (x y : Number) : Number :=
  match x.exact, y.exact with
  | .finite negative units, .finite _ divisor =>
    if divisor = 0 then nan else ofRatio negative (units % divisor) 1
  | .finite _ _, .infinite _ => x
  | _, _ => nan

/-- How a program writes a number: a whole number that is exact in every place is written as an
integer, so that zero has no sign; any other number in its written form. -/
def plainText (x : Number) : String :=
  match x.exact with
  | .finite negative units =>
    if units % Exact.one = 0 ∧ units / Exact.one ≤ maxExactInteger then
      signText (negative && decide (units ≠ 0))
        ++ String.ofList (Nat.toDigits 10 (units / Exact.one))
    else x.text
  | _ => x.text

/-- Truth as a number. -/
def ofBool (b : Bool) : Number := if b then 1 else 0

/-- Whether the number counts as true: it differs from zero. -/
def isTrue (x : Number) : Bool := x != 0

end Number
end VerbScript
