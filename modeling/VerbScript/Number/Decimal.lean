import VerbScript.Number.Exact

/-!
# VerbScript.Number.Decimal

Decimals, and the texts that are read as numbers.

A text is an optional sign followed by `inf`, `infinity` or `nan` in any case, or by decimal digits
with at most one point, at least one digit, and an optional exponent. It is read as the nearest
binary64 value: too large a text gives infinity, too small a text zero.
-/

namespace VerbScript

/-- The decimal `coefficient · 10^exponent`. -/
structure Decimal where
  coefficient : Nat
  exponent : Int
  deriving DecidableEq, Repr

namespace Decimal

/-- The unsigned bit pattern of the binary64 value nearest to the decimal.

The first three cases only keep the powers of ten small: such a decimal is zero, at least `10^310`,
or below half a unit. -/
def nearestBits (d : Decimal) : Nat :=
  if d.coefficient = 0 then 0
  else if 310 ≤ d.exponent then Exact.infinityBits
  else if d.exponent + 400 + d.coefficient.log2 < 0 then 0
  else if 0 ≤ d.exponent then
    Exact.nearestBits (d.coefficient * Nat.pow 10 d.exponent.toNat * Exact.one) 1
  else
    Exact.nearestBits (d.coefficient * Exact.one) (Nat.pow 10 (-d.exponent).toNat)

/-- The natural number spelled by a list of decimal digits. -/
def ofDigits (digits : List Char) : Nat :=
  digits.foldl (fun n c => 10 * n + (c.toNat - '0'.toNat)) 0

def natural? (text : List Char) : Option Nat :=
  if text ≠ [] ∧ text.all Char.isDigit then some (ofDigits text) else none

/-- Reads an exponent with an optional sign. -/
def signedExponent? : List Char → Option Int
  | '+' :: text => (natural? text).map Int.ofNat
  | '-' :: text => (natural? text).map fun n => -Int.ofNat n
  | text => (natural? text).map Int.ofNat

/-- Reads what may follow the digits: nothing, or the exponent mark and an exponent. -/
def exponent? : List Char → Option Int
  | [] => some 0
  | c :: text => if c = 'e' ∨ c = 'E' then signedExponent? text else none

/-- Splits what follows the whole part into the digits after the point and the rest. -/
def splitFraction : List Char → List Char × List Char
  | '.' :: text => (text.takeWhile Char.isDigit, text.dropWhile Char.isDigit)
  | text => ([], text)

def ofText? (text : List Char) : Option Decimal :=
  let whole := text.takeWhile Char.isDigit
  let (fraction, rest) := splitFraction (text.dropWhile Char.isDigit)
  if whole ++ fraction = [] then none
  else (exponent? rest).map fun e => ⟨ofDigits (whole ++ fraction), e - fraction.length⟩

end Decimal

namespace Number

/-- Reads a number without its sign. -/
def ofUnsignedText? (negative : Bool) (text : List Char) : Option Number :=
  let word := text.map Char.toLower
  if word = "inf".toList ∨ word = "infinity".toList then some (infinity negative)
  else if word = "nan".toList then some nan
  else (Decimal.ofText? text).map fun d => ofMagnitude negative d.nearestBits

/-- Reads a number. The text must be a number from its first character to its last. -/
def ofText? (text : String) : Option Number :=
  match text.toList with
  | '+' :: rest => ofUnsignedText? false rest
  | '-' :: rest => ofUnsignedText? true rest
  | rest => ofUnsignedText? false rest

end Number
end VerbScript
