/-!
# VerbScript.Number.Exact

The numbers of the language are binary64 values. Every finite one is a whole multiple of the
smallest positive one, `2^-1074`, so it is read here as a sign and a natural number of such units.
Rounding, division and comparison with integers are then exact arithmetic in `Nat`.

`Number.exact` says what a number denotes; `Number.ofRatio` is the number nearest to a given
fraction, an exact half going to the even neighbour.
-/

namespace VerbScript

/-- A number of the language: a binary64 value. -/
abbrev Number := Float

/-- What a number denotes. `finite negative units` is `± units · 2^-1074`. -/
inductive Exact where
  | nan
  | infinite (negative : Bool)
  | finite (negative : Bool) (units : Nat)
  deriving DecidableEq, Repr

namespace Exact

/-- How many units make one. -/
def one : Nat := Nat.pow 2 1074

/-- The weight of the exponent field in a bit pattern, and the hidden bit of a significand. -/
def hidden : Nat := Nat.pow 2 52

/-- The weight of the sign in a bit pattern. -/
def signWeight : Nat := Nat.pow 2 63

/-- The bit pattern of positive infinity, the first one past the finite values. -/
def infinityBits : Nat := 2047 * hidden

/-- Reads a bit pattern: sign, exponent field, fraction. -/
def ofBits (bits : Nat) : Exact :=
  let negative := decide (bits / signWeight % 2 = 1)
  let exponent := bits / hidden % 2048
  let fraction := bits % hidden
  if exponent = 2047 then
    if fraction = 0 then .infinite negative else .nan
  else if exponent = 0 then
    .finite negative fraction
  else
    .finite negative ((hidden + fraction) * Nat.pow 2 (exponent - 1))

/-- The whole number nearest to `num / den`; a half goes to the even neighbour. -/
def roundQuotient (num den : Nat) : Nat :=
  let low := num / den
  let rest := num % den
  if 2 * rest < den then low
  else if den < 2 * rest then low + 1
  else low + low % 2

/-- The unsigned bit pattern of the value nearest to `num / den` units.

Consecutive patterns are consecutive values, so a significand that rounds up to the next power of
two carries into the exponent by itself. -/
def nearestBits (num den : Nat) : Nat :=
  let shift := (num / den).log2 - 52
  min infinityBits (shift * hidden + roundQuotient num (den * Nat.pow 2 shift))

end Exact

namespace Number

/-- What the number denotes. -/
def exact (x : Number) : Exact := Exact.ofBits x.toBits.toNat

/-- The number with the given sign and unsigned bit pattern. -/
def ofMagnitude (negative : Bool) (bits : Nat) : Number :=
  Float.ofBits (UInt64.ofNat (if negative then Exact.signWeight + bits else bits))

/-- The number nearest to `± num / den` units. -/
def ofRatio (negative : Bool) (num den : Nat) : Number :=
  ofMagnitude negative (Exact.nearestBits num den)

/-- The number nearest to a natural number. -/
def ofNat (n : Nat) : Number := ofRatio false (n * Exact.one) 1

def nan : Number := Float.ofBits 0x7FF8000000000000

def infinity (negative : Bool) : Number := ofMagnitude negative Exact.infinityBits

end Number
end VerbScript
