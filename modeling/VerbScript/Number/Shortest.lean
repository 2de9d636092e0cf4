import VerbScript.Number.Decimal
import VerbScript.Text.Ends

/-!
# VerbScript.Number.Shortest

The written form of a number: the fewest decimal digits that read back as the number, laid out
without an exponent.

The decimals with a given number of digits form a grid. From the coarsest grid on, the two grid
points next to the value are tried, and the first one that reads back is taken; of two on the same
grid the nearer, and the upper one of two equally near. Seventeen digits always suffice; the exact
decimal stands behind them.
-/

namespace VerbScript

namespace Decimal

/-- The exact decimal of a number of units. -/
def ofUnits (units : Nat) : Decimal := ⟨units * Nat.pow 5 1074, -1074⟩

/-- The value of `units` on the grid of multiples of `10^exponent`, as a fraction. -/
def onGrid (units : Nat) (exponent : Int) : Nat × Nat :=
  if 0 ≤ exponent then (units, Exact.one * Nat.pow 10 exponent.toNat)
  else (units * Nat.pow 10 (-exponent).toNat, Exact.one)

/-- The best multiple of `10^exponent` that reads back as `units`, if there is one. -/
def gridPoint? (units : Nat) (exponent : Int) : Option Decimal :=
  let bits := Exact.nearestBits units 1
  let (num, den) := onGrid units exponent
  let below : Decimal := ⟨num / den, exponent⟩
  let above : Decimal := ⟨num / den + 1, exponent⟩
  match decide (below.nearestBits = bits), decide (above.nearestBits = bits) with
  | true, true => some (if 2 * (num % den) < den then below else above)
  | true, false => some below
  | false, true => some above
  | false, false => none

/-- The exponent of the first digit of a nonzero value. -/
def leadingExponent (units : Nat) : Int :=
  if Exact.one ≤ units then ((Nat.toDigits 10 (units / Exact.one)).length : Int) - 1
  else -((Nat.toDigits 10 ((Exact.one - 1) / units)).length : Int)

/-- The shortest decimal that reads back as `units`. -/
def shortest (units : Nat) : Decimal :=
  if units = 0 then ⟨0, 0⟩
  else
    let first := leadingExponent units
    ((List.range 17).findSome? fun i => gridPoint? units (first - Int.ofNat i)).getD (ofUnits units)

/-- The last `width` decimal digits of `n`, zeros included. -/
def lastDigits : Nat → Nat → List Char
  | 0, _ => []
  | width + 1, n => lastDigits width (n / 10) ++ [Nat.digitChar (n % 10)]

/-- The decimal in positional form: a point only before a digit other than a final zero. -/
def positional (d : Decimal) : List Char :=
  if 0 ≤ d.exponent then Nat.toDigits 10 (d.coefficient * Nat.pow 10 d.exponent.toNat)
  else
    let places := (-d.exponent).toNat
    let whole := Nat.toDigits 10 (d.coefficient / Nat.pow 10 places)
    match Text.dropFinal (· = '0') (lastDigits places d.coefficient) with
    | [] => whole
    | fraction => whole ++ '.' :: fraction

end Decimal

/-- The sign in front of a negative quantity. -/
def signText (negative : Bool) : String := if negative then "-" else ""

/-- The written form of a number. Zero keeps its sign, NaN has none. -/
def Number.text (x : Number) : String :=
  match x.exact with
  | .nan => "NaN"
  | .infinite negative => signText negative ++ "inf"
  | .finite negative units =>
    signText negative ++ String.ofList (Decimal.shortest units).positional

end VerbScript
