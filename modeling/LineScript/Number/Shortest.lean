import LineScript.Number.Binary

/-!
# Shortest decimals

The decimal with the fewest digits that reads back as a given double. A double stands for all
the reals that round to it; of the decimals with `k` digits, only the two neighbours of the value
need to be looked at, and the first `k` for which one of them rounds to the double is the answer.
-/

namespace LineScript.Number

/-- The value `digits * 10 ^ exponent`. -/
structure Decimal where
  digits : Nat
  exponent : Int
deriving DecidableEq, Inhabited

/-- How many decimal digits a positive number has. -/
def decimalLength (n : Nat) : Nat :=
  (Nat.toDigits 10 n).length

/-- The exponent of the largest power of ten that a positive quotient reaches. -/
def floorLog10 (num den : Nat) : Int :=
  if den ≤ num then (decimalLength (num / den) : Int) - 1
  else -(decimalLength ((den - 1) / num) : Int)

/-- The reals that round to `mantissa * 2 ^ exponent`, in quarters of the unit `2 ^ exponent`. The
ends belong to it when the mantissa is even. -/
structure RoundingInterval where
  low : Nat
  high : Nat
  exponent : Int
  closed : Bool
deriving DecidableEq, Inhabited

/-- The reals that round to a finite double. Below a power of two the doubles are twice as dense,
unless they are the finest ones. -/
def RoundingInterval.of (mantissa : Nat) (exponent : Int) : RoundingInterval :=
  let below := if mantissa == twoTo fractionBits && exponent > leastExponent then 1 else 2
  ⟨4 * mantissa - below, 4 * mantissa + 2, exponent - 2, mantissa % 2 == 0⟩

/-- Whether a decimal rounds to the double of the interval. -/
def RoundingInterval.contains (i : RoundingInterval) (d : Decimal) : Bool :=
  let two := scale2 i.exponent
  let ten := scale10 d.exponent
  let value := d.digits * ten.1 * two.2
  let low := i.low * two.1 * ten.2
  let high := i.high * two.1 * ten.2
  if i.closed then low ≤ value && value ≤ high else low < value && value < high

/-- The decimal nearest to `num / den` on the grid of the multiples of `10 ^ exponent`, among the
two neighbours that lie in the interval. -/
def nearestInside (num den : Nat) (i : RoundingInterval) (exponent : Int) : Option Decimal :=
  let ten := scale10 exponent
  let n := num * ten.2
  let d := den * ten.1
  let lower : Decimal := ⟨n / d, exponent⟩
  let upper : Decimal := ⟨n / d + 1, exponent⟩
  match i.contains lower, i.contains upper with
  | true, true => if 2 * (n % d) < d then some lower else some upper
  | true, false => some lower
  | false, true => some upper
  | false, false => none

/-- Removes zeros at the end of the digits, up to the given number of them. -/
def Decimal.normalize (d : Decimal) : Nat → Decimal
  | 0 => d
  | n + 1 =>
    if d.digits % 10 == 0 && d.digits != 0 then
      (Decimal.mk (d.digits / 10) (d.exponent + 1)).normalize n
    else d

/-- The most digits a double needs. -/
def mostDigits : Nat := 17

/-- The decimal with the fewest digits that reads back as `mantissa * 2 ^ exponent`, and of those
the nearest to it. -/
def shortest (mantissa : Nat) (exponent : Int) : Decimal :=
  let two := scale2 exponent
  let num := mantissa * two.1
  let den := two.2
  let i := RoundingInterval.of mantissa exponent
  let top := floorLog10 num den
  let found := (List.range mostDigits).findSome? fun (k : Nat) =>
    nearestInside num den i (top - (k : Int))
  (found.getD ⟨num, 0⟩).normalize (mostDigits + 1)

/-- The exponent of the leading digit. -/
def Decimal.leadingExponent (d : Decimal) : Int :=
  d.exponent + (decimalLength d.digits : Int) - 1

end LineScript.Number
