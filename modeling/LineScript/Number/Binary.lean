/-!
# Binary fractions

A finite double is a whole number times a power of two, with a sign. This module takes a double
apart and finds the double nearest to a quotient of whole numbers. All arithmetic is exact.
-/

namespace LineScript.Number

/-- What a double stands for. -/
inductive Binary where
  | nan
  | infinite (negative : Bool)
  /-- The value `mantissa * 2 ^ exponent`, or its negation. -/
  | finite (negative : Bool) (mantissa : Nat) (exponent : Int)
deriving DecidableEq, Inhabited

/-- A power of two. -/
def twoTo (n : Nat) : Nat := Nat.pow 2 n

/-- A power of ten. -/
def tenTo (n : Nat) : Nat := Nat.pow 10 n

/-- How many bits of a double hold the fraction. -/
def fractionBits : Nat := 52

/-- The exponent of the finest doubles. -/
def leastExponent : Int := -1074

/-- The bits of the positive infinity. -/
def infinityBits : Nat := 2047 * twoTo fractionBits

/-- The bit of the sign. -/
def signBit : Nat := twoTo 63

/-- The value that the bits of a double stand for. -/
def Binary.ofBits (bits : Nat) : Binary :=
  let negative := bits / signBit % 2 == 1
  let exponent := bits / twoTo fractionBits % 2048
  let fraction := bits % twoTo fractionBits
  if exponent == 2047 then
    if fraction == 0 then .infinite negative else .nan
  else if exponent == 0 then .finite negative fraction leastExponent
  else .finite negative (fraction + twoTo fractionBits) ((exponent : Int) - 1075)

/-- The value of a double. -/
def decode (x : Float) : Binary :=
  Binary.ofBits x.toBits.toNat

/-- A quotient rounded to the nearest whole number, a half to the even neighbour. -/
def roundDiv (num den : Nat) : Nat :=
  let q := num / den
  let r := num % den
  if 2 * r < den || (2 * r == den && q % 2 == 0) then q else q + 1

/-- Two to the given power, as a pair of numerator and denominator. -/
def scale2 (e : Int) : Nat × Nat :=
  (twoTo e.toNat, twoTo (-e).toNat)

/-- Ten to the given power, as a pair of numerator and denominator. -/
def scale10 (e : Int) : Nat × Nat :=
  (tenTo e.toNat, tenTo (-e).toNat)

/-- The exponent of the largest power of two that a positive quotient reaches. -/
def floorLog2 (num den : Nat) : Int :=
  let k : Int := (num.log2 : Int) - (den.log2 : Int)
  let s := scale2 k
  if den * s.1 ≤ num * s.2 then k else k - 1

/-- The bits of the double nearest to a quotient. A half goes to the double with the even mantissa,
and what lies beyond the largest double is infinite. -/
def nearestBits (num den : Nat) : Nat :=
  if num == 0 then 0
  else
    let q := max (floorLog2 num den - fractionBits) leastExponent
    let s := scale2 q
    let m := roundDiv (num * s.2) (den * s.1)
    min ((q - leastExponent).toNat * twoTo fractionBits + m) infinityBits

/-- The double with the given sign and the given bits below the sign. -/
def ofSignBits (negative : Bool) (bits : Nat) : Float :=
  Float.ofBits (UInt64.ofNat (if negative then signBit + bits else bits))

/-- The double nearest to a quotient, with the given sign. -/
def ofRatio (negative : Bool) (num den : Nat) : Float :=
  ofSignBits negative (nearestBits num den)

/-- The double nearest to `mantissa * 2 ^ exponent`, with the given sign. -/
def ofScaled (negative : Bool) (mantissa : Nat) (exponent : Int) : Float :=
  let s := scale2 exponent
  ofRatio negative (mantissa * s.1) s.2

/-- The double nearest to a whole number. -/
def ofInt (i : Int) : Float :=
  ofRatio (i < 0) i.natAbs 1

/-- The double nearest to a natural number. -/
def ofNat (n : Nat) : Float :=
  ofRatio false n 1

/-- The double that is not a number. -/
def notANumber : Float := Float.ofBits 0x7FF8000000000000

/-- The infinite double with the given sign. -/
def infinite (negative : Bool) : Float :=
  ofSignBits negative infinityBits

end LineScript.Number
