import LineScript.Number.Reading

/-!
# Arithmetic on doubles

The operations on numbers that are not single instructions: the conversion to 32-bit integers, the
remainder, rounding to whole numbers, and the operations on bits.
-/

namespace LineScript.Number

/-- The whole part of the magnitude `mantissa * 2 ^ exponent`. -/
def wholePart (mantissa : Nat) (exponent : Int) : Nat :=
  let s := scale2 exponent
  mantissa * s.1 / s.2

/-- A whole number brought into the range of 32-bit integers. -/
def clampInt32 (i : Int) : Int :=
  max minInt32 (min i maxInt32)

/-- The 32-bit integer of a number: the fraction is dropped, what is out of range goes to the
nearest end of the range, and what is not a number is zero. -/
def toInt32 (x : Float) : Int :=
  match decode x with
  | .nan => 0
  | .infinite negative => if negative then minInt32 else maxInt32
  | .finite negative mantissa exponent =>
    let n : Int := wholePart mantissa exponent
    clampInt32 (if negative then -n else n)

/-- The remainder of a division whose quotient is cut to a whole number. It has the sign of the
dividend. -/
def remainder (x y : Float) : Float :=
  match decode x, decode y with
  | .finite negative m e, .finite _ n f =>
    if n == 0 then notANumber
    else
      let q := min e f
      ofScaled negative (m * twoTo (e - q).toNat % (n * twoTo (f - q).toNat)) q
  | .finite _ _ _, .infinite _ => x
  | _, _ => notANumber

/-- A finite number with its magnitude replaced by a whole number; numbers that are not finite stay
what they are. -/
def mapWhole (f : Bool → Nat → Nat → Nat) (x : Float) : Float :=
  match decode x with
  | .finite negative mantissa exponent =>
    let s := scale2 exponent
    ofRatio negative (f negative (mantissa * s.1) s.2) 1
  | _ => x

/-- The greatest whole number that is not above. -/
def floor (x : Float) : Float :=
  mapWhole (fun negative num den => if negative then (num + den - 1) / den else num / den) x

/-- The least whole number that is not below. -/
def ceil (x : Float) : Float :=
  mapWhole (fun negative num den => if negative then num / den else (num + den - 1) / den) x

/-- The nearest whole number, a half to the even neighbour. -/
def round (x : Float) : Float :=
  mapWhole (fun _ num den => roundDiv num den) x

/-- Minus one, zero or one. Zero keeps its sign, and what is not a number stays so. -/
def sign (x : Float) : Float :=
  match decode x with
  | .nan => x
  | .infinite negative => ofRatio negative 1 1
  | .finite negative mantissa _ => if mantissa == 0 then x else ofRatio negative 1 1

/-- A 32-bit word as the number of the signed integer it holds. -/
def ofWord (w : UInt32) : Float :=
  ofInt w.toInt32.toInt

/-- The 32-bit word that holds an integer. -/
def word (i : Int) : UInt32 := (Int32.ofInt i).toUInt32

/-- Bits set in one word and not in the other. -/
def bitXor (x y : Int) : Float := ofWord (word x ^^^ word y)

/-- Bits set in either word. -/
def bitOr (x y : Int) : Float := ofWord (word x ||| word y)

/-- Bits set in both words. -/
def bitAnd (x y : Int) : Float := ofWord (word x &&& word y)

/-- How far a shift goes: the low five bits of the amount. -/
def shiftAmount (y : Int) : Nat := (y % 32).toNat

/-- A shift to the left that drops the bits beyond the word. -/
def shiftLeft (x y : Int) : Float :=
  ofWord (UInt32.ofNat ((word x).toNat * twoTo (shiftAmount y)))

/-- A shift to the right that keeps the sign. -/
def shiftRight (x y : Int) : Float :=
  ofInt (x / (twoTo (shiftAmount y) : Int))

/-- A shift to the right that brings in zeros. -/
def shiftRightUnsigned (x y : Int) : Float :=
  ofNat ((word x).toNat / twoTo (shiftAmount y))

/-- The ratio of a circle to its diameter, as near as a double comes. -/
def pi : Float := Float.ofBits 0x400921FB54442D18

end LineScript.Number
