import LineScript.Number.Shortest

/-!
# The text of a number

A number is written with the fewest digits that read back. Very large and very small numbers are
written with an exponent, all others without one.
-/

namespace LineScript.Number

/-- Where a written number changes to an exponent, and how the exponent is written. -/
structure Layout where
  /-- The least exponent of the leading digit that is written without an exponent. -/
  plainFrom : Int
  /-- The greatest exponent of the leading digit that is written without an exponent. -/
  plainTo : Int
  mark : String
  /-- The least number of digits of an exponent. -/
  exponentDigits : Nat
deriving DecidableEq, Inhabited

/-- Scripts see numbers plain from `0.00001` up to fifteen digits in front of the point, and
otherwise in the form `1.5E+15`. -/
def scriptLayout : Layout := ⟨-5, 14, "E", 2⟩

/-- The digits of a number in base ten. -/
def digitText (n : Nat) : String := String.ofList (Nat.toDigits 10 n)

/-- A text brought to a least length by zeros in front. -/
def padZeros (width : Nat) (s : String) : String :=
  String.ofList (List.replicate (width - s.length) '0') ++ s

/-- A decimal without an exponent. -/
def plainText (d : Decimal) : String :=
  let digits := Nat.toDigits 10 d.digits
  if 0 ≤ d.exponent then
    String.ofList (digits ++ List.replicate d.exponent.toNat '0')
  else
    let places := (-d.exponent).toNat
    if places < digits.length then
      String.ofList (digits.take (digits.length - places)) ++ "." ++
        String.ofList (digits.drop (digits.length - places))
    else
      "0." ++ String.ofList (List.replicate (places - digits.length) '0' ++ digits)

/-- A decimal with one digit in front of the point and an exponent. -/
def scientificText (l : Layout) (d : Decimal) : String :=
  let digits := Nat.toDigits 10 d.digits
  let e := d.leadingExponent
  let fraction := if digits.length ≤ 1 then "" else "." ++ String.ofList (digits.drop 1)
  let sign := if e < 0 then "-" else "+"
  String.ofList (digits.take 1) ++ fraction ++ l.mark ++ sign ++
    padZeros l.exponentDigits (digitText e.natAbs)

/-- A positive decimal. -/
def Layout.decimalText (l : Layout) (d : Decimal) : String :=
  let e := d.leadingExponent
  if e < l.plainFrom || l.plainTo < e then scientificText l d else plainText d

/-- The text of the value of a double. Zero keeps its sign. -/
def Layout.text (l : Layout) : Binary → String
  | .nan => "NaN"
  | .infinite negative => if negative then "-Infinity" else "Infinity"
  | .finite negative mantissa exponent =>
    let magnitude := if mantissa == 0 then "0" else l.decimalText (shortest mantissa exponent)
    if negative then "-" ++ magnitude else magnitude

/-- The text of a number as scripts see it. -/
def text (x : Float) : String :=
  scriptLayout.text (decode x)

end LineScript.Number
