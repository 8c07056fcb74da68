import LineScript.Number.Binary
import LineScript.Text.Blank

/-!
# Reading numbers

The grammar of written numbers: an optional sign, then `inf`, `infinity` or `nan` in any case, or
digits with an optional fraction and an optional exponent. A decimal reads as the nearest double.
-/

namespace LineScript.Number

/-- The value of a digit. -/
def digitValue? (c : Char) : Option Nat :=
  if '0' ≤ c && c ≤ '9' then some (c.toNat - '0'.toNat) else none

/-- Whether a character is one of the ten digits. -/
def isDigit (c : Char) : Bool := (digitValue? c).isSome

/-- The number that digits write, on top of what came before. -/
def digitsValue (cs : List Char) : Nat :=
  cs.foldl (fun n c => n * 10 + (digitValue? c).getD 0) 0

/-- A sign in front of characters: whether it is a minus, and what is behind it. -/
def splitSign : List Char → Bool × List Char
  | '-' :: cs => (true, cs)
  | '+' :: cs => (false, cs)
  | cs => (false, cs)

/-- The exponent behind the digits: none at all, or a mark and a signed whole number. -/
def exponent? : List Char → Option Int
  | [] => some 0
  | c :: cs =>
    if c == 'e' || c == 'E' then
      let s := splitSign cs
      if s.2.isEmpty || !s.2.all isDigit then none
      else
        let n : Int := digitsValue s.2
        some (if s.1 then -n else n)
    else none

/-- The point and the digits behind it, and what is behind those. -/
def splitFraction : List Char → List Char × List Char
  | '.' :: cs => (cs.takeWhile isDigit, cs.dropWhile isDigit)
  | cs => ([], cs)

/-- The double nearest to `digits * 10 ^ exponent`. Exponents so large or so small that the answer
is infinite or zero whatever the digits are not multiplied out. -/
def ofDecimal (negative : Bool) (digits : Nat) (exponent : Int) : Float :=
  if digits == 0 then ofRatio negative 0 1
  else
    let size : Int := (Nat.log2 digits : Int)
    if 1100 < exponent then infinite negative
    else if exponent < -(1200 + size) then ofRatio negative 0 1
    else
      let ten := scale10 exponent
      ofRatio negative (digits * ten.1) ten.2

/-- The double that an unsigned decimal reads as. -/
def readDecimal? (negative : Bool) (cs : List Char) : Option Float :=
  let whole := cs.takeWhile isDigit
  let f := splitFraction (cs.dropWhile isDigit)
  if whole.isEmpty && f.1.isEmpty then none
  else
    match exponent? f.2 with
    | none => none
    | some e => some (ofDecimal negative (digitsValue (whole ++ f.1)) (e - (f.1.length : Int)))

/-- A letter brought to lower case, other characters unchanged. -/
def foldLetter (c : Char) : Char :=
  if 'A' ≤ c && c ≤ 'Z' then Char.ofNat (c.toNat + 32) else c

/-- The double that a written number reads as. -/
def read? (text : String) : Option Float :=
  let s := splitSign text.toList
  let word := s.2.map foldLetter
  if word == "inf".toList || word == "infinity".toList then some (infinite s.1)
  else if word == "nan".toList then some notANumber
  else readDecimal? s.1 s.2

/-- The whole number that a text writes: an optional sign and digits. -/
def readInt? (text : String) : Option Int :=
  let s := splitSign text.toList
  if s.2.isEmpty || !s.2.all isDigit then none
  else
    let n : Int := digitsValue s.2
    some (if s.1 then -n else n)

/-- The greatest 32-bit integer. -/
def maxInt32 : Int := 2147483647

/-- The least 32-bit integer. -/
def minInt32 : Int := -2147483648

/-- The 32-bit integer that a text writes, blanks around it apart. -/
def readInt32? (text : String) : Option Int :=
  match readInt? (Text.trim text) with
  | some i => if minInt32 ≤ i && i ≤ maxInt32 then some i else none
  | none => none

end LineScript.Number
