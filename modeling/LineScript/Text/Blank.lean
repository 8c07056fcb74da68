/-!
# Blank characters

The twenty-five characters with the Unicode property `White_Space`, and trimming by it.
-/

namespace LineScript.Text

/-- The characters with the Unicode property `White_Space`. -/
def isBlank (c : Char) : Bool :=
  let n := c.toNat
  (9 ≤ n && n ≤ 13) || n == 0x20 || n == 0x85 || n == 0xA0 || n == 0x1680 ||
    (0x2000 ≤ n && n ≤ 0x200A) || n == 0x2028 || n == 0x2029 || n == 0x202F || n == 0x205F ||
    n == 0x3000

/-- The characters without the blanks in front. -/
def trimStart (cs : List Char) : List Char :=
  cs.dropWhile isBlank

/-- The characters without the blanks behind. -/
def trimEnd (cs : List Char) : List Char :=
  (cs.reverse.dropWhile isBlank).reverse

/-- The characters without the blanks on either side. -/
def trimmed (cs : List Char) : List Char :=
  trimEnd (trimStart cs)

/-- A text without the blanks on either side. -/
def trim (s : String) : String :=
  String.ofList (trimmed s.toList)

end LineScript.Text
