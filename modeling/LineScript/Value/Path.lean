import LineScript.Text.Search

/-!
# Access paths

A path leads from a value to a value inside it, one key at a time: `a.b[0]` has the keys `a`, `b`
and `0`.
-/

namespace LineScript

/-- The keys that lead from a value to a value inside it. -/
abbrev Path := List String

namespace Path

/-- The path of a dotted text. The empty text is the empty path. -/
def parse (text : String) : Path :=
  if text.isEmpty then []
  else (Text.split ['.'] text.toList).map String.ofList

/-- A path of one key. -/
def single (key : String) : Path := [key]

/-- The path with one more key behind. -/
def push (p : Path) (key : String) : Path := p ++ [key]

/-- All but the last key, and the last key. -/
def splitLast? (p : Path) : Option (Path × String) :=
  p.getLast?.map fun last => (p.dropLast, last)

/-- The first key. -/
def first? (p : Path) : Option String := p.head?

/-- All but the first key. -/
def rest (p : Path) : Path := p.tail

/-- A path is written with points between its keys. -/
def text (p : Path) : String := ".".intercalate p

end Path

end LineScript
