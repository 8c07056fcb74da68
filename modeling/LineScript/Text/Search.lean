/-!
# Searching text

Occurrences of one text in another, and the pieces of a text between the occurrences of a
delimiter. Positions count characters. A text is a list of characters here.
-/

namespace LineScript.Text

/-- The first position at which the pattern occurs. -/
def indexOf? (pattern : List Char) : List Char → Option Nat
  | [] => if pattern.isEmpty then some 0 else none
  | c :: cs =>
    if pattern.isPrefixOf (c :: cs) then some 0
    else (indexOf? pattern cs).map (· + 1)

/-- The last position at which the pattern occurs. -/
def lastIndexOf? (pattern : List Char) : List Char → Option Nat
  | [] => if pattern.isEmpty then some 0 else none
  | c :: cs =>
    match lastIndexOf? pattern cs with
    | some k => some (k + 1)
    | none => if pattern.isPrefixOf (c :: cs) then some 0 else none

/-- Puts a character in front of the first piece. -/
def consHead (c : Char) : List (List Char) → List (List Char)
  | [] => [[c]]
  | p :: ps => (c :: p) :: ps

/-- The pieces of a text between occurrences of a delimiter that is not empty, found from the left
without overlap. The first `skip` characters belong to an occurrence already found. -/
def splitFrom (delimiter : List Char) : Nat → List Char → List (List Char)
  | _, [] => [[]]
  | skip + 1, _ :: cs => splitFrom delimiter skip cs
  | 0, c :: cs =>
    if delimiter.isPrefixOf (c :: cs) then [] :: splitFrom delimiter (delimiter.length - 1) cs
    else consHead c (splitFrom delimiter 0 cs)

/-- The pieces of a text between occurrences of a delimiter. An empty delimiter occurs nowhere. -/
def split (delimiter text : List Char) : List (List Char) :=
  if delimiter.isEmpty then [text] else splitFrom delimiter 0 text

/-- The pieces put together with a delimiter between them. -/
def join (delimiter : List Char) : List (List Char) → List Char
  | [] => []
  | [p] => p
  | p :: q :: ps => p ++ delimiter ++ join delimiter (q :: ps)

/-- A text with the occurrences of a pattern that is not empty replaced, found from the left without
overlap. The first `skip` characters belong to an occurrence already replaced. -/
def replaceFrom (pattern replacement : List Char) : Nat → List Char → List Char
  | _, [] => []
  | skip + 1, _ :: cs => replaceFrom pattern replacement skip cs
  | 0, c :: cs =>
    if pattern.isPrefixOf (c :: cs) then
      replacement ++ replaceFrom pattern replacement (pattern.length - 1) cs
    else c :: replaceFrom pattern replacement 0 cs

/-- A text with every occurrence of the pattern replaced. An empty pattern occurs nowhere. -/
def replace (pattern replacement text : List Char) : List Char :=
  if pattern.isEmpty then text else replaceFrom pattern replacement 0 text

end LineScript.Text
