import LineScript.Text.Case
import LineScript.Text.Search
import LineScript.World.Frames

/-!
# What built-in functions do

The built-in functions that call no other function. A method that is called without a receiver of
its type gives a neutral result and changes nothing.
-/

namespace LineScript

/-- The arguments of a call, with the names of the parameters they belong to. -/
structure Arguments where
  receiver : Value
  names : List String
  values : List Value

namespace Arguments

/-- The arguments of a call: parameters that get none have a value of their own, and arguments
without a parameter are kept. -/
def fill (defaults : List Value) (given : List Value) : List Value :=
  given ++ defaults.drop given.length

/-- The argument of the parameter with the given name, or nothing. -/
def named (a : Arguments) (name : String) : Value :=
  ((a.names.zip a.values).find? (fun p => p.1 == name)).elim .nil (·.2)

/-- The receiver, if it is a text. -/
def text? (a : Arguments) : Option (List Char) :=
  match a.receiver with
  | .string s => some s.toList
  | _ => none

/-- The receiver, if it is a list. -/
def list? (a : Arguments) : Option ListRef :=
  match a.receiver with
  | .list r => some r
  | _ => none

/-- The receiver, if it is a map. -/
def map? (a : Arguments) : Option MapRef :=
  match a.receiver with
  | .map r => some r
  | _ => none

/-- The function that a method is to call, if it is one. -/
def callback? (a : Arguments) : Option FunctionRef :=
  match a.named "fn" with
  | .function f => some f
  | _ => none

/-- The first and the last place of a slice of a sequence, both included. Without an argument a
slice reaches to the last place. A bound that lies outside, or a first place behind the last, gives
none. -/
def sliceBounds (a : Arguments) (length : Nat) : Option (Nat × Nat) :=
  let first := World.toInt (a.named "from")
  let last := match a.named "to" with
    | .nil => (length : Int) - 1
    | v => World.toInt v
  match World.wrapIndex first length, World.wrapIndex last length with
  | some i, some j => if i ≤ j then some (i, j) else none
  | _, _ => none

end Arguments

/-- The part of a sequence from one place to another, both included. -/
def sliceOf {α : Type} (xs : List α) (bounds : Nat × Nat) : List α :=
  (xs.drop bounds.1).take (bounds.2 + 1 - bounds.1)

/-- The elements of a list with their indexes, as they are passed to a function. -/
def numbered (xs : List Value) : List (Value × Value) :=
  (xs.zipIdx).map fun p => (p.1, .ofNat p.2)

/-- The values of a map with their keys, as they are passed to a function. -/
def keyed (m : MapObject) : List (Value × Value) :=
  m.entries.entries.map fun e => (e.2, .string e.1)

/-- A position as a value, minus one for none. -/
def positionValue : Option Nat → Value
  | some k => if (k : Int) ≤ Number.maxInt32 then .ofNat k else .ofInt (-1)
  | none => .ofInt (-1)

namespace World

/-- The text of an argument. -/
def argumentText (w : World) (a : Arguments) (name : String) : List Char :=
  (w.display (a.named name)).toList

/-- What a method of texts gives. -/
def stringMethod (w : World) (m : StringMethod) (a : Arguments) : Value × World :=
  match m, a.text? with
  | .length, none => (.ofNat 0, w)
  | .indexOf, none => (.ofInt (-1), w)
  | .lastIndexOf, none => (.ofInt (-1), w)
  | .contains, none => (.bool false, w)
  | _, none => (.nil, w)
  | .trim, some s => (.ofChars (Text.trimmed s), w)
  | .toUpperCase, some s => (.ofChars (Text.upper s), w)
  | .toLowerCase, some s => (.ofChars (Text.lower s), w)
  | .length, some s => (.ofNat s.length, w)
  | .indexOf, some s => (positionValue (Text.indexOf? (w.argumentText a "value") s), w)
  | .lastIndexOf, some s => (positionValue (Text.lastIndexOf? (w.argumentText a "value") s), w)
  | .contains, some s => (.bool (Text.indexOf? (w.argumentText a "value") s).isSome, w)
  | .replace, some s =>
    (.ofChars (Text.replace (w.argumentText a "value") (w.argumentText a "replaceWith") s), w)
  | .split, some s => w.newList ((Text.split (w.argumentText a "delimiter") s).map .ofChars)
  | .slice, some s =>
    match a.sliceBounds s.length with
    | some b => (.ofChars (sliceOf s b), w)
    | none => (.nil, w)

/-- What a method of lists gives that calls no other function. -/
def listMethod (w : World) (m : ListMethod) (a : Arguments) : Value × World :=
  match m, a.list? with
  | .hasIndex, none | .push, none | .unshift, none | .removeAt, none => (.bool false, w)
  | .length, none => (.ofNat 0, w)
  | .indexOf, none => (.ofInt (-1), w)
  | _, none => (.nil, w)
  | .hasIndex, some r => (.bool (w.child? (.list r) (w.display (a.named "value"))).isSome, w)
  | .join, some r =>
    (.string ((w.display (a.named "delimiter")).intercalate ((w.elements r).map w.display)), w)
  | .push, some r => (.bool true, w.setElements r (w.elements r ++ [a.named "value"]))
  | .unshift, some r => (.bool true, w.setElements r (a.named "value" :: w.elements r))
  | .shift, some r =>
    match w.elements r with
    | v :: vs => (v, w.setElements r vs)
    | [] => (.nil, w)
  | .pop, some r =>
    match (w.elements r).getLast? with
    | some v => (v, w.setElements r (w.elements r).dropLast)
    | none => (.nil, w)
  | .removeAt, some r =>
    match wrapIndex (toInt (a.named "index")) (w.elements r).length with
    | some k => (.bool true, w.setElements r ((w.elements r).eraseIdx k))
    | none => (.bool false, w)
  | .length, some r => (.ofNat (w.elements r).length, w)
  | .slice, some r =>
    match a.sliceBounds (w.elements r).length with
    | some b => w.newList (sliceOf (w.elements r) b)
    | none => (.nil, w)
  | .values, some r => w.newList (w.elements r)
  | .keys, some r => w.newList ((List.range (w.elements r).length).map .ofNat)
  | .indexOf, some r =>
    let text := w.display (a.named "value")
    (match (w.elements r).findIdx? (fun v => w.display v == text) with
      | some k => .ofNat k
      | none => .ofInt (-1), w)
  | _, some _ => (.nil, w)

/-- What a method of maps gives that calls no other function. -/
def mapMethod (w : World) (m : MapMethod) (a : Arguments) : Value × World :=
  match m, a.map? with
  | .hasIndex, none | .delete, none => (.bool false, w)
  | .length, none => (.ofNat 0, w)
  | _, none => (.nil, w)
  | .hasIndex, some r =>
    (.bool ((w.contents r).entries.contains (w.display (a.named "value"))), w)
  | .length, some r => (.ofNat (w.contents r).entries.size, w)
  | .delete, some r =>
    let key := w.display (a.named "key")
    (.bool ((w.contents r).entries.contains key),
      w.modifyMap r fun m => { m with entries := m.entries.erase key })
  | .values, some r => w.newList (w.contents r).entries.values
  | .keys, some r => w.newList ((w.contents r).entries.keys.map .string)
  | .indexOf, some r =>
    let text := w.display (a.named "value")
    (match (w.contents r).entries.entries.find? (fun e => w.display e.2 == text) with
      | some e => .string e.1
      | none => .nil, w)
  | _, some _ => (.nil, w)

/-- The numbers from `i` up to, not including, `stop`, by steps of a positive length. The first
argument bounds how many there are. -/
def countUp : Nat → Int → Int → Int → List Int
  | 0, _, _, _ => []
  | n + 1, i, stop, step => if i < stop then i :: countUp n (i + step) stop step else []

/-- The numbers from `i` down to, not including, `stop`, by steps of a negative length. The first
argument bounds how many there are. -/
def countDown : Nat → Int → Int → Int → List Int
  | 0, _, _, _ => []
  | n + 1, i, stop, step => if stop < i then i :: countDown n (i + step) stop step else []

/-- The numbers from one bound up or down to the other, which does not belong to them. Steps of no
length lead nowhere. -/
def progression (start stop step : Int) : List Int :=
  if 0 < step then countUp (stop - start).toNat start stop step
  else if step < 0 then countDown (start - stop).toNat start stop step
  else []

/-- The numbers of a `range`. With a single bound they begin at zero. -/
def rangeNumbers (a : Arguments) : List Int :=
  let step := toInt (a.named "step")
  match a.named "to" with
  | .nil => progression 0 (toInt (a.named "from")) step
  | stop => progression (toInt (a.named "from")) (toInt stop) step

/-- The character with the given code, as a value. -/
def characterValue (code : Int) : Value :=
  if 0 ≤ code ∧ code.toNat.isValidChar then .ofChars [Char.ofNat code.toNat] else .nil

/-- The code of the first character of a text, as a value. -/
def codeValue : Value → Value
  | .string s =>
    match s.toList with
    | c :: _ => .ofNat c.toNat
    | [] => .nil
  | _ => .nil

/-- The seed that a value names, if it names one. -/
def seedOf (g : Generators) : Value → Option Int
  | .nil => none
  | .string s => some (g.source.seedOfText s)
  | v => some (toInt v)

/-- Draws a number from the generator of a seed. -/
def draw (w : World) (seed : Option Int) : Value × World :=
  (.number (w.generators.source.number seed (w.generators.count seed)),
    { w with generators := w.generators.note seed })

/-- What a global function gives. -/
def globalFunction (w : World) (f : GlobalFunction) (a : Arguments) : Value × World :=
  match f with
  | .print => (.nil, w.print (w.display (a.named "message")))
  | .wait => (.nil, w)
  | .char =>
    match a.named "value" with
    | .number x => (characterValue (Number.toInt32 x), w)
    | _ => (.nil, w)
  | .code => (codeValue (a.named "value"), w)
  | .str => (.string (w.display (a.named "value")), w)
  | .val => (.number (toNumber (a.named "value")), w)
  | .range => w.newList ((rangeNumbers a).map .ofInt)
  | .rng => w.draw (seedOf w.generators (a.named "seed"))
  | .math f => (.number (f.apply (toNumber (a.named "value"))), w)

/-- The table of global functions and values. -/
def globalTable : List (String × Value) :=
  (GlobalFunction.all.map fun f => (f.name, .function (.builtin (.global f)))) ++
    [("pi", .number Number.pi)]

end World

end LineScript
