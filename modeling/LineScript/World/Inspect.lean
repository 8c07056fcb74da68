import LineScript.Number.Layout
import LineScript.World.Basic

/-!
# Reading values

What a value is worth as a text, a number or a truth value, when two values are equal, what a path
leads to, and how a value inside a container is written. A text of a value that contains itself is
cut off where the containers are used up; a value without a cycle never reaches that point.
-/

namespace LineScript

namespace World

/-- The name of a function. -/
def functionName (w : World) : FunctionRef → String
  | .builtin b => b.name
  | .made i =>
    match w.functions.get? i with
    | some (.closure d _) => d.name
    | some (.host name _ _) => name
    | none => ""

/-- The names of the parameters of a function. -/
def parameterNames (w : World) : FunctionRef → List String
  | .builtin b => b.parameters.map (·.1)
  | .made i =>
    match w.functions.get? i with
    | some (.closure d _) => d.parameters.map (·.name)
    | some (.host _ parameters _) => parameters.map (·.1)
    | none => []

/-- The text of a function: its name and its parameters. -/
def functionText (w : World) (f : FunctionRef) : String :=
  "function " ++ w.functionName f ++ "(" ++ ", ".intercalate (w.parameterNames f) ++ ")"

/-- The name of an interface. -/
def interfaceName (w : World) (r : InterfaceRef) : String :=
  ((w.interfaces.get? r.index).map (·.name)).getD ""

/-- A function of an interface. -/
def interfaceFunction? (w : World) (r : InterfaceRef) (name : String) : Option Value :=
  (w.interfaces.get? r.index).bind fun i => i.functions.get? name

/-- The text of a value, down to the given number of nested containers. -/
def displayTo (w : World) : Nat → Value → String
  | _, .nil => "null"
  | _, .bool b => if b then "true" else "false"
  | _, .number x => Number.text x
  | _, .string s => s
  | _, .function f => w.functionText f
  | _, .interface r => w.interfaceName r
  | 0, .list _ => ""
  | 0, .map _ => ""
  | n + 1, .list r =>
    "[ " ++ ", ".intercalate ((w.elements r).map fun v => w.displayTo n v) ++ " ]"
  | n + 1, .map r =>
    "\x7b " ++ ", ".intercalate ((w.contents r).entries.entries.map fun e =>
      e.1 ++ ": " ++ w.displayTo n e.2) ++ " \x7d"

/-- The text of a value. -/
def display (w : World) (v : Value) : String := w.displayTo (w.containerCount + 1) v

/-- The type of a value, as scripts see it. A map with an entry `classID` has that for its type. -/
def typeName (w : World) : Value → String
  | .nil => "null"
  | .bool _ => "boolean"
  | .number _ => "number"
  | .string _ => "string"
  | .list _ => "list"
  | .map r =>
    match (w.contents r).entries.get? "classID" with
    | some c => w.display c
    | none => "map"
  | .function _ => "function"
  | .interface r => w.interfaceName r

/-- How many elements or entries a container has. -/
def count? (w : World) : Value → Option Nat
  | .list r => some (w.elements r).length
  | .map r => some (w.contents r).entries.size
  | _ => none

/-- Whether a value counts as true: nothing, `false`, zero and what is empty do not. -/
def truthy (w : World) : Value → Bool
  | .nil => false
  | .bool b => b
  | .number x => !(x == 0)
  | .string s => !s.isEmpty
  | .list r => !(w.elements r).isEmpty
  | .map r => !(w.contents r).entries.isEmpty
  | .function _ => true
  | .interface _ => true

/-- Whether two values are equal, down to the given number of nested containers. Containers are
equal when they are the same or have equal contents; functions and interfaces only when they are the
same. -/
def equalTo (w : World) : Nat → Value → Value → Bool
  | _, .nil, .nil => true
  | _, .bool a, .bool b => a == b
  | _, .number a, .number b => a == b
  | _, .string a, .string b => a == b
  | _, .function a, .function b => a == b
  | _, .interface a, .interface b => a == b
  | 0, .list a, .list b => a == b
  | 0, .map a, .map b => a == b
  | n + 1, .list a, .list b =>
    a == b ||
      ((w.elements a).length == (w.elements b).length &&
        ((w.elements a).zip (w.elements b)).all fun p => w.equalTo n p.1 p.2)
  | n + 1, .map a, .map b =>
    a == b ||
      ((w.contents a).isInstance == (w.contents b).isInstance &&
        (w.contents a).entries.size == (w.contents b).entries.size &&
        (w.contents a).entries.entries.all fun e =>
          match (w.contents b).entries.get? e.1 with
          | some v => w.equalTo n e.2 v
          | none => false)
  | _, _, _ => false

/-- Whether two values are equal. -/
def equal (w : World) (a b : Value) : Bool := w.equalTo (w.containerCount + 1) a b

/-- A copy of a container with the same contents; any other value is its own copy. -/
def copy (w : World) : Value → Value × World
  | .list r => w.newList (w.elements r)
  | .map r => w.newMap (w.contents r)
  | v => (v, w)

/-- The method that a value has under a name. -/
def method? : Value → String → Option Value
  | .string _, name => (Builtin.stringMethod? name).map fun b => .function (.builtin b)
  | .list _, name => (Builtin.listMethod? name).map fun b => .function (.builtin b)
  | .map _, name => (Builtin.mapMethod? name).map fun b => .function (.builtin b)
  | _, _ => none

/-- The place of an index in a sequence of the given length; a negative index counts from the
end. -/
def wrapIndex (index : Int) (length : Nat) : Option Nat :=
  let i := if index < 0 then (length : Int) + index else index
  if 0 ≤ i ∧ i < (length : Int) then some i.toNat else none

/-- The character at an index, as a value. -/
def characterAt (s : String) (index : Int) : Option Value :=
  match wrapIndex index s.length with
  | some i => (s.toList[i]?).map fun c => Value.ofChars [c]
  | none => none

/-- The value that is stored under a key. -/
def child? (w : World) (v : Value) (key : String) : Option Value :=
  match v with
  | .string s => (Number.readInt32? key).bind (characterAt s)
  | .list r =>
    (Number.readInt32? key).bind fun i =>
      (wrapIndex i (w.elements r).length).bind fun k => (w.elements r)[k]?
  | .map r => (w.contents r).entries.get? key
  | .interface r => w.interfaceFunction? r key
  | _ => none

/-- The value that a path leads to through stored values only. -/
def lookup? (w : World) (v : Value) : Path → Option Value
  | [] => some v
  | key :: rest =>
    match w.child? v key with
    | some c => w.lookup? c rest
    | none => none

/-- What reading one key gives: a stored value, a miss, or a fault. -/
def readKey (w : World) (v : Value) (key : String) (path : Path) : Except Fault (Option Value) :=
  match v with
  | .string s =>
    match Number.readInt32? key with
    | some i =>
      match characterAt s i with
      | some c => .ok (some c)
      | none => .error (.of (.stringIndexOutOfRange i))
    | none => .ok none
  | .list r =>
    match Number.readInt32? key with
    | some i =>
      match (wrapIndex i (w.elements r).length).bind fun k => (w.elements r)[k]? with
      | some c => .ok (some c)
      | none => .error (.of (.listIndexOutOfRange i))
    | none => .ok none
  | .map r => .ok ((w.contents r).entries.get? key)
  | .interface r => .ok (w.interfaceFunction? r key)
  | _ => .error (.of (.cannotGetPath (Path.text path)))

/-- The value that a path leads to. A key that is missing leads to nothing, and the last key of a
path may also name a method. -/
def get (w : World) (v : Value) : Path → Except Fault Value
  | [] => .ok v
  | key :: rest =>
    match w.readKey v key (key :: rest) with
    | .error f => .error f
    | .ok (some c) => w.get c rest
    | .ok none => if rest.isEmpty then .ok ((method? v key).getD .nil) else .ok .nil

/-- A place in a container that can be written. -/
inductive Slot where
  | element (r : ListRef) (index : Nat)
  | entry (r : MapRef) (key : String)
deriving DecidableEq, Inhabited

/-- Writes a place. -/
def write (w : World) (s : Slot) (x : Value) : World :=
  match s with
  | .element r k => w.setElements r ((w.elements r).set k x)
  | .entry r key => w.modifyMap r fun m => m.insert key x

/-- The place that a container has under one key. An entry of a map need not be there yet. -/
def slotAt (w : World) (v : Value) (key : String) : Except Fault Slot :=
  match v with
  | .string _ => .error (.of .immutableString)
  | .interface _ => .error (.of .immutableInterface)
  | .list r =>
    match Number.readInt32? key with
    | none => .error (.of (.cannotSetPath key))
    | some i =>
      match wrapIndex i (w.elements r).length with
      | none => .error (.of (.listIndexOutOfRange i))
      | some k => .ok (.element r k)
  | .map r => .ok (.entry r key)
  | _ => .error (.of (.cannotSetPath key))

/-- The place that a path leads to. All in front of the last key has to lead to a container through
stored values. -/
def slot (w : World) (v : Value) (path : Path) : Except Fault Slot :=
  match v with
  | .string _ => .error (.of .immutableString)
  | .interface _ => .error (.of .immutableInterface)
  | .list _ | .map _ =>
    match path.splitLast? with
    | none => .error (.of (.cannotSetPath (Path.text path)))
    | some (parent, last) =>
      match w.lookup? v parent with
      | none => .error (.of (.cannotSetPath (Path.text path)))
      | some t => w.slotAt t last
  | _ => .error (.of (.cannotSetPath (Path.text path)))

/-- Writes the value that a path leads to. -/
def set (w : World) (v : Value) (path : Path) (x : Value) : Except Fault World :=
  (w.slot v path).map fun s => w.write s x

/-- What a loop walks over: elements and characters as they are, entries as a key and a value. -/
inductive Item where
  | value (v : Value)
  | entry (key : String) (v : Value)

/-- The value that an item holds. -/
def Item.held : Item → Value
  | value v => v
  | entry _ v => v

/-- What a loop over a value walks over, as it is when the loop begins. -/
def items (w : World) : Value → Except Fault (List Item)
  | .list r => .ok ((w.elements r).map .value)
  | .map r => .ok ((w.contents r).entries.entries.map fun e => .entry e.1 e.2)
  | .string s => .ok (s.toList.map fun c => .value (.ofChars [c]))
  | v => .error (.of (.notIterable (w.typeName v)))

/-- The value that a loop variable gets for an item. An entry becomes a new map. -/
def itemValue (w : World) : Item → Value × World
  | .value v => (v, w)
  | .entry key v => w.newMap (.ofEntries [("key", .string key), ("value", v)])

/-- The number of a value. A text counts as the number it writes and otherwise as zero. -/
def toNumber : Value → Float
  | .bool b => Number.ofNat (if b then 1 else 0)
  | .number x => x
  | .string s => (Number.read? (Text.trim s)).getD (Number.ofNat 0)
  | _ => Number.notANumber

/-- The 32-bit integer of a value. -/
def toInt : Value → Int
  | .bool b => if b then 1 else 0
  | .number x => Number.toInt32 x
  | .string s => Number.toInt32 (toNumber (.string s))
  | _ => 0

end World

end LineScript
