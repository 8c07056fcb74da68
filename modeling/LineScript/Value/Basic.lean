import LineScript.Builtin.Basic
import LineScript.Host.Protocol
import LineScript.Operation.Basic
import LineScript.Value.OrderedMap
import LineScript.Value.Path

/-!
# Values

A value is a scalar or a reference to an object of the world. Lists and maps are referred to, so
that two names for one container see the same contents; functions and interfaces are told apart by
what they refer to.
-/

namespace LineScript

/-- Refers to a list. -/
structure ListRef where
  index : Nat
deriving DecidableEq, Inhabited

/-- Refers to a map. -/
structure MapRef where
  index : Nat
deriving DecidableEq, Inhabited

/-- Refers to a frame. -/
structure FrameRef where
  index : Nat
deriving DecidableEq, Inhabited

/-- Refers to an interface. -/
structure InterfaceRef where
  index : Nat
deriving DecidableEq, Inhabited

/-- Refers to a function: a built-in one, or one that was made. -/
inductive FunctionRef where
  | builtin (b : Builtin)
  | made (index : Nat)
deriving DecidableEq, Inhabited

/-- A value of a script. -/
inductive Value where
  | nil
  | bool (b : Bool)
  | number (x : Float)
  | string (s : String)
  | list (r : ListRef)
  | map (r : MapRef)
  | function (r : FunctionRef)
  | interface (r : InterfaceRef)
deriving Inhabited

namespace Value

/-- The value that a literal writes. -/
def ofLiteral : Literal → Value
  | .nil => nil
  | .bool b => bool b
  | .number x => number x
  | .string s => string s

/-- The value of a natural number. -/
def ofNat (n : Nat) : Value := number (Number.ofNat n)

/-- The value of a whole number. -/
def ofInt (i : Int) : Value := number (Number.ofInt i)

/-- The value of a text given by its characters. -/
def ofChars (cs : List Char) : Value := string (String.ofList cs)

/-- Whether a value is the one that stands for none. -/
def isNil : Value → Bool
  | nil => true
  | _ => false

end Value

/-- The contents of a map. A map that was made by `new` is an instance. -/
structure MapObject where
  entries : OrderedMap Value
  isInstance : Bool
deriving Inhabited

namespace MapObject

/-- The contents of a map of the given entries. -/
def ofEntries (entries : List (String × Value)) : MapObject := ⟨OrderedMap.ofList entries, false⟩

/-- Contents with a value put under a key. -/
def insert (m : MapObject) (key : String) (value : Value) : MapObject :=
  { m with entries := m.entries.insert key value }

/-- Contents with entries inserted one after the other. -/
def extend (m : MapObject) (entries : List (String × Value)) : MapObject :=
  { m with entries := m.entries.extend entries }

/-- The same entries, as the contents of an instance. -/
def instantiate (m : MapObject) : MapObject := { m with isInstance := true }

end MapObject

/-- A function that was made: a closure over the frame it was declared in, or a function of the
host. -/
inductive FunctionObject where
  | closure (declaration : FunctionDeclaration) (frame : FrameRef)
  | host (name : String) (parameters : List (String × Value)) (action : HostAction)

/-- A named collection of functions of the host. -/
structure InterfaceObject where
  name : String
  functions : OrderedMap Value

end LineScript
