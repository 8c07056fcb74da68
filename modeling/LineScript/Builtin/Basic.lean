import LineScript.Grammar.Node
import LineScript.Number.Arithmetic

/-!
# Built-in functions

The functions every script can use: the table of global functions, and the methods of texts, lists
and maps. Each has a name and parameters, some of which have a value of their own when they get
none.
-/

namespace LineScript

/-- The methods of texts. -/
inductive StringMethod where
  | trim | toUpperCase | toLowerCase | length | indexOf | contains | lastIndexOf | replace | split
  | slice
deriving DecidableEq, Inhabited

/-- The methods of lists. -/
inductive ListMethod where
  | hasIndex | join | push | unshift | shift | pop | removeAt | length | slice | values | keys
  | indexOf | find | forEach | map | reduce
deriving DecidableEq, Inhabited

/-- The methods of maps, which are also reached by their bare names. -/
inductive MapMethod where
  | hasIndex | length | delete | values | keys | indexOf | find | forEach
deriving DecidableEq, Inhabited

/-- The global functions of one number. -/
inductive MathFunction where
  | abs | acos | asin | atan | ceil | cos | floor | sin | sign | round | sqrt
deriving DecidableEq, Inhabited

/-- The global functions. -/
inductive GlobalFunction where
  | print | wait | char | code | str | val | range | rng
  | math (f : MathFunction)
deriving DecidableEq, Inhabited

/-- A built-in function. -/
inductive Builtin where
  | string (m : StringMethod)
  | list (m : ListMethod)
  | map (m : MapMethod)
  | global (f : GlobalFunction)
deriving DecidableEq, Inhabited

/-- A parameter of a built-in function, with the value it has when it gets none. -/
abbrev BuiltinParameter := String × Literal

namespace StringMethod

/-- The methods of texts. -/
def all : List StringMethod :=
  [trim, toUpperCase, toLowerCase, length, indexOf, contains, lastIndexOf, replace, split, slice]

/-- The name of a method. -/
def name : StringMethod → String
  | trim => "trim"
  | toUpperCase => "toUpperCase"
  | toLowerCase => "toLowerCase"
  | length => "length"
  | indexOf => "indexOf"
  | contains => "contains"
  | lastIndexOf => "lastIndexOf"
  | replace => "replace"
  | split => "split"
  | slice => "slice"

/-- The parameters of a method. -/
def parameters : StringMethod → List BuiltinParameter
  | trim | toUpperCase | toLowerCase | length => []
  | indexOf | contains | lastIndexOf => [("value", .nil)]
  | replace => [("value", .nil), ("replaceWith", .string "")]
  | split => [("delimiter", .string ",")]
  | slice => [("from", .number (Number.ofNat 0)), ("to", .nil)]

end StringMethod

namespace ListMethod

/-- The methods of lists. -/
def all : List ListMethod :=
  [hasIndex, join, push, unshift, shift, pop, removeAt, length, slice, values, keys, indexOf, find,
    forEach, map, reduce]

/-- The name of a method. -/
def name : ListMethod → String
  | hasIndex => "hasIndex"
  | join => "join"
  | push => "push"
  | unshift => "unshift"
  | shift => "shift"
  | pop => "pop"
  | removeAt => "removeAt"
  | length => "length"
  | slice => "slice"
  | values => "values"
  | keys => "keys"
  | indexOf => "indexOf"
  | find => "find"
  | forEach => "forEach"
  | map => "map"
  | reduce => "reduce"

/-- The parameters of a method. -/
def parameters : ListMethod → List BuiltinParameter
  | shift | pop | length | values | keys => []
  | hasIndex | push | unshift | indexOf => [("value", .nil)]
  | join => [("delimiter", .string ",")]
  | removeAt => [("index", .nil)]
  | slice => [("from", .number (Number.ofNat 0)), ("to", .nil)]
  | find | forEach | map => [("fn", .nil)]
  | reduce => [("fn", .nil), ("initalValue", .nil)]

end ListMethod

namespace MapMethod

/-- The methods of maps. -/
def all : List MapMethod := [hasIndex, length, delete, values, keys, indexOf, find, forEach]

/-- The name of a method. -/
def name : MapMethod → String
  | hasIndex => "hasIndex"
  | length => "length"
  | delete => "delete"
  | values => "values"
  | keys => "keys"
  | indexOf => "indexOf"
  | find => "find"
  | forEach => "forEach"

/-- The parameters of a method. -/
def parameters : MapMethod → List BuiltinParameter
  | length | values | keys => []
  | hasIndex | indexOf => [("value", .nil)]
  | delete => [("key", .nil)]
  | find | forEach => [("fn", .nil)]

end MapMethod

namespace MathFunction

/-- The global functions of one number. -/
def all : List MathFunction := [abs, acos, asin, atan, ceil, cos, floor, sin, sign, round, sqrt]

/-- The name of a function. -/
def name : MathFunction → String
  | abs => "abs"
  | acos => "acos"
  | asin => "asin"
  | atan => "atan"
  | ceil => "ceil"
  | cos => "cos"
  | floor => "floor"
  | sin => "sin"
  | sign => "sign"
  | round => "round"
  | sqrt => "sqrt"

/-- The value of a function. -/
def apply : MathFunction → Float → Float
  | abs => Float.abs
  | acos => Float.acos
  | asin => Float.asin
  | atan => Float.atan
  | ceil => Number.ceil
  | cos => Float.cos
  | floor => Number.floor
  | sin => Float.sin
  | sign => Number.sign
  | round => Number.round
  | sqrt => Float.sqrt

end MathFunction

namespace GlobalFunction

/-- The global functions, in the order of the table. -/
def all : List GlobalFunction :=
  [print, wait, char, code, str, val, range, rng] ++ MathFunction.all.map math

/-- The name of a function. -/
def name : GlobalFunction → String
  | print => "print"
  | wait => "wait"
  | char => "char"
  | code => "code"
  | str => "str"
  | val => "val"
  | range => "range"
  | rng => "rng"
  | math f => f.name

/-- The parameters of a function. -/
def parameters : GlobalFunction → List BuiltinParameter
  | print => [("message", .nil)]
  | wait => [("time", .number (Number.ofNat 1))]
  | char | code | str | val | math _ => [("value", .nil)]
  | range => [("from", .nil), ("to", .nil), ("step", .number (Number.ofNat 1))]
  | rng => [("seed", .nil)]

end GlobalFunction

namespace Builtin

/-- The name of a built-in function. -/
def name : Builtin → String
  | string m => m.name
  | list m => m.name
  | map m => m.name
  | global f => f.name

/-- The parameters of a built-in function. -/
def parameters : Builtin → List BuiltinParameter
  | string m => m.parameters
  | list m => m.parameters
  | map m => m.parameters
  | global f => f.parameters

/-- The method of texts with the given name. -/
def stringMethod? (name : String) : Option Builtin :=
  (StringMethod.all.find? (fun m => m.name == name)).map string

/-- The method of lists with the given name. -/
def listMethod? (name : String) : Option Builtin :=
  (ListMethod.all.find? (fun m => m.name == name)).map list

/-- The method of maps with the given name. -/
def mapMethod? (name : String) : Option Builtin :=
  (MapMethod.all.find? (fun m => m.name == name)).map map

end Builtin

end LineScript
