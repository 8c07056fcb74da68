import LineScript.World.Inspect

/-!
# Operators on values

The left operand decides what an operator does, and the right operand is brought to its type. Where
an operator has no meaning the result is nothing.
-/

namespace LineScript

namespace World

/-- Operators on numbers; the right operand counts as a number. -/
def applyNumber (operator : BinaryOperator) (left right : Value) : Value :=
  let a := toNumber left
  let b := toNumber right
  let x := toInt left
  let y := toInt right
  match operator with
  | .add => .number (a + b)
  | .sub => .number (a - b)
  | .mul => .number (a * b)
  | .div => .number (a / b)
  | .mod => .number (Number.remainder a b)
  | .bitXor => .number (Number.bitXor x y)
  | .bitOr => .number (Number.bitOr x y)
  | .bitAnd => .number (Number.bitAnd x y)
  | .shiftLeft => .number (Number.shiftLeft x y)
  | .shiftRight => .number (Number.shiftRight x y)
  | .shiftRightUnsigned => .number (Number.shiftRightUnsigned x y)
  | .less => .bool (a < b)
  | .greater => .bool (b < a)
  | .lessEqual => .bool (a ≤ b)
  | .greaterEqual => .bool (b ≤ a)
  | .equal => .bool (a == b)
  | .notEqual => .bool (!(a == b))
  | .and | .or => .nil

/-- Operators on texts; the right operand counts as its text. Texts are ordered by their
characters. -/
def applyString (operator : BinaryOperator) (a b : String) : Value :=
  match operator with
  | .add => .string (a ++ b)
  | .less => .bool (a < b)
  | .greater => .bool (b < a)
  | .lessEqual => .bool (!(b < a : Bool))
  | .greaterEqual => .bool (!(a < b : Bool))
  | .equal => .bool (a == b)
  | .notEqual => .bool (a != b)
  | _ => .nil

/-- Containers are ordered by how much they hold. -/
def compareCounts (operator : BinaryOperator) (a b : Nat) : Value :=
  match operator with
  | .less => .bool (a < b)
  | .greater => .bool (b < a)
  | .lessEqual => .bool (a ≤ b)
  | .greaterEqual => .bool (b ≤ a)
  | _ => .nil

/-- Operators on lists. A sum is a new list. -/
def applyList (w : World) (operator : BinaryOperator) (a b : ListRef) : Value × World :=
  match operator with
  | .add => w.newList (w.elements a ++ w.elements b)
  | .equal => (.bool (w.equal (.list a) (.list b)), w)
  | .notEqual => (.bool (!w.equal (.list a) (.list b)), w)
  | _ => (compareCounts operator (w.elements a).length (w.elements b).length, w)

/-- Operators on maps. A sum is a new map, in which the entries of the right one win. -/
def applyMap (w : World) (operator : BinaryOperator) (a b : MapRef) : Value × World :=
  match operator with
  | .add => w.newMap ((w.contents a).extend (w.contents b).entries.entries)
  | .equal => (.bool (w.equal (.map a) (.map b)), w)
  | .notEqual => (.bool (!w.equal (.map a) (.map b)), w)
  | _ => (compareCounts operator (w.contents a).entries.size (w.contents b).entries.size, w)

/-- Operators on values that can only be compared. -/
def applyIdentity (w : World) (operator : BinaryOperator) (a b : Value) : Value :=
  match operator with
  | .equal => .bool (w.equal a b)
  | .notEqual => .bool (!w.equal a b)
  | _ => .nil

/-- An operator applied to the values of both operands. -/
def apply (w : World) (operator : BinaryOperator) (left right : Value) : Value × World :=
  match left, right with
  | .nil, _ =>
    match operator with
    | .equal => (.bool right.isNil, w)
    | .notEqual => (.bool (!right.isNil), w)
    | _ => (.nil, w)
  | .number _, _ => (applyNumber operator left right, w)
  | .bool _, _ => (applyNumber operator left right, w)
  | .string a, _ => (applyString operator a (w.display right), w)
  | .list a, .list b => w.applyList operator a b
  | .list _, _ => (.nil, w)
  | .map a, .map b => w.applyMap operator a b
  | .map _, _ => (.nil, w)
  | .function _, _ => (w.applyIdentity operator left right, w)
  | .interface _, _ => (w.applyIdentity operator left right, w)

end World

end LineScript
