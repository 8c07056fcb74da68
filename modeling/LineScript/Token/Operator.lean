import LineScript.Token.Basic

/-!
# Operators

The operators of expressions, how tightly each binds, and the tokens that spell them.
-/

namespace LineScript

/-- Operators between two operands. -/
inductive BinaryOperator where
  | or | and
  | bitOr | bitAnd | bitXor | shiftLeft | shiftRight | shiftRightUnsigned
  | less | greater | lessEqual | greaterEqual | equal | notEqual
  | add | sub | mul | div | mod
deriving DecidableEq, Inhabited

namespace BinaryOperator

/-- The operator a punctuator spells. Assignments spell none. -/
def ofPunctuator? : Punctuator → Option BinaryOperator
  | .pipe => some bitOr
  | .ampersand => some bitAnd
  | .caret => some bitXor
  | .shiftLeft => some shiftLeft
  | .shiftRight => some shiftRight
  | .shiftRightUnsigned => some shiftRightUnsigned
  | .less => some less
  | .greater => some greater
  | .lessEqual => some lessEqual
  | .greaterEqual => some greaterEqual
  | .equal => some equal
  | .notEqual => some notEqual
  | .plus => some add
  | .minus => some sub
  | .star => some mul
  | .slash => some div
  | .percent => some mod
  | _ => none

/-- The operator a token spells. -/
def ofToken? (t : Token) : Option BinaryOperator :=
  match t.kind with
  | .keyword .orWord => some or
  | .keyword .andWord => some and
  | .punctuator p => ofPunctuator? p
  | _ => none

/-- How an operator is spelled. -/
def symbol : BinaryOperator → String
  | or => "or"
  | and => "and"
  | bitOr => "|"
  | bitAnd => "&"
  | bitXor => "^"
  | shiftLeft => "<<"
  | shiftRight => ">>"
  | shiftRightUnsigned => ">>>"
  | less => "<"
  | greater => ">"
  | lessEqual => "<="
  | greaterEqual => ">="
  | equal => "=="
  | notEqual => "!="
  | add => "+"
  | sub => "-"
  | mul => "*"
  | div => "/"
  | mod => "%"

/-- How tightly an operator binds; the higher binds tighter. -/
def precedence : BinaryOperator → Nat
  | or | bitOr => 1
  | and | bitAnd => 2
  | less | greater | lessEqual | greaterEqual | equal | notEqual => 3
  | shiftLeft | shiftRight | shiftRightUnsigned => 7
  | add | sub => 9
  | mul | mod | div => 10
  | bitXor => 12

/-- Only `^` groups from the right. -/
def isRightAssociative : BinaryOperator → Bool
  | bitXor => true
  | _ => false

/-- The operators that may leave their right operand unevaluated. -/
def isLogical : BinaryOperator → Bool
  | and | or => true
  | _ => false

/-- The precedence above which an operator must lie to be taken into the right operand of this
one. -/
def rightBound (o : BinaryOperator) : Nat :=
  if o.isRightAssociative then o.precedence - 1 else o.precedence

end BinaryOperator

/-- Operators in front of one operand. -/
inductive UnaryOperator where
  | minus | plus | not | new
deriving DecidableEq, Inhabited

namespace UnaryOperator

/-- The operator a token spells in front of an operand. -/
def ofToken? (t : Token) : Option UnaryOperator :=
  match t.kind with
  | .punctuator .minus => some minus
  | .punctuator .plus => some plus
  | .keyword .notWord => some not
  | .keyword .newWord => some new
  | _ => none

/-- How an operator is spelled. -/
def symbol : UnaryOperator → String
  | minus => "-"
  | plus => "+"
  | not => "not"
  | new => "new"

end UnaryOperator

end LineScript
