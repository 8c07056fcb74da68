import LineScript.Token.Operator

/-!
# The tree of a source text

A node is a statement or an expression together with its extent in the source.
-/

namespace LineScript

/-- A value written in a source text. -/
inductive Literal where
  | nil
  | bool (b : Bool)
  | number (x : Float)
  | string (s : String)
deriving Inhabited

/-- Which branch of a conditional a clause is. -/
inductive ClauseKind where
  | ifClause
  | elseIfClause
  | elseClause
deriving DecidableEq, Inhabited

mutual

/-- A statement or an expression. -/
inductive Node where
  /-- A whole source text, with the names in it in the order in which they first occur. -/
  | chunk (extent : Extent) (body : List Node) (names : List String)
  | assignment (extent : Extent) (target value : Node)
  | callStatement (extent : Extent) (expression : Node)
  | function (extent : Extent) (name : Option String) (parameters : List Parameter)
      (body : List Node)
  | returnStatement (extent : Extent) (argument : Option Node)
  | conditional (extent : Extent) (clauses : List Clause)
  | whileLoop (extent : Extent) (condition : Node) (body : List Node)
  | forLoop (extent : Extent) (target iterator : Node) (body : List Node)
  | breakStatement (extent : Extent)
  | continueStatement (extent : Extent)
  | debuggerStatement (extent : Extent)
  | importStatement (extent : Extent) (path : String)
  | identifier (extent : Extent) (name : String)
  /-- A literal, with the text it has in the source. -/
  | literal (extent : Extent) (value : Literal) (raw : String)
  | member (extent : Extent) (origin name : Node)
  | index (extent : Extent) (origin key : Node)
  | call (extent : Extent) (origin : Node) (arguments : List Node)
  /-- `not x`. -/
  | negation (extent : Extent) (argument : Node)
  /-- `-x` or `+x`. -/
  | signed (extent : Extent) (operator : UnaryOperator) (argument : Node)
  /-- `new x`. -/
  | unary (extent : Extent) (operator : UnaryOperator) (argument : Node)
  | binary (extent : Extent) (operator : BinaryOperator) (left right : Node)
  | logical (extent : Extent) (operator : BinaryOperator) (left right : Node)
  | mapLiteral (extent : Extent) (fields : List Field)
  | listLiteral (extent : Extent) (items : List Node)
  /-- A missing operand. -/
  | empty (extent : Extent)
  /-- What stands for text that could not be read. -/
  | invalid (extent : Extent)

/-- A parameter of a function, with the expression that gives its value when it gets none. -/
inductive Parameter where
  | mk (extent : Extent) (name : String) (default : Option Node)

/-- A branch of a conditional. Only the last, `else`, has no condition. -/
inductive Clause where
  | mk (extent : Extent) (kind : ClauseKind) (condition : Option Node) (body : List Node)

/-- An entry of a map literal. -/
inductive Field where
  | mk (extent : Extent) (key : String) (value : Node)

end

namespace Node

/-- Where a node stands in the source. -/
def extent : Node → Extent
  | chunk e _ _ => e
  | assignment e _ _ => e
  | callStatement e _ => e
  | function e _ _ _ => e
  | returnStatement e _ => e
  | conditional e _ => e
  | whileLoop e _ _ => e
  | forLoop e _ _ _ => e
  | breakStatement e => e
  | continueStatement e => e
  | debuggerStatement e => e
  | importStatement e _ => e
  | identifier e _ => e
  | literal e _ _ => e
  | member e _ _ => e
  | index e _ _ => e
  | call e _ _ => e
  | negation e _ => e
  | signed e _ _ => e
  | unary e _ _ => e
  | binary e _ _ _ => e
  | logical e _ _ _ => e
  | mapLiteral e _ => e
  | listLiteral e _ => e
  | empty e => e
  | invalid e => e

/-- Where a node begins. -/
def start (n : Node) : Position := n.extent.start

/-- The line a node begins on. -/
def line (n : Node) : Nat := n.extent.start.line

/-- The kind of a node, as messages name it. -/
def kindName : Node → String
  | chunk _ _ _ => "Chunk"
  | assignment _ _ _ => "AssignmentStatement"
  | callStatement _ _ => "CallStatement"
  | function _ _ _ _ => "FunctionDeclaration"
  | returnStatement _ _ => "ReturnStatement"
  | conditional _ _ => "IfStatement"
  | whileLoop _ _ _ => "WhileStatement"
  | forLoop _ _ _ _ => "ForGenericStatement"
  | breakStatement _ => "BreakStatement"
  | continueStatement _ => "ContinueStatement"
  | debuggerStatement _ => "DebuggerStatement"
  | importStatement _ _ => "ImportExpression"
  | identifier _ _ => "Identifier"
  | literal _ (.bool _) _ => "BooleanLiteral"
  | literal _ (.number _) _ => "NumericLiteral"
  | literal _ (.string _) _ => "StringLiteral"
  | literal _ .nil _ => "NilLiteral"
  | member _ _ _ => "MemberExpression"
  | index _ _ _ => "IndexExpression"
  | call _ _ _ => "CallExpression"
  | negation _ _ => "NegationExpression"
  | signed _ _ _ => "BinaryNegatedExpression"
  | unary _ _ _ => "UnaryExpression"
  | binary _ _ _ _ => "BinaryExpression"
  | logical _ _ _ _ => "LogicalExpression"
  | mapLiteral _ _ => "MapConstructorExpression"
  | listLiteral _ _ => "ListConstructorExpression"
  | empty _ => "EmptyExpression"
  | invalid _ => "InvalidCodeExpression"

end Node

end LineScript
