import LineScript.Grammar.Node

/-!
# Operations

The tree that is run. Chains of access are flat lists of segments, and imported files stand in the
tree already, so that nothing has to be read when it is run.
-/

namespace LineScript

mutual

/-- What a node of the source does when it is run. -/
inductive Operation where
  /-- Does nothing. -/
  | noop
  | literal (value : Literal)
  /-- A fixed truth value that is not written in the source. -/
  | constant (value : Bool)
  | resolve (chain : List Segment)
  | assign (target : List Segment) (value : Operation)
  | call (callee : List Segment) (arguments : List Operation)
  | function (declaration : FunctionDeclaration)
  | chunk (body : List Statement)
  | conditional (branches : List Branch)
  | whileLoop (condition : Operation) (body : List Statement)
  | forLoop (target : List Segment) (iterator : Operation) (body : List Statement)
  | returnFrom (argument : Option Operation)
  | breakLoop
  | continueLoop
  | debugger
  | evaluate (operator : BinaryOperator) (left right : Operation)
  | negate (argument : Operation)
  | signed (operator : UnaryOperator) (argument : Operation)
  | instantiate (argument : Operation)
  | map (entries : List (String × Operation))
  | list (items : List Operation)
  /-- An imported file, run under its own name. -/
  | imported (target : String) (chunk : Operation)

/-- One link of a chain of access. -/
inductive Segment where
  /-- A name, at the front of the chain or behind a point. -/
  | name (name : String)
  /-- An index, whose text is the key. -/
  | index (key : Operation)
  /-- Any other expression at the front of a chain. -/
  | root (value : Operation)

/-- An operation, and where its statement begins. -/
inductive Statement where
  | mk (operation : Operation) (position : Position)

/-- A condition, and what is run when it holds and none before it did. -/
inductive Branch where
  | mk (condition : Operation) (body : List Statement)

/-- A parameter, and the operation that gives its value when it gets none. -/
inductive FormalParameter where
  | mk (name : String) (default : Option Operation)

/-- A function as it is declared, shared by all the closures made from it. -/
inductive FunctionDeclaration where
  | mk (name : Option String) (parameters : List FormalParameter) (body : List Statement)

end

namespace FormalParameter

/-- The name of a parameter. -/
def name : FormalParameter → String
  | mk name _ => name

/-- The operation that gives the value of a parameter that gets none. -/
def default : FormalParameter → Option Operation
  | mk _ default => default

end FormalParameter

namespace FunctionDeclaration

/-- The name that a function binds where it is declared. -/
def name? : FunctionDeclaration → Option String
  | mk name _ _ => name

/-- The name that a function is shown with. -/
def name (f : FunctionDeclaration) : String := f.name?.getD "anonymous"

/-- The parameters of a function. -/
def parameters : FunctionDeclaration → List FormalParameter
  | mk _ parameters _ => parameters

/-- The body of a function. -/
def body : FunctionDeclaration → List Statement
  | mk _ _ body => body

end FunctionDeclaration

/-- The kind of an operation, as it is shown. -/
def Operation.kindName : Operation → String
  | noop => "Noop"
  | literal _ => "Literal"
  | constant _ => "Reference"
  | resolve _ => "Resolve"
  | assign _ _ => "Assign"
  | call _ _ => "Call"
  | function _ => "Function"
  | chunk _ => "Chunk"
  | conditional _ => "If"
  | whileLoop _ _ => "While"
  | forLoop _ _ _ => "For"
  | returnFrom _ => "Return"
  | breakLoop => "Break"
  | continueLoop => "Continue"
  | debugger => "Debugger"
  | evaluate _ _ _ => "Evaluate"
  | negate _ => "Not"
  | signed _ _ => "NegatedBinary"
  | instantiate _ => "NewInstance"
  | map _ => "Map"
  | list _ => "List"
  | imported _ _ => "Import"

end LineScript
