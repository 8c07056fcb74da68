import LineScript.Token.Scanner

/-!
# Errors in a source text

A source text fails to be read because some characters make no token, or because a token stands
where the grammar has no place for it.
-/

namespace LineScript

/-- Why a token has no place in the grammar. -/
inductive ParseFault where
  /-- One particular token belongs here. -/
  | unexpectedValue (expected : String)
  /-- One of several tokens belongs here. -/
  | unexpectedValues (expected : List String)
  | unexpectedIdentifier
  /-- Something other than arguments stands behind a node of the given kind. -/
  | unexpectedArguments (node : String)
  | unexpectedAssignmentOrCall
  | unexpectedExpression
  | unexpectedParameter
  | unexpectedEndOfFile
  | unexpectedImport
  /-- The arguments of a call begin on another line than the token in front of them. -/
  | splitCall (previousLine : Nat)
deriving DecidableEq, Inhabited

/-- A token that has no place in the grammar: its text, and where it begins. -/
structure ParseError where
  fault : ParseFault
  found : String
  position : Position
deriving DecidableEq, Inhabited

namespace ParseError

/-- The error that a token has no place. -/
def ofToken (fault : ParseFault) (t : Token) : ParseError :=
  ⟨fault, t.value, t.start⟩

/-- The line of the token. -/
def line (e : ParseError) : Nat := e.position.line

/-- What a reader is told. -/
def message (e : ParseError) : String :=
  let line := toString e.line
  match e.fault with
  | .unexpectedValue expected =>
    "Unexpected value " ++ e.found ++ " at line " ++ line ++ ". Expected: " ++ expected ++ "."
  | .unexpectedValues expected =>
    "Unexpected value " ++ e.found ++ " at line " ++ line ++ ". Expected one of: " ++
      ", ".intercalate expected ++ "."
  | .unexpectedIdentifier => "Unexpected identifier " ++ e.found ++ " at line " ++ line ++ "."
  | .unexpectedArguments node =>
    node ++ " received unexpected arguments " ++ e.found ++ " at line " ++ line ++ "."
  | .unexpectedAssignmentOrCall => "Unexpected assignment or call at line " ++ line ++ "."
  | .unexpectedExpression => "Unexpected expression at line " ++ line ++ "."
  | .unexpectedParameter =>
    "Unexpected parameter in function declaration at line " ++ line ++ "."
  | .unexpectedEndOfFile => "Unexpected end of file at line " ++ line ++ "."
  | .unexpectedImport => "Unexpected import path at " ++ line ++ "."
  | .splitCall previousLine =>
    "Call expressions do not support multiline arguments. Discrepancy found between " ++
      toString previousLine ++ " and " ++ line ++ "."

/-- The name under which the error is reported. -/
def name (e : ParseError) : String :=
  match e.fault with
  | .unexpectedValue _ => "UnexpectedValue"
  | .unexpectedValues _ => "UnexpectedValues"
  | .unexpectedIdentifier => "UnexpectedIdentifier"
  | .unexpectedArguments _ => "UnexpectedArguments"
  | .unexpectedAssignmentOrCall => "UnexpectedAssignmentOrCall"
  | .unexpectedExpression => "UnexpectedExpression"
  | .unexpectedParameter => "UnexpectedParameterInFunction"
  | .unexpectedEndOfFile => "UnexpectedEof"
  | .unexpectedImport => "UnexpectedImport"
  | .splitCall _ => "CallExpressionEol"

end ParseError

/-- Whatever keeps a source text from being read. -/
inductive SourceError where
  | lex (e : LexError)
  | parse (e : ParseError)
deriving DecidableEq, Inhabited

namespace SourceError

/-- The line of the error. -/
def line : SourceError → Nat
  | lex e => e.line
  | parse e => e.line

/-- What a reader is told. -/
def message : SourceError → String
  | lex e => e.message
  | parse e => e.message

end SourceError

end LineScript
