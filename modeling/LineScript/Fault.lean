import LineScript.Grammar.Error

/-!
# Faults

What can go wrong when a program is prepared, run or controlled, with the line of the statement
where it went wrong. A script error is a fault or an error in a source text, told apart by the
heading under which it is reported.
-/

namespace LineScript

/-- What went wrong. -/
inductive FaultKind where
  /-- A `return` outside of a function. -/
  | unexpectedReturn
  /-- A `break` outside of a loop. -/
  | unexpectedBreak
  /-- A `continue` outside of a loop. -/
  | unexpectedContinue
  /-- Only a map can be instantiated. -/
  | notInstantiable
  /-- Only a function can be called. -/
  | notCallable
  | notIterable (typeName : String)
  | cannotGetPath (path : String)
  | cannotSetPath (path : String)
  | immutableString
  | immutableInterface
  | listIndexOutOfRange (index : Int)
  | stringIndexOutOfRange (index : Int)
  | unknownUnary
  /-- A node of this kind cannot be assigned to. -/
  | unexpectedNode (kind : String)
  | importNotFound (path : String)
  | targetNotFound (target : String)
  | noRunningProcess
  | processAlreadyRunning
  | cannotInject
  | targetLocked
  | tableLocked
  | handlersLocked
  | hookLocked
  /-- Raised by a function of the host. -/
  | host (message : String)
deriving DecidableEq, Inhabited

/-- What went wrong, and the line of the statement where it did, once it is known. -/
structure Fault where
  kind : FaultKind
  line : Option Nat
deriving DecidableEq, Inhabited

namespace Fault

/-- A fault whose line is not yet known. -/
def of (kind : FaultKind) : Fault := ⟨kind, none⟩

/-- The fault with a line, unless it has one. -/
def orLine (f : Fault) (line : Nat) : Fault :=
  match f.line with
  | some _ => f
  | none => { f with line := some line }

/-- What a reader is told. -/
def message (f : Fault) : String :=
  match f.kind with
  | .unexpectedReturn => "Unexpected return statement."
  | .unexpectedBreak => "Unexpected break statement."
  | .unexpectedContinue => "Unexpected continue statement."
  | .notInstantiable => "Only maps can be iniated"
  | .notCallable => "Unexpected handle for function call."
  | .notIterable typeName => "Cannot iterate over " ++ typeName ++ "."
  | .cannotGetPath path => "Cannot get path " ++ path ++ "."
  | .cannotSetPath path => "Cannot set path " ++ path ++ "."
  | .immutableString => "Mutable operations are not allowed on string."
  | .immutableInterface => "Cannot set property on an interface"
  | .listIndexOutOfRange index =>
    "Index error (list index " ++ toString index ++ " out of range)."
  | .stringIndexOutOfRange index =>
    "Index error (string index " ++ toString index ++ " out of range)."
  | .unknownUnary => "Unknown unary expression."
  | .unexpectedNode kind => "Unexpected AST type " ++ kind ++ "."
  | .importNotFound path => "Cannot find import " ++ path ++ "."
  | .targetNotFound target => "Cannot find target " ++ target ++ "."
  | .noRunningProcess => "No running process was found."
  | .processAlreadyRunning => "Process already running."
  | .cannotInject => "Unable to inject into last context."
  | .targetLocked => "You cannot set a target while a process is running."
  | .tableLocked => "You cannot set an api while a process is running."
  | .handlersLocked => "You cannot set a handler while a process is running."
  | .hookLocked => "You cannot set a output handler while a process is running."
  | .host message => message

/-- The name under which a fault is reported. -/
def name (f : Fault) : String :=
  match f.kind with
  | .unexpectedReturn => "UnexpectedReturn"
  | .unexpectedBreak => "UnexpectedBreak"
  | .unexpectedContinue => "UnexpectedContinue"
  | .notInstantiable => "NotInstantiable"
  | .notCallable => "NotCallable"
  | .notIterable _ => "NotIterable"
  | .cannotGetPath _ => "CannotGetPath"
  | .cannotSetPath _ => "CannotSetPath"
  | .immutableString => "ImmutableString"
  | .immutableInterface => "ImmutableInterface"
  | .listIndexOutOfRange _ => "ListIndexOutOfRange"
  | .stringIndexOutOfRange _ => "StringIndexOutOfRange"
  | .unknownUnary => "UnknownUnary"
  | .unexpectedNode _ => "UnexpectedAstType"
  | .importNotFound _ => "ImportNotFound"
  | .targetNotFound _ => "TargetNotFound"
  | .noRunningProcess => "NoRunningProcess"
  | .processAlreadyRunning => "ProcessAlreadyRunning"
  | .cannotInject => "CannotInject"
  | .targetLocked => "TargetLocked"
  | .tableLocked => "ApiLocked"
  | .handlersLocked => "HandlerLocked"
  | .hookLocked => "DebuggerLocked"
  | .host _ => "Host"

end Fault

/-- Whatever keeps a program from being prepared or run to its end. -/
inductive ScriptError where
  | lexer (e : LexError)
  | grammar (e : ParseError)
  | run (f : Fault)
deriving DecidableEq, Inhabited

namespace ScriptError

/-- The script error of an error in a source text. -/
def ofSource : SourceError → ScriptError
  | .lex e => lexer e
  | .parse e => grammar e

/-- The heading under which an error is reported. -/
def heading : ScriptError → String
  | lexer _ => "LexerException"
  | grammar _ => "ParserException"
  | run _ => "InterpreterException"

/-- What a reader is told, without the heading. -/
def message : ScriptError → String
  | lexer e => e.message
  | grammar e => e.message
  | run f => f.message

/-- What a reader is told. -/
def text (e : ScriptError) : String := e.heading ++ ": " ++ e.message

/-- The line of the error, if it is known. -/
def line : ScriptError → Option Nat
  | lexer e => some e.line
  | grammar e => some e.line
  | run f => f.line

/-- The name under which an error is reported, without the heading. -/
def name : ScriptError → String
  | lexer e => e.name
  | grammar e => e.name
  | run f => f.name

/-- Whether the error arose while a program ran or was prepared, not in reading its text. -/
def isFault : ScriptError → Bool
  | run _ => true
  | _ => false

/-- The error with a line, if it is a fault that has none. -/
def orLine (e : ScriptError) (line : Nat) : ScriptError :=
  match e with
  | run f => run (f.orLine line)
  | e => e

end ScriptError

end LineScript
