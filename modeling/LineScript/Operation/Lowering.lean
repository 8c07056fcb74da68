import LineScript.Fault
import LineScript.Grammar.Parser
import LineScript.Operation.Basic
import LineScript.Resource

/-!
# From nodes to operations

Every node becomes one operation. A file that is imported is found relative to the file that imports
it, read, and lowered in its place; a file that is being imported already becomes an operation that
does nothing, which ends every cycle of imports.
-/

namespace LineScript

/-- What lowering keeps track of. -/
structure Linker where
  /-- The file whose nodes are being lowered. -/
  target : String
  /-- The files whose import is under way, the innermost first. -/
  opened : List String
  /-- The errors passed over in reading imported files. -/
  recovered : List ScriptError

/-- A step of lowering. -/
abbrev Lowering := EStateM ScriptError Linker

namespace Linker

/-- The state in front of the nodes of a file. -/
def ofTarget (target : String) : Linker := ⟨target, [target], []⟩

/-- The state in front of the nodes of an imported file. -/
def enter (l : Linker) (target : String) : Linker :=
  { l with target := target, opened := target :: l.opened }

/-- The state behind the nodes of an imported file, given the file that imported it. -/
def leave (l : Linker) (target : String) : Linker :=
  { l with target := target, opened := l.opened.tail }

end Linker

namespace Lowering

/-- Gives a fault the line of the node in which it arose, unless it has one. -/
def atLine {α : Type} (line : Nat) (x : Lowering α) : Lowering α := fun l =>
  match x l with
  | .ok a l' => .ok a l'
  | .error e l' => .error (e.orLine line) l'

/-- Lowers the nodes of an imported file, under its name. -/
def within {α : Type} (target : String) (x : Lowering α) : Lowering α := fun l =>
  match x (l.enter target) with
  | .ok a l' => .ok a (l'.leave l.target)
  | .error e l' => .error e (l'.leave l.target)

/-- Stops with a fault. -/
def fail {α : Type} (kind : FaultKind) : Lowering α := throw (.run (.of kind))

end Lowering

namespace Node

/-- Whether a node is a chain of access, the only kind of node that can be assigned to. -/
def isChain : Node → Bool
  | identifier _ _ => true
  | member _ _ _ => true
  | index _ _ _ => true
  | _ => false

/-- The segments of a node that was lowered: those of a chain, or the whole as the front of one. -/
def segments (n : Node) (lowered : Operation) : List Segment :=
  match n.isChain, lowered with
  | true, .resolve chain => chain
  | _, operation => [.root operation]

mutual

/-- Lowers a node, given what becomes of an import. -/
def lower (onImport : String → Lowering Operation) : Node → Lowering Operation
  | .chunk e body _ => Lowering.atLine e.start.line do
      return .chunk (← lowerBlock onImport body)
  | .assignment e target value => Lowering.atLine e.start.line do
      if target.isChain then
        let t ← lower onImport target
        let v ← lower onImport value
        return .assign (target.segments t) v
      else Lowering.fail (.unexpectedNode target.kindName)
  | .callStatement e expression => Lowering.atLine e.start.line do
      lower onImport expression
  | .function e name parameters body => Lowering.atLine e.start.line do
      let ps ← lowerParameters onImport parameters
      let b ← lowerBlock onImport body
      return .function (.mk name ps b)
  | .returnStatement e argument => Lowering.atLine e.start.line do
      match argument with
      | none => return .returnFrom none
      | some a => return .returnFrom (some (← lower onImport a))
  | .conditional e clauses => Lowering.atLine e.start.line do
      return .conditional (← lowerClauses onImport clauses)
  | .whileLoop e condition body => Lowering.atLine e.start.line do
      let c ← lower onImport condition
      let b ← lowerBlock onImport body
      return .whileLoop c b
  | .forLoop e target iterator body => Lowering.atLine e.start.line do
      if target.isChain then
        let t ← lower onImport target
        let i ← lower onImport iterator
        let b ← lowerBlock onImport body
        return .forLoop (target.segments t) i b
      else Lowering.fail (.unexpectedNode target.kindName)
  | .breakStatement _ => return .breakLoop
  | .continueStatement _ => return .continueLoop
  | .debuggerStatement _ => return .debugger
  | .importStatement e path => Lowering.atLine e.start.line (onImport path)
  | .identifier _ name => return .resolve [.name name]
  | .literal _ value _ => return .literal value
  | .member e origin name => Lowering.atLine e.start.line do
      let o ← lower onImport origin
      let n ← lower onImport name
      return .resolve (origin.segments o ++ name.segments n)
  | .index e origin key => Lowering.atLine e.start.line do
      let o ← lower onImport origin
      let k ← lower onImport key
      return .resolve (origin.segments o ++ [.index k])
  | .call e origin arguments => Lowering.atLine e.start.line do
      let o ← lower onImport origin
      let a ← lowerList onImport arguments
      return .call (origin.segments o) a
  | .negation e argument => Lowering.atLine e.start.line do
      return .negate (← lower onImport argument)
  | .signed e operator argument => Lowering.atLine e.start.line do
      return .signed operator (← lower onImport argument)
  | .unary e operator argument => Lowering.atLine e.start.line do
      match operator with
      | .new => return .instantiate (← lower onImport argument)
      | _ => Lowering.fail .unknownUnary
  | .binary e operator left right => Lowering.atLine e.start.line do
      let l ← lower onImport left
      let r ← lower onImport right
      return .evaluate operator l r
  | .logical e operator left right => Lowering.atLine e.start.line do
      let l ← lower onImport left
      let r ← lower onImport right
      return .evaluate operator l r
  | .mapLiteral e fields => Lowering.atLine e.start.line do
      return .map (← lowerFields onImport fields)
  | .listLiteral e items => Lowering.atLine e.start.line do
      return .list (← lowerList onImport items)
  | .empty _ => return .noop
  | .invalid _ => return .noop

/-- Lowers nodes from left to right. -/
def lowerList (onImport : String → Lowering Operation) : List Node → Lowering (List Operation)
  | [] => return []
  | n :: ns => do
      let o ← lower onImport n
      let os ← lowerList onImport ns
      return o :: os

/-- Lowers statements from first to last. -/
def lowerBlock (onImport : String → Lowering Operation) : List Node → Lowering (List Statement)
  | [] => return []
  | n :: ns => do
      let o ← lower onImport n
      let os ← lowerBlock onImport ns
      return .mk o n.start :: os

/-- Lowers the defaults of parameters from left to right. -/
def lowerParameters (onImport : String → Lowering Operation) :
    List Parameter → Lowering (List FormalParameter)
  | [] => return []
  | .mk _ name none :: ps => do
      let fs ← lowerParameters onImport ps
      return .mk name none :: fs
  | .mk _ name (some default) :: ps => do
      let d ← lower onImport default
      let fs ← lowerParameters onImport ps
      return .mk name (some d) :: fs

/-- Lowers the branches of a conditional from first to last. A branch without a condition is always
taken. -/
def lowerClauses (onImport : String → Lowering Operation) :
    List Clause → Lowering (List Branch)
  | [] => return []
  | .mk _ _ none body :: cs => do
      let b ← lowerBlock onImport body
      let bs ← lowerClauses onImport cs
      return .mk (.constant true) b :: bs
  | .mk _ _ (some condition) body :: cs => do
      let c ← lower onImport condition
      let b ← lowerBlock onImport body
      let bs ← lowerClauses onImport cs
      return .mk c b :: bs

/-- Lowers the entries of a map literal from left to right. -/
def lowerFields (onImport : String → Lowering Operation) :
    List Field → Lowering (List (String × Operation))
  | [] => return []
  | .mk _ key value :: fs => do
      let v ← lower onImport value
      let vs ← lowerFields onImport fs
      return (key, v) :: vs

end

end Node

namespace Lowering

/-- What becomes of an import, given what becomes of the imports in the file that it enters. A file
that is being imported already is not entered again. -/
def importStep (library : Library) (mode : ReadingMode) (inner : String → Lowering Operation)
    (path : String) : Lowering Operation := do
  let l ← get
  match library.resolve? l.target path with
  | none => fail (.importNotFound path)
  | some target =>
    if l.opened.contains target then return .noop
    else
      match library.get? target with
      | none => fail (.importNotFound path)
      | some source =>
        match parse mode source with
        | .error e => throw (.ofSource e)
        | .ok p =>
          modify fun l => { l with recovered := l.recovered ++ p.errors.map .ofSource }
          let chunk ← within target (p.chunk.lower inner)
          return .imported target chunk

/-- What becomes of an import. The number bounds how deeply imports may nest. -/
def importFile (library : Library) (mode : ReadingMode) : Nat → String → Lowering Operation
  | 0, _ => return .noop
  | n + 1, path => importStep library mode (importFile library mode n) path

end Lowering

/-- Lowers a node of a file, whose imports are found in a library. Every import that is entered
opens one more file, so the bound on nested imports is large enough. -/
def Node.lowerWith (library : Library) (mode : ReadingMode) (n : Node) : Lowering Operation :=
  n.lower (Lowering.importFile library mode (library.files.length + 1))

/-- A program that is ready to be run, with the errors that were passed over in reading its own text
and the files it imports. -/
structure Program where
  operation : Operation
  errors : List ScriptError
  importErrors : List ScriptError

/-- Prepares a source text under the name of a file. -/
def prepare (library : Library) (mode : ReadingMode) (target source : String) :
    Except ScriptError Program :=
  match parse mode source with
  | .error e => .error (.ofSource e)
  | .ok p =>
    match p.chunk.lowerWith library mode (Linker.ofTarget target) with
    | .error e _ => .error e
    | .ok operation l => .ok ⟨operation, p.errors.map .ofSource, l.recovered⟩

end LineScript
