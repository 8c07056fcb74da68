import LineScript.World.Liveness
import LineScript.World.Operators

/-!
# Requests and replies

What a host can ask of a session, from outside or in the middle of a run, and what it is told. A
script sees a reply as a value.
-/

namespace LineScript

/-- What a host asks of a session. -/
inductive Request where
  | run (code : String)
  /-- Runs the file that is the target. -/
  | runTarget
  /-- Runs code behind the global frame, unseen by the breakpoint. -/
  | inject (code : String)
  /-- Runs code where the run is, unseen by the breakpoint. -/
  | injectLast (code : String)
  /-- Prepares a program and remembers it. -/
  | prepare (code : String)
  /-- Runs the program that was prepared last. -/
  | runPrepared
  | get (path : String)
  | set (path : String) (value : Description)
  | target
  | setTarget (target : String)
  | setArguments (arguments : List String)
  | setTable (table : List (String × Description))
  | setHandlers (handlers : Handlers)
  | setHook (hook : Hook)
  | breakpoint (armed : Bool)
  | step
  | isArmed
  | pause
  | resume
  | exit
  | isPending
  /-- Takes the errors that were passed over in reading source texts. -/
  | takeRecovered
  /-- Takes the errors that were collected. -/
  | takeCollected
  | countCollected
  /-- Asks for the global frame. -/
  | globalFrame
  /-- Something that is not known. -/
  | unknown

/-- What a host is told. -/
inductive Reply where
  | done
  | nothing
  | flag (b : Bool)
  | text (s : String)
  | value (v : Value)
  | fault (f : Fault)
  | scriptError (e : ScriptError)
  | flags (a b : Bool)
  | recovered (errors : List ScriptError)
  | collected (errors : List ScriptError)
  | count (n : Nat)
  | frame (r : FrameRef)

/-- The argument of a request that a script makes. -/
inductive RequestArgument where
  | none
  | flag (b : Bool)
  | text (s : String)

namespace RequestArgument

/-- The argument as a text. -/
def toText : RequestArgument → String
  | text s => s
  | _ => ""

/-- The argument as a truth value. -/
def toFlag : RequestArgument → Bool
  | flag b => b
  | _ => false

end RequestArgument

namespace Request

/-- The policies a host has unless it sets others. -/
def standardHandlers : Handlers := ⟨.buffer, false, .empty⟩

/-- The request that a script makes by its name. -/
def ofScript (name : String) (a : RequestArgument) : Request :=
  match name with
  | "run" => run a.toText
  | "run_target" => runTarget
  | "inject" => inject a.toText
  | "inject_last" => injectLast a.toText
  | "prepare" => prepare a.toText
  | "run_prepared" => runPrepared
  | "get" => get a.toText
  | "set" => set a.toText .nil
  | "target" => target
  | "set_target" => setTarget a.toText
  | "set_argv" => setArguments []
  | "set_api" => setTable []
  | "set_handlers" => setHandlers standardHandlers
  | "set_hook" => setHook .standard
  | "breakpoint" => breakpoint a.toFlag
  | "next_step" => step
  | "handle_step" => step
  | "is_armed" => isArmed
  | "pause" => pause
  | "resume" => resume
  | "exit" => exit
  | "is_pending" => isPending
  | "recovered" => takeRecovered
  | "collected" => takeCollected
  | "peek_collected" => countCollected
  | "contexts" => globalFrame
  | _ => unknown

end Request

/-- What a request that either succeeds or hands back an error is told. -/
def Reply.ofResult : Except ScriptError Unit → Reply
  | .ok _ => .done
  | .error e => .scriptError e

namespace World

/-- What a value that crosses over to the host and back becomes, down to the given number of nested
lists: a number becomes its text, and what has no plain form becomes the text `object`. -/
def crossed : Nat → Value → World → Value × World
  | 0, _, w => (.string "object", w)
  | _ + 1, .nil, w => (.nil, w)
  | _ + 1, .bool b, w => (.bool b, w)
  | _ + 1, .number x, w => (.string (Number.text x), w)
  | _ + 1, .string s, w => (.string s, w)
  | n + 1, .list r, w =>
    let crossedItems := (w.elements r).foldl (fun (acc : List Value × World) v =>
      let c := crossed n v acc.2
      (acc.1 ++ [c.1], c.2)) ([], w)
    crossedItems.2.newList crossedItems.1
  | _ + 1, _, w => (.string "object", w)

/-- How many levels of a value cross over to the host. -/
def crossedLevels : Nat := 21

/-- The text of an error that crosses over to a script. -/
def errorText (e : ScriptError) : String :=
  e.heading ++ "/" ++ e.name ++ ": " ++ e.message

/-- A list of rows, each a list of values. -/
def newRows (w : World) (rows : List (List Value)) : Value × World :=
  let made := rows.foldl (fun (acc : List Value × World) row =>
    let r := acc.2.newList row
    (acc.1 ++ [r.1], r.2)) ([], w)
  made.2.newList made.1

/-- A reply as a script sees it. -/
def replyValue (w : World) : Reply → Value × World
  | .done => (.string "ok", w)
  | .nothing => (.nil, w)
  | .flag b => (.bool b, w)
  | .text s => (.string s, w)
  | .value v => crossed crossedLevels v w
  | .fault f => (.string (f.name ++ ": " ++ f.message), w)
  | .scriptError e => (.string (errorText e), w)
  | .flags a b => w.newList [.bool a, .bool b]
  | .recovered es => w.newRows (es.map fun e => [.string (errorText e), .string e.text])
  | .collected es =>
    w.newRows (es.map fun e => [.string (errorText e), .string e.text, .bool e.isFault])
  | .count _ => (.nil, w)
  | .frame _ => (.string "object", w)

end World

end LineScript
