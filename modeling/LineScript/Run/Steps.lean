import LineScript.Builtin.Methods
import LineScript.Host.Making
import LineScript.Run.Basic
import LineScript.Session.Request

/-!
# Single steps of a run

The steps that call no others: reading and writing what an access chain leads to, taking note of
control flow, the breakpoint and its answers, the beginning and the end of a run, and the functions
of the host that ask nothing of the session.
-/

namespace LineScript

namespace Run

/-- The value that the rest of a chain leads to, from a value or from the variables of a frame. -/
def readChain (path : Path) (origin : Option Value) (site : Site) : Run Value :=
  match origin with
  | some v => read fun w => w.get v path
  | none => read fun w => w.getVariable site.frame path

/-- Writes a place, once it is found. -/
def writeAt (find : World → Except Fault World.Slot) (x : Value) : Run Unit := do
  let s ← read find
  modify fun w => w.write s x

/-- Writes what the rest of a chain leads to. -/
def writeChain (path : Path) (origin : Option Value) (x : Value) (site : Site) : Run Unit :=
  match origin with
  | some v => writeAt (fun w => w.slot v path) x
  | none => writeAt (fun w => w.variableSlot site.frame path) x

/-- Binds a name in the very scope of a frame. -/
def bindName (frame : FrameRef) (name : String) (v : Value) : Run Unit :=
  modify fun w =>
    match w.frame? frame with
    | some f => w.modifyMap f.scope fun m => m.insert name v
    | none => w

/-- Notes a `return` in the frame of the function call it belongs to. -/
def finishCall (frame : FrameRef) (v : Value) : Run Unit :=
  modify fun w =>
    match (w.frame? frame).bind (·.call) with
    | some c => w.modifyFrame c fun f => { f with isReturned := true, result := v }
    | none => w

/-- What the function call of a frame returns. -/
def callResult (frame : FrameRef) : Run Value := do
  return (((← get).frame? frame).map (·.result)).getD .nil

/-- Ends a pause: the statement that was granted is used up, unless the breakpoint was taken away or
the run is to end. If none was granted yet, the run goes on as if another thread of the host had
granted one. -/
def endPause : Run Unit :=
  modify fun w =>
    if w.debugger.isArmed && !w.process.isExit then
      { w with debugger := { w.debugger with mayStep := false } }
    else w

/-- Arms or disarms the breakpoint. -/
def arm (armed : Bool) : Run Unit :=
  modify fun w => { w with debugger := { w.debugger with isArmed := armed } }

/-- Lets a run execute one more statement. -/
def grantStep : Run Unit :=
  modify fun w => { w with debugger := { w.debugger with mayStep := true } }

/-- Takes the next answer to a pause. -/
def takeAction (actions : List HookAction) : Run HookAction := do
  modify fun w => { w with debugger := { w.debugger with hook := .scripted actions.tail } }
  return actions.headD ⟨none, .step⟩

/-- Carries out the move of an answer to a pause, and tells what came of an attempt to end the run.
-/
def makeMove : HookMove → Run (Option (Except Fault Unit))
  | .step => do
    grantStep
    return none
  | .resume => do
    arm false
    return none
  | .exit => do
    return some (← attempt (update World.exit))
  | .hold => return none

/-- Makes ready for a run: the table of global functions and the arguments are bound, and the run is
under way. -/
def beginRun : Run Unit :=
  modify fun w =>
    let c := w.configuration
    let bound := w.bindAll c.api (World.globalTable ++ c.table)
    let arguments := bound.newList (c.arguments.map .string)
    let named := match arguments.2.frame? c.global with
      | some g => arguments.2.modifyMap g.scope fun m => m.insert "params" arguments.1
      | none => arguments.2
    { named with process := ⟨false, true, named.process.lastActive⟩ }

/-- Notes that a run has ended. -/
def endRun : Run Unit :=
  modify fun w => { w with process := { w.process with isPending := false, lastActive := none } }

/-- Notes where a statement begins. -/
def noteStatement (position : Position) (frame : FrameRef) : Run Unit :=
  modify fun w =>
    let placed := w.modifyFrame frame fun f => { f with position := position }
    { placed with process := { placed.process with lastActive := some frame } }

/-- Notes a pause and what came of the answer to it. -/
def notePause (position : Position) (frame : FrameRef)
    (injected : Option (Except ScriptError Unit)) (exit : Option (Except Fault Unit)) : Run Unit :=
  modify fun w =>
    match w.frame? frame with
    | some f =>
      let p : Pause := ⟨position, f.kind, f.target, injected, exit⟩
      { w with debugger := { w.debugger with pauses := w.debugger.pauses ++ [p] } }
    | none => w

/-- Changes what no run may see changing: while one is under way this is a fault. -/
def unlessPending (locked : FaultKind) (change : World → World) : Run Reply := fun w =>
  if w.process.isPending then .ok (.fault (.of locked)) w else .ok .done (change w)

/-- Replaces the two frames in which programs run by new ones. -/
def freshFrames (target : String) (w : World) : World :=
  let api := w.rootFrame target
  let global := api.2.fork api.1 .global false none none
  { global.2 with
    configuration := { w.configuration with target := target, api := api.1, global := global.1 } }

/-- Arms or disarms the breakpoint if a run is under way, and tells whether it is armed. -/
def armIfPending (armed : Bool) : Run Reply := do
  if (← get).process.isPending then arm armed
  return .flag (← get).debugger.isArmed

/-- What a function of the host gives that asks nothing of the session. -/
def hostFunction (action : HostAction) (a : Arguments) (site : Site) : Run Value :=
  match action with
  | .report => produce fun w =>
    let all := w.newList a.values
    all.2.newList [.string (w.typeName a.receiver), a.named "a", all.1]
  | .typeOf => do return .string ((← get).typeName (a.named "a"))
  | .toInteger => return .ofInt (World.toInt (a.named "a"))
  | .isTruthy => do return .bool ((← get).truthy (a.named "a"))
  | .count => do return (((← get).count? (a.named "a")).map .ofNat).getD .nil
  | .copy => produce fun w => w.copy (a.named "a")
  | .same => do return .bool ((← get).equal (a.named "a") (a.named "b"))
  | .arguments => produce fun w => w.newList a.values
  | .fail => do fail (.host ((← get).display (a.named "a")))
  | .stop => do
    update World.exit
    return .nil
  | .location => do return .string ((← get).location site.frame)
  | .describe => do return .string ((← get).typeName a.receiver)
  | .echo => return a.named "a"
  | .request => return .nil

/-- The argument of a request that a script makes: nothing, a truth value, or a text. -/
def requestArgument (w : World) : Value → RequestArgument
  | .nil => .none
  | .bool b => .flag b
  | v => .text (w.display v)

end Run

end LineScript
