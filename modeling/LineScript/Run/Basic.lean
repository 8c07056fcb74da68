import LineScript.Operation.Lowering
import LineScript.World.Liveness

/-!
# Runs

A run takes steps that change a world. A step gives a result, or stops with a fault, or is exhausted
because it went deeper than its bound. Errors that reach the end of a run go to the host, which
collects them or hands them back.
-/

namespace LineScript

/-- Why a step has no result. -/
inductive Stop where
  | fault (f : Fault)
  /-- The bound on nested steps was reached. -/
  | exhausted
deriving DecidableEq, Inhabited

/-- A step of a run: it changes the world, and gives a result or stops. -/
abbrev Run := EStateM Stop World

/-- Where code runs: its frame, and the objects that the code around it still has in use. -/
structure Site where
  frame : FrameRef
  inUse : List Thing

namespace Site

/-- The site with more values in use. -/
def hold (s : Site) (vs : List Value) : Site :=
  { s with inUse := Thing.ofValues vs ++ s.inUse }

/-- The site of code in another frame, which is called from here. -/
def enter (s : Site) (frame : FrameRef) : Site := ⟨frame, .frame s.frame :: s.inUse⟩

/-- All that is in use at a site. -/
def things (s : Site) : List Thing := .frame s.frame :: s.inUse

end Site

namespace Run

/-- The end of a run that went deeper than its bound. -/
def exhausted {α : Type} : Run α := throw .exhausted

/-- Stops with a fault. -/
def fail {α : Type} (kind : FaultKind) : Run α := throw (.fault (.of kind))

/-- Reads the world, which may fail. -/
def read {α : Type} (f : World → Except Fault α) : Run α := fun w =>
  match f w with
  | .ok a => .ok a w
  | .error e => .error (.fault e) w

/-- Changes the world, which may fail and then changes nothing. -/
def update (f : World → Except Fault World) : Run Unit := fun w =>
  match f w with
  | .ok w' => .ok () w'
  | .error e => .error (.fault e) w

/-- Changes the world and gives a result. -/
def produce {α : Type} (f : World → α × World) : Run α := fun w =>
  let r := f w
  .ok r.1 r.2

/-- Gives a fault the line of the statement in which it arose, unless it has one. -/
def atLine {α : Type} (line : Nat) (x : Run α) : Run α := fun w =>
  match x w with
  | .ok a w' => .ok a w'
  | .error (.fault f) w' => .error (.fault (f.orLine line)) w'
  | .error .exhausted w' => .error .exhausted w'

/-- Gives a fault as a result. -/
def attempt {α : Type} (x : Run α) : Run (Except Fault α) := fun w =>
  match x w with
  | .ok a w' => .ok (.ok a) w'
  | .error (.fault f) w' => .ok (.error f) w'
  | .error .exhausted w' => .error .exhausted w'

/-- Hands an error to the host, which collects it or hands it back. -/
def raise (e : ScriptError) : Run (Except ScriptError Unit) := fun w =>
  if w.handlers.collects then .ok (.ok ()) { w with collected := w.collected ++ [e] }
  else .ok (.error e) w

/-- Prepares a program under the target of the session. An error that the host collects leaves a
program that does nothing. -/
def compile (code : String) : Run (Except ScriptError Operation) := do
  let w ← get
  match prepare w.handlers.library w.configuration.mode w.configuration.target code with
  | .ok p =>
    modify fun w => { w with recovered := w.recovered ++ p.errors ++ p.importErrors }
    return .ok p.operation
  | .error e =>
    match ← raise e with
    | .ok () => return .ok .noop
    | .error e => return .error e

/-- Ends a step whose faults go to the host. -/
def settle {α : Type} (x : Run α) : Run (Except ScriptError Unit) := do
  match ← attempt x with
  | .ok _ => return .ok ()
  | .error f => raise (.run f)

end Run

end LineScript
