import LineScript.Run.Evaluation

/-!
# Sessions

A host sets up a world and asks it for one thing after the other. With every reply it is told which
lines were printed and which pauses were made on the way, so that nothing is told twice.
-/

namespace LineScript

/-- What a host sets up a session with. -/
structure Setup where
  target : String
  arguments : List String
  mode : ReadingMode
  handlers : Handlers
  hook : Hook
  random : RandomSource

/-- What a host is told about one request. -/
structure Answer where
  reply : Reply
  printed : List String
  pauses : List Pause

namespace World

/-- The world of a new session, whose host has no table yet. Nothing runs, and the breakpoint is not
armed. -/
def bare (s : Setup) : World :=
  Run.freshFrames s.target
    { lists := .empty, maps := .empty, functions := .empty, interfaces := .empty, frames := .empty
      process := ⟨false, false, none⟩
      debugger := ⟨false, false, s.hook, []⟩
      handlers := s.handlers
      printed := [], collected := [], recovered := [], generators := ⟨s.random, []⟩
      configuration := ⟨s.target, [], s.arguments, s.mode, ⟨0⟩, ⟨0⟩, none⟩ }

/-- The world of a new session, whose host has the table of the given definitions. -/
def initial (s : Setup) (definitions : List (String × Description)) : World :=
  let made := makeEntries [] definitions (bare s)
  { made.2 with configuration :=
      { made.2.configuration with table := (OrderedMap.ofList made.1).entries } }

/-- Takes the lines that were printed and not yet taken. -/
def takePrinted (w : World) : List String × World := (w.printed, { w with printed := [] })

/-- Takes the pauses that were made and not yet taken. -/
def takePauses (w : World) : List Pause × World :=
  (w.debugger.pauses, { w with debugger := { w.debugger with pauses := [] } })

/-- Where the host itself stands: at the global frame, with nothing else in use. -/
def hostSite (w : World) : Site := ⟨w.configuration.global, []⟩

/-- Answers a request from outside. There is no answer if the bound on nested steps was reached. -/
def answer (fuel : Nat) (r : Request) (w : World) : Option (Answer × World) :=
  match Run.perform fuel r w.hostSite w with
  | .ok reply w' =>
    let printed := w'.takePrinted
    let pauses := printed.2.takePauses
    some (⟨reply, printed.1, pauses.1⟩, pauses.2)
  | .error _ _ => none

end World

namespace Run

/-- Prepares code under the target of the session and runs it in a frame. -/
def evalIn (fuel : Nat) (code : String) (site : Site) : Run (Except ScriptError Value) := do
  match ← compile code with
  | .error e => return .error e
  | .ok operation =>
    let v ← eval fuel operation site
    return .ok v

/-- Calls a function from a frame that stands alone. -/
def callAlone (fuel : Nat) (f : FunctionRef) (receiver : Value) (arguments : List Value) :
    Run Value := do
  let target := (← get).configuration.target
  let frame ← produce fun w => w.rootFrame target
  callFunction fuel f receiver arguments ⟨frame, []⟩

end Run

end LineScript
