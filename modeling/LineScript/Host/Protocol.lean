import LineScript.Fault
import LineScript.Resource

/-!
# What a host tells a session

The policies a host sets, the actions with which it answers a pause, and descriptions of the values
it hands over, among them the functions of its table.
-/

namespace LineScript

/-- Where printed lines go. -/
inductive OutputMode where
  /-- Lines are kept. -/
  | buffer
  /-- Lines are dropped. -/
  | silent
  /-- Lines go to a sink of the host, which marks them. -/
  | host
deriving DecidableEq, Inhabited

/-- What a line that goes through an output mode leaves behind. -/
def OutputMode.lines (m : OutputMode) (line : String) : List String :=
  match m with
  | .buffer => [line]
  | .silent => []
  | .host => ["host:" ++ line]

/-- The policies of a host: where lines go, whether errors are collected or handed back, and where
source texts are found. -/
structure Handlers where
  output : OutputMode
  collects : Bool
  library : Library
deriving DecidableEq, Inhabited

/-- What a host does about a pause. -/
inductive HookMove where
  /-- Lets the run execute one more statement. -/
  | step
  /-- Takes the breakpoint away. -/
  | resume
  /-- Ends the run. -/
  | exit
  /-- Does nothing. The pause is over when another thread of the host has granted a step, and the
  run goes on as if that had been done at once. -/
  | hold
deriving DecidableEq, Inhabited

/-- The answer to a pause: code to inject where the run is, if any, and then a move. -/
structure HookAction where
  code : Option String
  move : HookMove
deriving DecidableEq, Inhabited

/-- Who answers pauses. -/
inductive Hook where
  /-- Nobody: the breakpoint is taken away. -/
  | standard
  /-- A list of answers, one for each pause, and steps when they are used up. -/
  | scripted (actions : List HookAction)
deriving DecidableEq, Inhabited

/-- What a function of the host does. A host makes its table of functions that each do one of
these. -/
inductive HostAction where
  /-- Tells how it was called: the type of the receiver, the argument of the parameter `a`, and all
  arguments. -/
  | report
  | typeOf
  | toInteger
  | isTruthy
  | count
  | copy
  | same
  | arguments
  /-- Raises a fault. -/
  | fail
  /-- Ends the run. -/
  | stop
  /-- Tells which frame it was called from. -/
  | location
  /-- Tells the type of the receiver. -/
  | describe
  /-- Gives back its argument. -/
  | echo
  /-- Asks the session for something in the middle of a run. -/
  | request
deriving DecidableEq, Inhabited

/-- A value as a host describes it. A function has a name, parameters, each with the value that it
has when it gets none, and what it does. -/
inductive Description where
  | nil
  | bool (b : Bool)
  | number (x : Float)
  | string (s : String)
  | list (items : List Description)
  | map (entries : List (String × Description))
  /-- A map that counts as made by `new`. -/
  | instanceMap (entries : List (String × Description))
  /-- A value that was made before, by its name. -/
  | named (name : String)
  | function (name : String) (parameters : List (String × Description)) (action : HostAction)
  /-- An interface with its functions. -/
  | interface (name : String)
      (functions : List (String × List (String × Description) × HostAction))
deriving Inhabited

end LineScript
