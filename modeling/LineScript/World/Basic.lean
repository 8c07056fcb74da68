import LineScript.Host.Protocol
import LineScript.Value.Basic
import LineScript.World.Heap

/-!
# The world of a session

Everything a run can read or change: the objects that values refer to, the frames, the state of the
run and of its breakpoint, and what the host has configured.
-/

namespace LineScript

/-- What a frame was made for. -/
inductive FrameKind where
  | api | global | function | external | loop | map | call
deriving DecidableEq, Inhabited

namespace FrameKind

/-- The name of a kind, as it is shown. -/
def name : FrameKind → String
  | api => "Api"
  | global => "Global"
  | function => "Function"
  | external => "External"
  | loop => "Loop"
  | map => "Map"
  | call => "Call"

/-- The kinds whose frames hold the variables of the code in them. -/
def holdsLocals : FrameKind → Bool
  | global | function => true
  | _ => false

end FrameKind

/-- One frame of a chain that leads from running code back to the table of global functions. -/
structure Frame where
  kind : FrameKind
  /-- Whether reading and writing variables is left to the frame before. -/
  isTemporary : Bool
  /-- The file whose code runs in the frame. -/
  target : String
  /-- Whether the frame runs code that a host injected. -/
  isInjected : Bool
  /-- The variables of the frame. -/
  scope : MapRef
  previous : Option FrameRef
  /-- The nearest frame of the table of global functions, the frame itself included. -/
  api : Option FrameRef
  /-- The nearest global frame, the frame itself included. -/
  globals : Option FrameRef
  /-- The nearest frame that holds variables, the frame itself included. -/
  locals : Option FrameRef
  /-- The frame of the innermost loop within the same function. -/
  loop : Option FrameRef
  /-- The frame of the innermost function call. -/
  call : Option FrameRef
  /-- Whether the loop of this frame was broken off. -/
  isBroken : Bool
  /-- Whether the loop of this frame goes on with its next round. -/
  isContinued : Bool
  /-- Whether the call of this frame has returned. -/
  isReturned : Bool
  /-- What the call of this frame returns. -/
  result : Value
  /-- Where the statement that runs in the frame begins. -/
  position : Position
deriving Inhabited

/-- The name of how a frame treats variables, as it is shown. -/
def Frame.stateName (f : Frame) : String := if f.isTemporary then "Temporary" else "Default"

/-- The state of a run. -/
structure Process where
  /-- Whether the run was asked to end. -/
  isExit : Bool
  /-- Whether a run is under way. -/
  isPending : Bool
  /-- The frame in which a statement was begun last, injected code apart. -/
  lastActive : Option FrameRef
deriving DecidableEq, Inhabited

/-- A pause, and what came of the answer to it. -/
structure Pause where
  position : Position
  kind : FrameKind
  target : String
  /-- What came of the injected code, if there was any. -/
  injected : Option (Except ScriptError Unit)
  /-- What came of the attempt to end the run, if there was one. -/
  exit : Option (Except Fault Unit)

/-- The state of the breakpoint. -/
structure Debugger where
  isArmed : Bool
  /-- Whether one more statement may be executed. -/
  mayStep : Bool
  hook : Hook
  /-- The pauses so far. -/
  pauses : List Pause

/-- The source of random numbers. A generator belongs to a seed, which is a whole number; one more
generator serves those who name no seed. -/
structure RandomSource where
  /-- The seed that a text stands for. -/
  seedOfText : String → Int
  /-- The numbers that a generator gives, one after the other. -/
  number : Option Int → Nat → Float
deriving Inhabited

/-- The generators of a session: their source, and how many numbers each of them has given. -/
structure Generators where
  source : RandomSource
  given : List (Option Int × Nat)
deriving Inhabited

namespace Generators

/-- How many numbers the generator of a seed has given. -/
def count (g : Generators) (seed : Option Int) : Nat :=
  ((g.given.find? (fun e => e.1 == seed)).map (·.2)).getD 0

/-- The generators when that of a seed has given one number more. -/
def note (g : Generators) (seed : Option Int) : Generators :=
  { g with given := (seed, g.count seed + 1) :: g.given.filter (fun e => e.1 != seed) }

end Generators

/-- What a host has configured, and the two frames in which programs run. -/
structure Configuration where
  target : String
  /-- The functions and values of the host. -/
  table : List (String × Value)
  arguments : List String
  mode : ReadingMode
  api : FrameRef
  global : FrameRef
  /-- The program that was prepared last. -/
  prepared : Option Operation

/-- Everything a run can read or change. -/
structure World where
  lists : Heap (List Value)
  maps : Heap MapObject
  functions : Heap FunctionObject
  interfaces : Heap InterfaceObject
  frames : Heap Frame
  process : Process
  debugger : Debugger
  handlers : Handlers
  /-- The lines printed so far. -/
  printed : List String
  /-- The errors that were collected instead of handed back. -/
  collected : List ScriptError
  /-- The errors that were passed over in reading source texts. -/
  recovered : List ScriptError
  generators : Generators
  configuration : Configuration

namespace World

/-- The elements of a list. -/
def elements (w : World) (r : ListRef) : List Value :=
  (w.lists.get? r.index).getD []

/-- The contents of a map. -/
def contents (w : World) (r : MapRef) : MapObject :=
  (w.maps.get? r.index).getD ⟨.empty, false⟩

/-- Makes a list. -/
def newList (w : World) (items : List Value) : Value × World :=
  (.list ⟨w.lists.size⟩, { w with lists := w.lists.push items })

/-- Makes a map. -/
def newMap (w : World) (m : MapObject) : Value × World :=
  (.map ⟨w.maps.size⟩, { w with maps := w.maps.push m })

/-- Makes a function. -/
def newFunction (w : World) (f : FunctionObject) : Value × World :=
  (.function (.made w.functions.size), { w with functions := w.functions.push f })

/-- Makes an interface. -/
def newInterface (w : World) (i : InterfaceObject) : Value × World :=
  (.interface ⟨w.interfaces.size⟩, { w with interfaces := w.interfaces.push i })

/-- Replaces the elements of a list. -/
def setElements (w : World) (r : ListRef) (items : List Value) : World :=
  { w with lists := w.lists.set r.index items }

/-- Changes the contents of a map. -/
def modifyMap (w : World) (r : MapRef) (f : MapObject → MapObject) : World :=
  { w with maps := w.maps.modify r.index f }

/-- A frame. -/
def frame? (w : World) (r : FrameRef) : Option Frame := w.frames.get? r.index

/-- Changes a frame. -/
def modifyFrame (w : World) (r : FrameRef) (f : Frame → Frame) : World :=
  { w with frames := w.frames.modify r.index f }

theorem elements_setElements (w : World) (r s : ListRef) (items : List Value) :
    (w.setElements r items).elements s =
      if r = s ∧ s.index < w.lists.size then items else w.elements s := by
  cases r with
  | mk i =>
    cases s with
    | mk j =>
      simp only [elements, setElements, Heap.get?_set, ListRef.mk.injEq]
      split <;> rfl

theorem contents_modifyMap (w : World) (r s : MapRef) (f : MapObject → MapObject) :
    (w.modifyMap r f).contents s =
      if r = s ∧ s.index < w.maps.size then f (w.contents s) else w.contents s := by
  cases r with
  | mk i =>
    cases s with
    | mk j =>
      simp only [contents, modifyMap, Heap.get?_modify, MapRef.mk.injEq]
      by_cases hij : i = j
      · subst hij
        cases hi : w.maps.get? i with
        | none =>
          have hge : ¬ i < w.maps.size := fun hlt => by
            simp [Heap.get?, Heap.size] at hi hlt
            omega
          simp [hge]
        | some m => simp [Heap.lt_size_of_get? hi]
      · simp [hij]

theorem frame?_modifyFrame (w : World) (r s : FrameRef) (f : Frame → Frame) :
    (w.modifyFrame r f).frame? s = if r = s then (w.frame? s).map f else w.frame? s := by
  cases r with
  | mk i =>
    cases s with
    | mk j => simp only [frame?, modifyFrame, Heap.get?_modify, FrameRef.mk.injEq]

/-- Sends a line where the host wants it. -/
def print (w : World) (line : String) : World :=
  { w with printed := w.printed ++ w.handlers.output.lines line }

/-- How many lists and maps there are, which bounds how deeply values without a cycle nest. -/
def containerCount (w : World) : Nat := w.lists.size + w.maps.size

end World

end LineScript
