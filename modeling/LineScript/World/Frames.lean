import LineScript.World.Inspect

/-!
# Frames and variables

How a frame is made from the one before it, and how variables are read and written along a chain of
frames. A temporary frame leaves its variables to the frame before; any other name is looked for in
the nearest frame that holds variables, then in the table of global functions, then among the
methods of maps, and then further out.
-/

namespace LineScript

namespace World

/-- Makes the outermost frame of a chain, which holds the table of global functions. -/
def rootFrame (w : World) (target : String) : FrameRef × World :=
  let self : FrameRef := ⟨w.frames.size⟩
  let frame : Frame :=
    { kind := .api, isTemporary := false, target := target, isInjected := false
      scope := ⟨w.maps.size⟩, previous := none, api := some self, globals := none, locals := none
      loop := none, call := none, isBroken := false, isContinued := false, isReturned := false
      result := .nil, position := .origin }
  (self, { w with frames := w.frames.push frame, maps := w.maps.push ⟨.empty, false⟩ })

/-- Makes a frame behind another one. It takes over target and injection unless they are given. A
function begins without a loop and with a result of its own, a loop begins with flags of its own,
and all else shares both with the frame before. -/
def fork (w : World) (parent : FrameRef) (kind : FrameKind) (isTemporary : Bool)
    (target : Option String) (isInjected : Option Bool) : FrameRef × World :=
  match w.frame? parent with
  | none => (parent, w)
  | some p =>
    let self : FrameRef := ⟨w.frames.size⟩
    let frame : Frame :=
      { kind := kind, isTemporary := isTemporary, target := target.getD p.target
        isInjected := isInjected.getD p.isInjected, scope := ⟨w.maps.size⟩
        previous := some parent
        api := if kind == .api then some self else p.api
        globals := if kind == .global then some self else p.globals
        locals := if kind.holdsLocals then some self else p.locals
        loop := if kind == .function then none else if kind == .loop then some self else p.loop
        call := if kind == .function then some self else p.call
        isBroken := false, isContinued := false, isReturned := false, result := .nil
        position := p.position }
    (self, { w with frames := w.frames.push frame, maps := w.maps.push ⟨.empty, false⟩ })

/-- Makes the frame of a loop. -/
def forkLoop (w : World) (parent : FrameRef) : FrameRef × World :=
  w.fork parent .loop true none none

/-- The variables of a frame, as a map. -/
def scopeOf (f : Frame) : Value := .map f.scope

/-- The scopes in which the name of a path is looked for in one frame: its own variables, then the
table of global functions. -/
def findInFrame (w : World) (f : Frame) (path : Path) : Option (Except Fault Value) :=
  let own := scopeOf f
  if (w.lookup? own path).isSome then some (w.get own path)
  else
    match f.api.bind w.frame? with
    | some a =>
      if (w.lookup? (scopeOf a) path).isSome then some (w.get (scopeOf a) path) else none
    | none => none

/-- The method of maps that a bare name stands for. -/
def bareMethod? : Path → Option Value
  | [name] => (Builtin.mapMethod? name).map fun b => .function (.builtin b)
  | _ => none

/-- Reads a variable from a frame. The number bounds the steps from frame to frame. -/
def getFrom (w : World) : Nat → FrameRef → Path → Except Fault Value
  | 0, _, path => .error (.of (.cannotGetPath (Path.text path)))
  | n + 1, r, path =>
    match w.frame? r with
    | none => .error (.of (.cannotGetPath (Path.text path)))
    | some f =>
      match path with
      | "locals" :: rest => w.getFrom n (f.locals.getD r) rest
      | "globals" :: rest =>
        match f.globals with
        | some g => w.getFrom n g rest
        | none => .error (.of (.cannotGetPath (Path.text path)))
      | _ =>
        if f.isTemporary then
          match f.previous with
          | some p => w.getFrom n p path
          | none => .ok .nil
        else
          match w.frame? (f.locals.getD r) with
          | none => .error (.of (.cannotGetPath (Path.text path)))
          | some l =>
            if path.isEmpty then .ok (scopeOf l)
            else
              match w.findInFrame l path with
              | some found => found
              | none =>
                match bareMethod? path with
                | some m => .ok m
                | none =>
                  match l.previous with
                  | some p => w.getFrom n p path
                  | none => .error (.of (.cannotGetPath (Path.text path)))

/-- How many steps from frame to frame a path can take: each step goes to an earlier frame or uses
up a key. -/
def stepBound (r : FrameRef) (path : Path) : Nat := r.index + path.length + 1

/-- Reads a variable. -/
def getVariable (w : World) (r : FrameRef) (path : Path) : Except Fault Value :=
  w.getFrom (stepBound r path) r path

/-- The place of a variable, seen from a frame. The number bounds the steps from frame to frame. -/
def slotFrom (w : World) : Nat → FrameRef → Path → Except Fault Slot
  | 0, _, path => .error (.of (.cannotSetPath (Path.text path)))
  | n + 1, r, path =>
    match w.frame? r with
    | none => .error (.of (.cannotSetPath (Path.text path)))
    | some f =>
      match path with
      | "locals" :: rest => w.slotFrom n (f.locals.getD r) rest
      | "globals" :: rest =>
        match f.globals with
        | some g => w.slotFrom n g rest
        | none => .error (.of (.cannotSetPath (Path.text path)))
      | _ =>
        if f.isTemporary then
          match f.previous with
          | some p => w.slotFrom n p path
          | none => .error (.of (.cannotSetPath (Path.text path)))
        else
          match w.frame? (f.locals.getD r) with
          | none => .error (.of (.cannotSetPath (Path.text path)))
          | some l => w.slot (scopeOf l) path

/-- The place of a variable. A bare name has its place in the nearest frame that holds variables. -/
def variableSlot (w : World) (r : FrameRef) (path : Path) : Except Fault Slot :=
  w.slotFrom (stepBound r path) r path

/-- Writes a variable. -/
def setVariable (w : World) (r : FrameRef) (path : Path) (x : Value) : Except Fault World :=
  (w.variableSlot r path).map fun s => w.write s x

/-- The frame that entries are bound in: the nearest one that is not temporary. The number bounds
the steps. -/
def bindingFrame (w : World) : Nat → FrameRef → FrameRef
  | 0, r => r
  | n + 1, r =>
    match w.frame? r with
    | some f =>
      if f.isTemporary then
        match f.previous with
        | some p => w.bindingFrame n p
        | none => r
      else r
    | none => r

/-- Binds entries in a frame. -/
def bindAll (w : World) (r : FrameRef) (entries : List (String × Value)) : World :=
  match w.frame? (w.bindingFrame (r.index + 1) r) with
  | some f => w.modifyMap f.scope fun m => m.extend entries
  | none => w

/-- Whether the run was asked to end, or the loop or the function call that the code of a frame
belongs to is left. -/
def isInterrupted (w : World) (r : FrameRef) : Bool :=
  match w.frame? r with
  | none => w.process.isExit
  | some f =>
    let loopLeft := (f.loop.bind w.frame?).any fun l => l.isBroken || l.isContinued
    let returned := (f.call.bind w.frame?).any fun c => c.isReturned
    w.process.isExit ||
      match f.kind with
      | .loop => loopLeft || returned
      | .function => returned
      | _ => false

/-- Whether a loop is left behind a round, given its frame. -/
def leavesLoop (w : World) (r : FrameRef) : Bool :=
  match w.frame? r with
  | none => true
  | some f =>
    (f.loop.bind w.frame?).any (fun l => l.isBroken) || w.process.isExit ||
      (f.call.bind w.frame?).any fun c => c.isReturned

/-- Takes note that a loop goes into its next round. -/
def beginRound (w : World) (r : FrameRef) : World :=
  w.modifyFrame r fun f => { f with isContinued := false }

/-- Where a frame runs, as a text. -/
def location (w : World) (r : FrameRef) : String :=
  match w.frame? r with
  | none => ""
  | some f =>
    f.kind.name ++ " " ++ f.stateName ++ " " ++ f.target ++ " " ++
      (if f.isInjected then "true" else "false") ++ " " ++ f.position.text

/-- Asks the run to end. -/
def exit (w : World) : Except Fault World :=
  if w.process.isPending then .ok { w with process := { w.process with isExit := true } }
  else .error (.of .noRunningProcess)

end World

end LineScript
