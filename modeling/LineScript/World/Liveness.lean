import LineScript.World.Frames

/-!
# What is still referred to

The frame in which a statement was begun last may be gone when it is asked for: a frame is kept only
while something refers to it. An object is kept if a chain of references that leads to it begins at
something in use, or runs in a circle.
-/

namespace LineScript

/-- An object that can refer to others and be referred to. -/
inductive Thing where
  | frame (r : FrameRef)
  | map (r : MapRef)
  | list (r : ListRef)
  | function (index : Nat)
  | interface (r : InterfaceRef)
deriving DecidableEq, Inhabited

namespace Thing

/-- The object that a value refers to. -/
def ofValue? : Value → Option Thing
  | .list r => some (list r)
  | .map r => some (map r)
  | .function (.made i) => some (function i)
  | .interface r => some (interface r)
  | _ => none

/-- The objects that values refer to. -/
def ofValues (vs : List Value) : List Thing := vs.filterMap ofValue?

end Thing

namespace World

/-- The objects that an object refers to. -/
def references (w : World) : Thing → List Thing
  | .frame r =>
    match w.frame? r with
    | some f => f.previous.toList.map .frame ++ .map f.scope :: Thing.ofValues [f.result]
    | none => []
  | .map r => Thing.ofValues (w.contents r).entries.values
  | .list r => Thing.ofValues (w.elements r)
  | .function i =>
    match w.functions.get? i with
    | some (.closure _ frame) => [.frame frame]
    | some (.host _ parameters _) => Thing.ofValues (parameters.map (·.2))
    | none => []
  | .interface r =>
    match w.interfaces.get? r.index with
    | some i => Thing.ofValues i.functions.values
    | none => []

/-- All objects. -/
def things (w : World) : List Thing :=
  (List.range w.frames.size).map (fun i => .frame ⟨i⟩) ++
    (List.range w.maps.size).map (fun i => .map ⟨i⟩) ++
    (List.range w.lists.size).map (fun i => .list ⟨i⟩) ++
    (List.range w.functions.size).map .function ++
    (List.range w.interfaces.size).map (fun i => .interface ⟨i⟩)

/-- The objects that refer to one of the given ones. -/
def referrers (w : World) (targets : List Thing) : List Thing :=
  w.things.filter fun t => (w.references t).any targets.contains

/-- Whether one of the given objects is kept, when the given ones are in use. A chain of as many
references as there are objects runs in a circle. -/
def keeps (w : World) (inUse : List Thing) : Nat → List Thing → Bool
  | 0, targets => !targets.isEmpty
  | n + 1, targets =>
    targets.any inUse.contains || (!targets.isEmpty && w.keeps inUse n (w.referrers targets))

/-- The objects that the configuration of the session has in use. -/
def configured (w : World) : List Thing :=
  .frame w.configuration.api :: .frame w.configuration.global ::
    Thing.ofValues (w.configuration.table.map (·.2))

/-- The frame in which a statement was begun last, if it is still kept while the given objects are
in use. -/
def lastActive? (w : World) (inUse : List Thing) : Option FrameRef :=
  match w.process.lastActive with
  | none => none
  | some r =>
    if w.keeps (inUse ++ w.configured) w.things.length [.frame r] then some r else none

end World

end LineScript
