import LineScript.Proofs.World.Backdrop

/-!
# Worlds without notes of control flow

A world is calm if no frame in it bears a note of control flow: no loop is broken off or goes on,
and no call has returned. What is read from a world and what is done to it, polls of such notes
apart, is the same before and after they are wiped out.
-/

namespace LineScript

namespace World

/-- A world with other frames. -/
def withFrames (w : World) (h : Heap Frame) : World := { w with frames := h }

theorem withFrames_eq (w : World) (h : Heap Frame) :
    w.withFrames h = w.against { w.backdrop with frames := h } := by
  have hfunctions := w.recapture_id
  unfold withFrames against backdrop
  dsimp only
  rw [hfunctions]

section Reading

variable (w : World) (h : Heap Frame)

@[simp] theorem display_withFrames : (w.withFrames h).display = w.display := by
  rw [withFrames_eq, display_against]

@[simp] theorem typeName_withFrames (v : Value) : (w.withFrames h).typeName v = w.typeName v := by
  rw [withFrames_eq, typeName_against]

@[simp] theorem truthy_withFrames (v : Value) : (w.withFrames h).truthy v = w.truthy v := by
  rw [withFrames_eq, truthy_against]

@[simp] theorem count?_withFrames (v : Value) : (w.withFrames h).count? v = w.count? v := by
  rw [withFrames_eq, count?_against]

@[simp] theorem equal_withFrames (u v : Value) : (w.withFrames h).equal u v = w.equal u v := by
  rw [withFrames_eq, equal_against]

@[simp] theorem lookup?_withFrames (v : Value) (path : Path) :
    (w.withFrames h).lookup? v path = w.lookup? v path := by
  rw [withFrames_eq, lookup?_against]

@[simp] theorem get_withFrames (v : Value) (path : Path) :
    (w.withFrames h).get v path = w.get v path := by
  rw [withFrames_eq, get_against]

@[simp] theorem slot_withFrames (v : Value) (path : Path) :
    (w.withFrames h).slot v path = w.slot v path := by
  rw [withFrames_eq, slot_against]

@[simp] theorem items_withFrames (v : Value) : (w.withFrames h).items v = w.items v := by
  rw [withFrames_eq, items_against]

end Reading

/-- A change to a world that has nothing to do with frames, functions or the state of the run. -/
structure Frameless {α : Type} (g : World → α × World) : Prop where
  blind : ∀ w h, g (w.withFrames h) = ((g w).1, (g w).2.withFrames h)
  process : ∀ w, (g w).2.process = w.process
  functions : ∀ w, (g w).2.functions = w.functions

theorem Aloof.frameless {α : Type} {g : World → α × World} (hg : Aloof g) : Frameless g where
  blind w h := by
    rw [withFrames_eq, hg.blind, withFrames_eq, hg.backdrop]
  process w := congrArg Backdrop.process (hg.backdrop w)
  functions := hg.functions

end World

/-- A frame without notes of control flow. -/
def Frame.calm (f : Frame) : Frame :=
  { f with isBroken := false, isContinued := false, isReturned := false, result := .nil }

namespace World

/-- A world without notes of control flow. -/
abbrev calm (w : World) : World := w.withFrames (w.frames.map Frame.calm)

variable (w : World)

@[simp] theorem frame?_calm (r : FrameRef) : w.calm.frame? r = (w.frame? r).map Frame.calm :=
  Heap.get?_map _ _ _

/-- What calms down to the same as before. -/
theorem calm_modifyFrame {g : Frame → Frame} (hg : ∀ f, (g f).calm = f.calm) (r : FrameRef) :
    (w.modifyFrame r g).calm = w.calm := by
  have hframes : (w.frames.modify r.index g).map Frame.calm =
      (w.frames.map Frame.calm).modify r.index fun c => c := Heap.map_modify hg _ _
  exact congrArg w.withFrames (hframes.trans (Heap.modify_id _ _))

theorem modifyFrame_calm {g : Frame → Frame} (hg : ∀ f, (g f).calm = g f.calm) (r : FrameRef) :
    w.calm.modifyFrame r g = (w.modifyFrame r g).calm :=
  congrArg w.withFrames (Heap.map_modify hg w.frames r.index).symm

theorem rootFrame_calm (target : String) :
    w.calm.rootFrame target = ((w.rootFrame target).1, (w.rootFrame target).2.calm) := by
  simp only [rootFrame, calm, withFrames, Heap.size_map, Heap.map_push]
  rfl

theorem fork_calm (parent : FrameRef) (kind : FrameKind) (isTemporary : Bool)
    (target : Option String) (isInjected : Option Bool) :
    w.calm.fork parent kind isTemporary target isInjected =
      ((w.fork parent kind isTemporary target isInjected).1,
        (w.fork parent kind isTemporary target isInjected).2.calm) := by
  simp only [fork, frame?_calm]
  cases w.frame? parent with
  | none => rfl
  | some p =>
    simp only [Option.map_some, calm, withFrames, Heap.size_map, Heap.map_push]
    rfl

@[simp] theorem findInFrame_calm (f : Frame) (path : Path) :
    w.calm.findInFrame f.calm path = w.findInFrame f path := by
  have hapi : f.calm.api.bind w.calm.frame? = (f.api.bind w.frame?).map Frame.calm := by
    change f.api.bind w.calm.frame? = _
    cases f.api with
    | none => rfl
    | some a => exact frame?_calm w a
  simp only [findInFrame, hapi, lookup?_withFrames, get_withFrames]
  cases f.api.bind w.frame? <;> rfl

@[simp] theorem getFrom_calm (n : Nat) (r : FrameRef) (path : Path) :
    w.calm.getFrom n r path = w.getFrom n r path := by
  induction n generalizing r path with
  | zero => rfl
  | succ n ih =>
    simp only [getFrom, frame?_calm]
    cases w.frame? r with
    | none => rfl
    | some f =>
      simp only [Option.map_some, ih, show f.calm.locals = f.locals from rfl]
      cases w.frame? (f.locals.getD r) with
      | none => rfl
      | some l =>
        simp only [Option.map_some, findInFrame_calm]
        rfl

@[simp] theorem slotFrom_calm (n : Nat) (r : FrameRef) (path : Path) :
    w.calm.slotFrom n r path = w.slotFrom n r path := by
  induction n generalizing r path with
  | zero => rfl
  | succ n ih =>
    simp only [slotFrom, frame?_calm]
    cases w.frame? r with
    | none => rfl
    | some f =>
      simp only [Option.map_some, ih, show f.calm.locals = f.locals from rfl, slot_withFrames]
      cases w.frame? (f.locals.getD r) <;> rfl

theorem location_calm (r : FrameRef) : w.calm.location r = w.location r := by
  simp only [location, frame?_calm]
  cases w.frame? r <;> rfl

end World

end LineScript
