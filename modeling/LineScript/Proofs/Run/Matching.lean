import LineScript.Proofs.Operation.Tame
import LineScript.Proofs.World.Calm

/-!
# Steps that match

A step of a run and a step of a structured run match if, from a world and from the same world
without notes of control flow, they give the same, stop for the same reason, and lead again to
worlds that are the same but for such notes. Steps that take no note of control flow match
themselves.
-/

namespace LineScript

namespace World

/-- Frames bear the notes they had before. Only where their statements begin may have changed, and
one frame is passed over if it is given. -/
def KeptBut (passed : Option FrameRef) (w w' : World) : Prop :=
  ∀ r f, passed ≠ some r → w.frame? r = some f →
    ∃ position, w'.frame? r = some { f with position := position }

/-- All frames bear the notes they had before. -/
abbrev Kept (w w' : World) : Prop := KeptBut none w w'

namespace KeptBut

variable {passed : Option FrameRef} {w w' w'' : World}

theorem of_eq (h : ∀ r f, w.frame? r = some f → w'.frame? r = some f) : KeptBut passed w w' :=
  fun r f _ hf => ⟨f.position, h r f hf⟩

theorem refl (w : World) : KeptBut passed w w := of_eq fun _ _ hf => hf

theorem trans (h : KeptBut passed w w') (h' : KeptBut passed w' w'') : KeptBut passed w w'' := by
  intro r f hr hf
  obtain ⟨p, hp⟩ := h r f hr hf
  obtain ⟨q, hq⟩ := h' r _ hr hp
  exact ⟨q, hq⟩

theorem but (h : Kept w w') : KeptBut passed w w' := by
  intro r f _ hf
  exact h r f (by simp) hf

/-- The same note in both worlds. -/
theorem modifyFrame (h : KeptBut passed w w') {g : Frame → Frame}
    (hg : ∀ f p, g { f with position := p } = { g f with position := p }) (r : FrameRef) :
    KeptBut passed (w.modifyFrame r g) (w'.modifyFrame r g) := by
  intro s f hs hf
  rw [frame?_modifyFrame] at hf ⊢
  by_cases hrs : r = s
  · rw [if_pos hrs] at hf ⊢
    obtain ⟨f₀, hf₀, rfl⟩ := Option.map_eq_some_iff.1 hf
    obtain ⟨p, hp⟩ := h s f₀ hs hf₀
    exact ⟨p, by rw [hp, Option.map_some, hg]⟩
  · rw [if_neg hrs] at hf ⊢
    exact h s f hs hf

/-- A note in the frame that is passed over. -/
theorem passedOver (r : FrameRef) (g : Frame → Frame) :
    KeptBut (some r) w (w.modifyFrame r g) := by
  intro s f hs hf
  have hrs : r ≠ s := fun h => hs (congrArg some h)
  exact ⟨f.position, by rw [frame?_modifyFrame, if_neg hrs, hf]⟩

end KeptBut

theorem Kept.isSome {w w' : World} (h : Kept w w') {r : FrameRef}
    (hr : (w.frame? r).isSome = true) : (w'.frame? r).isSome = true := by
  obtain ⟨f, hf⟩ := Option.isSome_iff_exists.1 hr
  obtain ⟨p, hp⟩ := h r f (by simp) hf
  rw [hp, Option.isSome_some]

theorem kept_rootFrame (w : World) (target : String) : Kept w (w.rootFrame target).2 := by
  apply KeptBut.of_eq
  intro r f hf
  have hlt := Heap.lt_size_of_get? hf
  change (Heap.push _ _).get? r.index = some f
  rw [Heap.get?_push, if_neg (Nat.ne_of_lt hlt)]
  exact hf

theorem kept_fork (w : World) (parent : FrameRef) (kind : FrameKind) (isTemporary : Bool)
    (target : Option String) (isInjected : Option Bool) :
    Kept w (w.fork parent kind isTemporary target isInjected).2 := by
  unfold fork
  cases w.frame? parent with
  | none => exact .refl w
  | some p =>
    apply KeptBut.of_eq
    intro r f hf
    have hlt := Heap.lt_size_of_get? hf
    change (Heap.push _ _).get? r.index = some f
    rw [Heap.get?_push, if_neg (Nat.ne_of_lt hlt)]
    exact hf

theorem fork_same (w : World) (parent : FrameRef) (kind : FrameKind) (isTemporary : Bool)
    (target : Option String) (isInjected : Option Bool) :
    (w.fork parent kind isTemporary target isInjected).2.process = w.process ∧
      (w.fork parent kind isTemporary target isInjected).2.functions = w.functions := by
  unfold fork
  cases w.frame? parent <;> exact ⟨rfl, rfl⟩

/-- The run was not asked to end, whether one is under way is known, and all closures run tame code
behind frames that were made. -/
structure Steady (pending : Bool) (w : World) : Prop where
  goes : w.process.isExit = false
  isPending : w.process.isPending = pending
  closures : ∀ i d r, w.functions.get? i = some (.closure d r) →
    (Operation.function d).Tame ∧ (w.frame? r).isSome = true

theorem Steady.mono {pending : Bool} {w w' : World} (h : w.Steady pending)
    (hexit : w'.process.isExit = w.process.isExit)
    (hpending : w'.process.isPending = w.process.isPending)
    (hfunctions : w'.functions = w.functions)
    (hframes : ∀ r, (w.frame? r).isSome = true → (w'.frame? r).isSome = true) :
    w'.Steady pending where
  goes := hexit.trans h.goes
  isPending := hpending.trans h.isPending
  closures i d r hi := by
    rw [hfunctions] at hi
    obtain ⟨hd, hr⟩ := h.closures i d r hi
    exact ⟨hd, hframes r hr⟩

theorem Steady.modifyFrame {pending : Bool} {w : World} (h : w.Steady pending) (r : FrameRef)
    (g : Frame → Frame) : (w.modifyFrame r g).Steady pending := by
  refine h.mono rfl rfl rfl fun s hs => ?_
  rw [frame?_modifyFrame]
  split
  · rwa [Option.isSome_map]
  · exact hs

theorem Steady.fork {pending : Bool} {w : World} (h : w.Steady pending) (parent : FrameRef)
    (kind : FrameKind) (isTemporary : Bool) (target : Option String) (isInjected : Option Bool) :
    (w.fork parent kind isTemporary target isInjected).2.Steady pending := by
  obtain ⟨hprocess, hfunctions⟩ := w.fork_same parent kind isTemporary target isInjected
  exact h.mono (by rw [hprocess]) (by rw [hprocess]) hfunctions
    fun _ => (w.kept_fork parent kind isTemporary target isInjected).isSome

end World

namespace Run

variable {α β γ δ : Type} {pending : Bool}

/-- What two steps came to matches: results for which `V` holds, or the same reason to stop. Nothing
is said of a step behind which the structured run was interfered with. -/
inductive Matches (V : α → β → World → Prop) :
    EStateM.Result Stop World α → EStateM.Result Halt World β → Prop where
  | result {a : α} {b : β} {w : World} (h : V a b w) : Matches V (.ok a w) (.ok b w.calm)
  | fault (f : Fault) (w : World) : Matches V (.error (.fault f) w) (.error (.fault f) w.calm)
  | exhausted (w : World) : Matches V (.error .exhausted w) (.error .exhausted w.calm)
  | interference (x : EStateM.Result Stop World α) (s : World) :
      Matches V x (.error .interference s)

/-- A step and what follows it, in runs and in structured runs. -/
theorem bind_apply {ε : Type} (x : EStateM ε World α) (k : α → EStateM ε World β) (w : World) :
    (x >>= k) w = match x w with
      | .ok a w' => k a w'
      | .error e w' => .error e w' := by
  change EStateM.bind x k w = _
  unfold EStateM.bind
  cases x w <;> rfl

theorem get_bind_apply {ε : Type} (k : World → EStateM ε World β) (w : World) :
    (MonadState.get >>= k) w = k w w := rfl

namespace Matches

variable {V U : α → β → World → Prop}

theorem mono {x : EStateM.Result Stop World α} {y : EStateM.Result Halt World β}
    (h : Matches V x y) (hVU : ∀ a b w, V a b w → U a b w) : Matches U x y := by
  cases h with
  | result h => exact .result (hVU _ _ _ h)
  | fault f w => exact .fault f w
  | exhausted w => exact .exhausted w
  | interference x s => exact .interference x s

theorem and {P : World → Prop} {x : EStateM.Result Stop World α} {y : EStateM.Result Halt World β}
    (h : Matches V x y) (hP : ∀ a w, x = .ok a w → P w) :
    Matches (fun a b w => V a b w ∧ P w) x y := by
  cases h with
  | result h => exact .result ⟨h, hP _ _ rfl⟩
  | fault f w => exact .fault f w
  | exhausted w => exact .exhausted w
  | interference x s => exact .interference x s

theorem bind {x : Run α} {y : Structured β} {k : α → Run γ} {l : β → Structured δ}
    {W : γ → δ → World → Prop} {w s : World} (h : Matches V (x w) (y s))
    (hk : ∀ a b w', V a b w' → Matches W (k a w') (l b w'.calm)) :
    Matches W ((x >>= k) w) ((y >>= l) s) := by
  rw [bind_apply, bind_apply]
  generalize x w = u, y s = v at h
  cases h with
  | result h => exact hk _ _ _ h
  | fault f w => exact .fault f w
  | exhausted w => exact .exhausted w
  | interference x s => exact .interference _ s

/-- The fault of a statement gets its line in both runs. -/
theorem atLine {x : Run α} {y : Structured β} {w s : World} (line : Nat)
    (h : Matches V (x w) (y s)) : Matches V (Run.atLine line x w) (Structured.atLine line y s) := by
  unfold Run.atLine Structured.atLine
  generalize x w = u, y s = v at h
  cases h with
  | result h => exact .result h
  | fault f w => exact .fault (f.orLine line) w
  | exhausted w => exact .exhausted w
  | interference x s => exact .interference _ s

/-- A result that is put aside. -/
theorem andThen {V : β → World → Prop} {x : Run α} {y : Structured β} {w s : World}
    (h : Matches (fun _ => V) (x w) (y s)) (c : γ) :
    Matches (fun _ => V) ((x >>= fun _ => pure c) w) (y s) := by
  rw [bind_apply]
  generalize x w = u, y s = v at h
  cases h with
  | result h => exact .result h
  | fault f w => exact .fault f w
  | exhausted w => exact .exhausted w
  | interference x s => exact .interference _ s

end Matches

/-- Both steps gave the same, all closures are still tame, and all frames bear the notes they bore.
-/
def Gives (pending : Bool) (w : World) (a b : α) (w' : World) : Prop :=
  a = b ∧ w'.Steady pending ∧ w.Kept w'

/-- Two steps of a frame match wherever the frame was made. -/
def Same (pending : Bool) (r : FrameRef) (x : Run α) (y : Structured α) : Prop :=
  ∀ w : World, w.Steady pending → (w.frame? r).isSome = true →
    Matches (Gives pending w) (x w) (y w.calm)

/-- A step takes no note of control flow and goes by none. -/
def Quiet (pending : Bool) (x : Run α) : Prop :=
  ∀ w : World, w.Steady pending → Matches (Gives pending w) (x w) (Structured.step x w.calm)

theorem Gives.after {a b : α} {w w' w'' : World} (h : w.Kept w') (h' : Gives pending w' a b w'') :
    Gives pending w a b w'' :=
  ⟨h'.1, h'.2.1, h.trans h'.2.2⟩

namespace Same

variable {r : FrameRef}

theorem pure (a : α) : Same pending r (pure a) (pure a) := fun w hw _ => .result ⟨rfl, hw, .refl w⟩

theorem fail (kind : FaultKind) : Same pending r (fail kind : Run α) (Structured.fail kind) :=
  fun w _ _ => .fault _ w

theorem exhausted : Same pending r (exhausted : Run α) Structured.exhausted :=
  fun w _ _ => .exhausted w

theorem bind {x : Run α} {y : Structured α} {k : α → Run β} {l : α → Structured β}
    (hx : Same pending r x y) (hk : ∀ a, Same pending r (k a) (l a)) :
    Same pending r (x >>= k) (y >>= l) := by
  intro w hw hr
  refine (hx w hw hr).bind ?_
  rintro a _ w' ⟨rfl, hw', hkept⟩
  exact (hk a w' hw' (hkept.isSome hr)).mono fun _ _ _ h => h.after hkept

/-- A look at the world. -/
theorem get {k : World → Run β} {l : World → Structured β}
    (h : ∀ w : World, Same pending r (k w) (l w.calm)) :
    Same pending r (MonadState.get >>= k) (MonadState.get >>= l) :=
  fun w hw hr => h w w hw hr

theorem discard {x : Run α} {y : Structured α} (h : Same pending r x y) :
    Same pending r (discard x) (discard y) :=
  h.bind fun _ => pure PUnit.unit

end Same

theorem step_bind (x : Run α) (k : α → Run β) :
    Structured.step (x >>= k) = Structured.step x >>= fun a => Structured.step (k a) := by
  funext w
  rw [bind_apply, Structured.step, Structured.step, bind_apply]
  cases x w with
  | ok a w' => rfl
  | error e w' => cases e <;> rfl

theorem step_attempt (x : Run α) (w : World) :
    Structured.step (attempt x) w = match Structured.step x w with
      | .ok a w' => .ok (.ok a) w'
      | .error (.fault f) w' => .ok (.error f) w'
      | .error e w' => .error e w' := by
  unfold Structured.step attempt
  cases x w with
  | ok a w' => rfl
  | error e w' => cases e <;> rfl

namespace Quiet

theorem same {x : Run α} (h : Quiet pending x) (r : FrameRef) :
    Same pending r x (Structured.step x) :=
  fun w hw _ => h w hw

theorem pure (a : α) : Quiet pending (pure a) := fun w hw => .result ⟨rfl, hw, .refl w⟩

theorem fail (kind : FaultKind) : Quiet pending (fail kind : Run α) := fun w _ => .fault _ w

theorem exhausted : Quiet pending (exhausted : Run α) := fun w _ => .exhausted w

theorem bind {x : Run α} {k : α → Run β} (hx : Quiet pending x) (hk : ∀ a, Quiet pending (k a)) :
    Quiet pending (x >>= k) := by
  intro w hw
  rw [step_bind]
  refine (hx w hw).bind ?_
  rintro a _ w' ⟨rfl, hw', hkept⟩
  exact (hk a w' hw').mono fun _ _ _ h => h.after hkept

theorem map {x : Run α} (hx : Quiet pending x) (f : α → β) : Quiet pending (f <$> x) :=
  hx.bind fun a => pure (f a)

/-- A look at the world that does not see notes of control flow. -/
theorem getAt {k : World → Run β} {w : World} (hcalm : k w.calm = k w)
    (hk : Matches (Gives pending w) (k w w) (Structured.step (k w) w.calm)) :
    Matches (Gives pending w) ((MonadState.get >>= k) w)
      (Structured.step (MonadState.get >>= k) w.calm) := by
  change Matches (Gives pending w) (k w w) (Structured.step (k w.calm) w.calm)
  rw [hcalm]
  exact hk

theorem get {k : World → Run β} (hcalm : ∀ w : World, k w.calm = k w)
    (hk : ∀ w, Quiet pending (k w)) : Quiet pending (MonadState.get >>= k) :=
  fun w hw => getAt (hcalm w) (hk w w hw)

/-- A change to the world that commutes with wiping out notes of control flow. -/
theorem change {g : World → α × World} (hcalm : ∀ w : World, g w.calm = ((g w).1, (g w).2.calm))
    (hexit : ∀ w, (g w).2.process.isExit = w.process.isExit)
    (hpending : ∀ w, (g w).2.process.isPending = w.process.isPending)
    (hfunctions : ∀ w, (g w).2.functions = w.functions) (hkept : ∀ w : World, w.Kept (g w).2) :
    Quiet pending (produce g) := by
  intro w hw
  have hsteady : (g w).2.Steady pending :=
    hw.mono (hexit w) (hpending w) (hfunctions w) fun _ => (hkept w).isSome
  change Matches (Gives pending w) (.ok (g w).1 (g w).2) (.ok (g w.calm).1 (g w.calm).2)
  rw [hcalm]
  exact .result ⟨rfl, hsteady, hkept w⟩

theorem frameless {g : World → α × World} (hg : World.Frameless g) :
    Quiet pending (produce g) := by
  have hframes : ∀ w, (g w).2.frames = w.frames := by
    intro w
    have h := congrArg (·.2.frames) (hg.blind w w.frames)
    exact h
  refine change (fun w => ?_) (fun w => by rw [hg.process]) (fun w => by rw [hg.process])
    hg.functions fun w => ?_
  · rw [hg.blind, World.calm, hframes]
  · exact .of_eq fun r f hf => by rw [World.frame?, hframes]; exact hf

theorem aloof {g : World → α × World} (hg : World.Aloof g) : Quiet pending (produce g) :=
  frameless hg.frameless

/-- A change to what has nothing to do with frames, functions or the state of the run. -/
theorem modify {g : World → World}
    (hg : ∀ w h, g (w.withFrames h) = (g w).withFrames h)
    (hprocess : ∀ w, (g w).process = w.process) (hfunctions : ∀ w, (g w).functions = w.functions) :
    Quiet pending (modify g) :=
  frameless (g := fun w => ((), g w)) ⟨fun w h => by rw [hg], hprocess, hfunctions⟩

/-- A reading of the world that does not see notes of control flow. -/
theorem read {f : World → Except Fault α} (hf : ∀ w : World, f w.calm = f w) :
    Quiet pending (read f) := by
  intro w hw
  unfold Structured.step Run.read
  rw [hf]
  cases f w with
  | ok a => exact .result ⟨rfl, hw, .refl w⟩
  | error e => exact .fault e w

/-- The attempt of a step that changes nothing if it fails. -/
theorem attempt {x : Run α} (hx : Quiet pending x)
    (hfault : ∀ w f w', x w = .error (.fault f) w' → w' = w) : Quiet pending (attempt x) := by
  intro w hw
  have h := hx w hw
  rw [step_attempt, Run.attempt]
  generalize hx : x w = u, Structured.step x w.calm = v at h
  cases h with
  | result h => exact .result ⟨congrArg Except.ok h.1, h.2⟩
  | fault f w' =>
    obtain rfl := hfault w f w' hx
    exact .result ⟨rfl, hw, .refl _⟩
  | exhausted w' => exact .exhausted w'
  | interference x s => exact .interference _ s

end Quiet

end Run

end LineScript
