import LineScript.Proofs.Run.Quiet

/-!
# Notes of control flow

Code runs at a place: in the frame of a loop, of a call or in the global frame, and as part of a
call or of none. How a statement ends is noted in the frame of its loop or of its call, and nowhere
else. A block that looks there finds out whether the statement ended normally, and so does a loop.
-/

namespace LineScript

/-- Where code runs: its frame, whether that is the frame of a loop, and the frame of the call that
it belongs to. -/
structure Place where
  frame : FrameRef
  inLoop : Bool
  call : Option FrameRef

namespace Place

/-- What encloses code at a place. -/
def around (p : Place) : Surroundings := ⟨p.inLoop, p.call.isSome⟩

/-- The kind of the frame of a place. -/
def kind (p : Place) : FrameKind :=
  if p.inLoop then .loop else if p.call.isSome then .function else .global

/-- The body of a loop at a place, in a frame of its own. -/
def loop (p : Place) (frame : FrameRef) : Place := ⟨frame, true, p.call⟩

/-- What encloses a loop, given the place of its body, is at least this. -/
def outer (p : Place) : Place := { p with inLoop := false }

end Place

namespace Outcome

/-- Whether a loop is broken off. -/
def isBroken : Outcome → Bool
  | broken => true
  | _ => false

/-- Whether a loop goes on with its next round. -/
def isContinued : Outcome → Bool
  | continued => true
  | _ => false

/-- Whether a call returns. -/
def isReturned : Outcome → Bool
  | returned _ => true
  | _ => false

/-- What a call gives whose body ends so. -/
def value : Outcome → Value
  | returned v => v
  | _ => .nil

/-- Code can only end so if it has the loop or the call around it that it leaves. -/
def Fits (around : Surroundings) : Outcome → Prop
  | normal => True
  | broken | continued => around.inLoop = true
  | returned _ => around.inCall = true

end Outcome

namespace World

/-- A world in which it is noted how code at a place ended. -/
def noted (w : World) (p : Place) : Outcome → World
  | .normal => w
  | .broken => w.modifyFrame p.frame fun f => { f with isBroken := true }
  | .continued => w.modifyFrame p.frame fun f => { f with isContinued := true }
  | .returned v =>
    match p.call with
    | some c => w.modifyFrame c fun f => { f with isReturned := true, result := v }
    | none => w

/-- The frames of a place bear the notes of how code there ended, and no others. -/
structure Bears (w : World) (p : Place) (o : Outcome) : Prop where
  frame : ∃ f, w.frame? p.frame = some f ∧ f.kind = p.kind ∧
    f.loop = (if p.inLoop then some p.frame else none) ∧ f.call = p.call ∧
      (p.inLoop = true → f.isBroken = o.isBroken ∧ f.isContinued = o.isContinued)
  call : ∀ c, p.call = some c →
    ∃ f, w.frame? c = some f ∧ f.isReturned = o.isReturned ∧ f.result = o.value

/-- The frames of a place bear no notes. -/
abbrev Stands (w : World) (p : Place) : Prop := w.Bears p .normal

variable {w w' : World} {p : Place} {o : Outcome} {passed : Option FrameRef}

/-- How code ended is noted in one frame at most, and changes nothing there but notes. -/
theorem noted_cases (p : Place) (o : Outcome) :
    (∀ w : World, w.noted p o = w) ∨
      ∃ (r : FrameRef) (g : Frame → Frame), (∀ w : World, w.noted p o = w.modifyFrame r g) ∧
        (∀ f, (g f).calm = f.calm) ∧
          ∀ f position, g { f with position := position } = { g f with position := position } := by
  cases o with
  | normal => exact .inl fun _ => rfl
  | broken => exact .inr ⟨p.frame, _, fun _ => rfl, fun _ => rfl, fun _ _ => rfl⟩
  | continued => exact .inr ⟨p.frame, _, fun _ => rfl, fun _ => rfl, fun _ _ => rfl⟩
  | returned v =>
    simp only [noted]
    cases p.call with
    | none => exact .inl fun _ => rfl
    | some c => exact .inr ⟨c, _, fun _ => rfl, fun _ => rfl, fun _ _ => rfl⟩

theorem calm_noted (w : World) (p : Place) (o : Outcome) : (w.noted p o).calm = w.calm := by
  obtain hsame | ⟨r, g, hg, hcalm, _⟩ := noted_cases p o
  · rw [hsame]
  · rw [hg, calm_modifyFrame w hcalm]

theorem KeptBut.noted (h : KeptBut passed w w') (p : Place) (o : Outcome) :
    KeptBut passed (w.noted p o) (w'.noted p o) := by
  obtain hsame | ⟨r, g, hg, _, hposition⟩ := noted_cases p o
  · rwa [hsame, hsame]
  · rw [hg, hg]
    exact h.modifyFrame hposition r

theorem Steady.noted {pending : Bool} (h : w.Steady pending) (p : Place) (o : Outcome) :
    (w.noted p o).Steady pending := by
  obtain hsame | ⟨r, g, hg, _⟩ := noted_cases p o
  · rwa [hsame]
  · rw [hg]
    exact h.modifyFrame r g

theorem Bears.kept (h : w.Bears p o) (hkept : w.Kept w') : w'.Bears p o where
  frame := by
    obtain ⟨f, hf, hrest⟩ := h.frame
    obtain ⟨position, hf'⟩ := hkept p.frame f (by simp) hf
    exact ⟨_, hf', hrest⟩
  call c hc := by
    obtain ⟨f, hf, hrest⟩ := h.call c hc
    obtain ⟨position, hf'⟩ := hkept c f (by simp) hf
    exact ⟨_, hf', hrest⟩

theorem Bears.made (h : w.Bears p o) : (w.frame? p.frame).isSome = true := by
  obtain ⟨f, hf, _⟩ := h.frame
  rw [hf, Option.isSome_some]

theorem Bears.loop_eq (h : w.Bears p o) :
    (w.frame? p.frame).bind (·.loop) = if p.inLoop then some p.frame else none := by
  obtain ⟨f, hf, _, hloop, _⟩ := h.frame
  rw [hf, Option.bind_some, hloop]

theorem Bears.call_eq (h : w.Bears p o) : (w.frame? p.frame).bind (·.call) = p.call := by
  obtain ⟨f, hf, _, _, hcall, _⟩ := h.frame
  rw [hf, Option.bind_some, hcall]

theorem frame?_modifyFrame_some {r s : FrameRef} {f : Frame} (hf : w.frame? s = some f)
    (g : Frame → Frame) : (w.modifyFrame r g).frame? s = some (if r = s then g f else f) := by
  rw [frame?_modifyFrame, hf]
  split <;> rfl

/-- What is noted of code is then noted. -/
theorem Stands.noted (h : w.Stands p) (hfits : o.Fits p.around) : (w.noted p o).Bears p o := by
  obtain ⟨f, hf, hkind, hloop, hcall, hclear⟩ := h.frame
  cases o with
  | normal => exact h
  | broken =>
    refine ⟨⟨_, frame?_modifyFrame_some hf _, ?_⟩, fun c hc => ?_⟩
    · rw [if_pos rfl]
      exact ⟨hkind, hloop, hcall, fun hin => ⟨rfl, (hclear hin).2⟩⟩
    · obtain ⟨e, he, hrest⟩ := h.call c hc
      refine ⟨_, frame?_modifyFrame_some he _, ?_⟩
      split <;> exact hrest
  | continued =>
    refine ⟨⟨_, frame?_modifyFrame_some hf _, ?_⟩, fun c hc => ?_⟩
    · rw [if_pos rfl]
      exact ⟨hkind, hloop, hcall, fun hin => ⟨(hclear hin).1, rfl⟩⟩
    · obtain ⟨e, he, hrest⟩ := h.call c hc
      refine ⟨_, frame?_modifyFrame_some he _, ?_⟩
      split <;> exact hrest
  | returned v =>
    obtain ⟨c, hc⟩ := Option.isSome_iff_exists.1 (show p.call.isSome = true from hfits)
    simp only [World.noted, hc]
    refine ⟨⟨_, frame?_modifyFrame_some hf _, ?_⟩, fun d hd => ?_⟩
    · split <;> exact ⟨hkind, hloop, hcall, hclear⟩
    · obtain rfl := Option.some.inj (hc.symm.trans hd)
      obtain ⟨e, he, _⟩ := h.call c hc
      refine ⟨_, frame?_modifyFrame_some he _, ?_⟩
      rw [if_pos rfl]
      exact ⟨rfl, rfl⟩

/-- Whether the call of a place has returned can be seen in its frame. -/
theorem Bears.returned (h : w.Bears p o) (hfits : o.Fits p.around) :
    (p.call.bind w.frame?).any (·.isReturned) = o.isReturned := by
  cases hc : p.call with
  | some c =>
    obtain ⟨f, hf, hreturned, _⟩ := h.call c hc
    rw [Option.bind_some, hf, Option.any_some, hreturned]
  | none =>
    cases o with
    | returned v => exact absurd hfits (by simp [Outcome.Fits, Place.around, hc])
    | _ => rfl

/-- A block stops exactly if the statement in front did not end normally. -/
theorem Bears.isInterrupted (h : w.Bears p o) (hexit : w.process.isExit = false)
    (hfits : o.Fits p.around) :
    w.isInterrupted p.frame = (o.isBroken || o.isContinued || o.isReturned) := by
  obtain ⟨f, hf, hkind, hloop, hcall, hnotes⟩ := h.frame
  have hreturned := h.returned hfits
  simp only [World.isInterrupted, hf, hexit, Bool.false_or, hkind, hloop, hcall, hreturned,
    Place.kind]
  cases hin : p.inLoop with
  | true =>
    obtain ⟨hbroken, hcontinued⟩ := hnotes hin
    simp [hf, hbroken, hcontinued]
  | false =>
    -- Without a loop around it, code can only end normally or return.
    have hnone : o.isBroken = false ∧ o.isContinued = false := by
      cases o <;> simp_all [Outcome.Fits, Place.around, Outcome.isBroken, Outcome.isContinued]
    rw [hnone.1, hnone.2]
    cases hc : p.call with
    | some c => simp
    | none =>
      rw [hc] at hreturned
      simpa using hreturned

/-- A loop is left exactly if its body broke it off or returned. -/
theorem Bears.leavesLoop (h : w.Bears p o) (hexit : w.process.isExit = false)
    (hin : p.inLoop = true) (hfits : o.Fits p.around) :
    w.leavesLoop p.frame = (o.isBroken || o.isReturned) := by
  obtain ⟨f, hf, _, hloop, hcall, hnotes⟩ := h.frame
  simp only [World.leavesLoop, hf, hloop, hin, if_true, Option.bind_some, Option.any_some, hcall,
    h.returned hfits, (hnotes hin).1, hexit, Bool.or_false]

/-- A loop that goes on into its next round bears no notes then. -/
theorem Bears.beginRound (h : w.Bears p o) (hgoes : (o.isBroken || o.isReturned) = false) :
    (w.beginRound p.frame).Stands p := by
  obtain ⟨hbroken, hreturned⟩ := Bool.or_eq_false_iff.1 hgoes
  obtain ⟨f, hf, hkind, hloop, hcall, hnotes⟩ := h.frame
  refine ⟨⟨_, frame?_modifyFrame_some hf _, ?_⟩, fun c hc => ?_⟩
  · rw [if_pos rfl]
    exact ⟨hkind, hloop, hcall, fun hin => ⟨(hnotes hin).1.trans hbroken, rfl⟩⟩
  · obtain ⟨e, he, hr, hv⟩ := h.call c hc
    have hvalue : o.value = Outcome.normal.value := by
      cases o with
      | returned v => cases hreturned
      | _ => rfl
    refine ⟨_, frame?_modifyFrame_some he _, ?_⟩
    split <;> exact ⟨hr.trans hreturned, hv.trans hvalue⟩

/-- A new frame was not there before, and bears no notes. -/
theorem fork_fresh {parent : FrameRef} {before : Frame} (h : w.frame? parent = some before)
    (kind : FrameKind) (isTemporary : Bool) (target : Option String) (isInjected : Option Bool) :
    w.frame? (w.fork parent kind isTemporary target isInjected).1 = none ∧
      ∃ f, (w.fork parent kind isTemporary target isInjected).2.frame?
          (w.fork parent kind isTemporary target isInjected).1 = some f ∧ f.kind = kind ∧
        f.loop = (if kind == .function then none else if kind == .loop then
          some (w.fork parent kind isTemporary target isInjected).1 else before.loop) ∧
        f.call = (if kind == .function then
          some (w.fork parent kind isTemporary target isInjected).1 else before.call) ∧
        f.isBroken = false ∧ f.isContinued = false ∧ f.isReturned = false ∧ f.result = .nil := by
  simp only [fork, h]
  refine ⟨?_, _, Heap.get?_push_size _ _, rfl, rfl, rfl, rfl, rfl, rfl, rfl⟩
  exact Array.getElem?_eq_none (Nat.le_refl _)

theorem Stands.forkLoop (h : w.Stands p) :
    (w.forkLoop p.frame).2.Stands (p.loop (w.forkLoop p.frame).1) := by
  obtain ⟨before, hbefore, _, _, hcall, _⟩ := h.frame
  obtain ⟨_, f, hf, hkind, hloop', hcall', hbroken, hcontinued, _⟩ :=
    fork_fresh hbefore .loop true none none
  refine ⟨⟨f, hf, hkind, hloop', hcall'.trans hcall, fun _ => ⟨hbroken, hcontinued⟩⟩, ?_⟩
  exact (h.kept (kept_fork _ _ _ _ _ _)).call

theorem stands_call {scope : FrameRef} {before : Frame} (h : w.frame? scope = some before) :
    (w.fork scope .function false none none).2.Stands
      ⟨(w.fork scope .function false none none).1, false,
        some (w.fork scope .function false none none).1⟩ := by
  obtain ⟨_, f, hf, hkind, hloop, hcall, _, _, hreturned, hresult⟩ :=
    fork_fresh h .function false none none
  refine ⟨⟨f, hf, hkind, hloop, hcall, fun hin => by cases hin⟩, fun c hc => ?_⟩
  cases hc
  exact ⟨f, hf, hreturned, hresult⟩

/-- What is noted behind a loop is noted in the call that the loop belongs to. -/
theorem noted_outer {q : Place} (w : World) (hfits : o.Fits q.outer.around)
    (hcall : q.call = p.call) : w.noted q.outer o = w.noted p o := by
  cases o with
  | normal => rfl
  | broken => cases hfits
  | continued => cases hfits
  | returned v =>
    simp only [noted, Place.outer, hcall]

/-- A frame that was not there need not be passed over. -/
theorem KeptBut.kept {r : FrameRef} (h : KeptBut (some r) w w') (hr : w.frame? r = none) :
    w.Kept w' := by
  intro s f _ hf
  refine h s f (fun hrs => ?_) hf
  rw [← Option.some.inj hrs, hr] at hf
  cases hf

/-- What is noted at the place of a call is noted in its own frame. -/
theorem KeptBut.noted_call (w : World) (r : FrameRef) (inLoop : Bool) (o : Outcome) :
    KeptBut (some r) w (w.noted ⟨r, inLoop, some r⟩ o) := by
  cases o with
  | normal => exact .refl w
  | broken => exact .passedOver r _
  | continued => exact .passedOver r _
  | returned v => exact .passedOver r _

theorem frame?_noted_none {r : FrameRef} (h : w.frame? r = none) (p : Place) (o : Outcome) :
    (w.noted p o).frame? r = none := by
  obtain hsame | ⟨s, g, hg, _⟩ := noted_cases p o
  · rwa [hsame]
  · rw [hg, frame?_modifyFrame, h]
    split <;> rfl

end World

namespace Run

variable {α β : Type} {pending : Bool} {p q : Place} {passed : Option FrameRef} {r : FrameRef}
  {I : World → Prop}

/-- Code that ended so at a place left behind the notes of it and, a frame that is passed over
apart, no others. -/
def Left (pending : Bool) (passed : Option FrameRef) (p : Place) (w : World) (o : Outcome)
    (w' : World) : Prop :=
  o.Fits p.around ∧ w'.Steady pending ∧ World.KeptBut passed (w.noted p o) w'

theorem Left.after {w w' w'' : World} {o : Outcome} (h : World.KeptBut passed w w')
    (h' : Left pending passed p w' o w'') : Left pending passed p w o w'' :=
  ⟨h'.1, h'.2.1, (h.noted p o).trans h'.2.2⟩

/-- Two runs of code match in every world for which `I` holds, and leave it the same. -/
def Ends (pending : Bool) (I : World → Prop) (passed : Option FrameRef) (p : Place) (x : Run α)
    (y : Structured Outcome) : Prop :=
  ∀ w : World, w.Steady pending → I w → Matches (fun _ => Left pending passed p w) (x w) (y w.calm)

/-- Two runs of statements at a place match. -/
abbrev Statements (pending : Bool) (p : Place) (x : Run α) (y : Structured Outcome) : Prop :=
  Ends pending (·.Stands p) none p x y

/-- Two runs of the rest of a loop match, in the middle of a round. -/
abbrev Round (pending : Bool) (q : Place) (x : Run α) (y : Structured Outcome) : Prop :=
  Ends pending (·.Stands q) (some q.frame) q.outer x y

/-- Two runs of the rest of a loop match, in front of a round. -/
abbrev Rounds (pending : Bool) (q : Place) (x : Run α) (y : Structured Outcome) : Prop :=
  Ends pending (fun w => (w.beginRound q.frame).Stands q) (some q.frame) q.outer x y

/-- What holds of a world holds on while frames bear the notes they had. -/
structure Lasting (I : World → Prop) (r : FrameRef) : Prop where
  made : ∀ w : World, I w → (w.frame? r).isSome = true
  kept : ∀ w w' : World, w.Kept w' → I w → I w'

namespace Lasting

theorem stands (p : Place) : Lasting (·.Stands p) p.frame :=
  ⟨fun _ h => h.made, fun _ _ hkept h => h.kept hkept⟩

theorem beginRound (q : Place) : Lasting (fun w => (w.beginRound q.frame).Stands q) q.frame where
  made w h := by
    have hmade := h.made
    rwa [World.beginRound, World.frame?_modifyFrame, if_pos rfl, Option.isSome_map] at hmade
  kept w w' hkept h := by
    apply h.kept
    apply hkept.modifyFrame
    exact fun _ _ => rfl

end Lasting

namespace Ends

theorem exhausted : Ends pending I passed p (exhausted : Run α) Structured.exhausted :=
  fun w _ _ => .exhausted w

theorem pure (a : α) : Ends pending I passed p (pure a) (pure .normal) :=
  fun w hw _ => .result ⟨trivial, hw, .refl w⟩

/-- Code behind a step that takes no notes. -/
theorem seq (hI : Lasting I r) {x : Run α} {y : Structured α} {k : α → Run β}
    {l : α → Structured Outcome} (hx : Same pending r x y)
    (hk : ∀ a, Ends pending I passed p (k a) (l a)) :
    Ends pending I passed p (x >>= k) (y >>= l) := by
  intro w hw hi
  refine (hx w hw (hI.made w hi)).bind ?_
  rintro a _ w' ⟨rfl, hw', hkept⟩
  exact (hk a w' hw' (hI.kept w w' hkept hi)).mono fun _ _ _ h => h.after (.but hkept)

/-- A look at the world. -/
theorem get {k : World → Run β} {l : World → Structured Outcome}
    (h : ∀ w : World, Ends pending I passed p (k w) (l w.calm)) :
    Ends pending I passed p (MonadState.get >>= k) (MonadState.get >>= l) :=
  fun w hw hi => h w w hw hi

/-- Code whose result is put aside. -/
theorem andThen {x : Run α} {y : Structured Outcome} (h : Ends pending I passed p x y) (b : β) :
    Ends pending I passed p (x >>= fun _ => Pure.pure b) y :=
  fun w hw hi => (h w hw hi).andThen b

theorem atLine {x : Run α} {y : Structured Outcome} (h : Ends pending I passed p x y) (line : Nat) :
    Ends pending I passed p (atLine line x) (Structured.atLine line y) :=
  fun w hw hi => (h w hw hi).atLine line

end Ends

/-- A value as a statement. -/
theorem statement_of_same {x : Run α} {y : Structured α} (h : Same pending p.frame x y) :
    Statements pending p x (discard y >>= fun _ => pure .normal) := by
  intro w hw hs
  have hsame := h w hw hs.made
  rw [bind_apply, show discard y = y >>= fun _ => pure PUnit.unit from rfl,
    bind_apply]
  generalize x w = u, y w.calm = v at hsame
  cases hsame with
  | result h => exact .result ⟨trivial, h.2⟩
  | fault f w' => exact .fault f w'
  | exhausted w' => exact .exhausted w'
  | interference x s => exact .interference _ s

/-- A statement that only notes how it ends. -/
theorem statement_noted {x : Run α} {a : α} {o : Outcome} (hfits : o.Fits p.around)
    (hx : ∀ w : World, w.Stands p → x w = .ok a (w.noted p o)) :
    Statements pending p x (pure o) := by
  intro w hw hs
  rw [hx w hs, ← w.calm_noted p o]
  exact .result ⟨hfits, hw.noted p o, .refl _⟩

/-- A statement that has no place where it stands. -/
theorem statement_fault {x : Run α} {kind : FaultKind}
    (hx : ∀ w : World, w.Stands p → x w = .error (.fault (.of kind)) w) :
    Statements pending p x (Structured.fail kind) := by
  intro w _ hs
  rw [hx w hs]
  exact .fault _ w

/-- Statements behind a statement, which are run if it ends normally. -/
theorem statements_next {x : Run α} {y : Structured Outcome} {k : Run Unit}
    {l : Structured Outcome} (hx : Statements pending p x y) (hk : Statements pending p k l) :
    Statements pending p
      (discard x >>= fun _ => MonadState.get >>= fun w : World =>
        if w.isInterrupted p.frame then pure () else k)
      (y >>= fun o => match o with
        | .normal => l
        | o => pure o) := by
  intro w hw hs
  refine ((hx w hw hs).andThen PUnit.unit).bind ?_
  rintro _ o w' ⟨hfits, hw', hkept⟩
  have hbears : w'.Bears p o := (hs.noted hfits).kept hkept
  change Matches _ ((if w'.isInterrupted p.frame = true then pure () else k : Run Unit) w') _
  rw [hbears.isInterrupted hw'.goes hfits]
  cases o with
  | normal => exact (hk w' hw' hbears).mono fun _ _ _ h => h.after hkept
  | broken => exact .result ⟨hfits, hw', hkept⟩
  | continued => exact .result ⟨hfits, hw', hkept⟩
  | returned v => exact .result ⟨hfits, hw', hkept⟩

/-- A round of a loop and what follows it. -/
theorem round_finish {x : Run Unit} {y : Structured Outcome} {k : Run Unit}
    {l : Structured Outcome} (hin : q.inLoop = true) (hx : Statements pending q x y)
    (hk : Rounds pending q k l) :
    Round pending q
      (x >>= fun _ => MonadState.get >>= fun w : World =>
        if w.leavesLoop q.frame then pure () else k)
      (y >>= fun o => match o with
        | .broken => pure .normal
        | .returned v => pure (.returned v)
        | _ => l) := by
  intro w hw hs
  refine (hx w hw hs).bind ?_
  rintro _ o w' ⟨hfits, hw', hkept⟩
  have hbears : w'.Bears q o := (hs.noted hfits).kept hkept
  have hleaves := hbears.leavesLoop hw'.goes hin hfits
  change Matches _ ((if w'.leavesLoop q.frame = true then pure () else k : Run Unit) w') _
  rw [hleaves]
  cases o with
  | normal =>
    exact (hk w' hw' (hbears.beginRound rfl)).mono fun _ _ _ h => h.after (.but hkept)
  | continued =>
    -- The note stays until the next round begins, but it stands in the frame of the loop.
    have hloop : World.KeptBut (some q.frame) w w' :=
      (World.KeptBut.passedOver _ _).trans (.but hkept)
    exact (hk w' hw' (hbears.beginRound rfl)).mono fun _ _ _ h => h.after hloop
  | broken => exact .result ⟨trivial, hw', (World.KeptBut.passedOver _ _).trans (.but hkept)⟩
  | returned v => exact .result ⟨hfits, hw', .but hkept⟩

/-- A loop in front of a round. -/
theorem rounds_begin {x : Run Unit} {y : Structured Outcome} (h : Round pending q x y) :
    Rounds pending q (modify (fun w : World => w.beginRound q.frame) >>= fun _ => x) y := by
  intro w hw hs
  have hround := h (w.beginRound q.frame) (hw.modifyFrame _ _) hs
  have hcalm : (w.beginRound q.frame).calm = w.calm := by
    apply World.calm_modifyFrame
    exact fun _ => rfl
  rw [hcalm] at hround
  exact hround.mono fun _ _ _ hleft => hleft.after (.passedOver _ _)

/-- A new frame is made the same in both runs. -/
theorem matches_fork {V : α → β → World → Prop} {k : FrameRef → Run α}
    {l : FrameRef → Structured β} {w : World} {parent : FrameRef} {kind : FrameKind}
    {isTemporary : Bool} {target : Option String} {isInjected : Option Bool}
    (h : Matches V
      (k (w.fork parent kind isTemporary target isInjected).1
        (w.fork parent kind isTemporary target isInjected).2)
      (l (w.fork parent kind isTemporary target isInjected).1
        (w.fork parent kind isTemporary target isInjected).2.calm)) :
    Matches V
      ((produce (fun w => w.fork parent kind isTemporary target isInjected) >>= k) w)
      ((Structured.step (produce fun w => w.fork parent kind isTemporary target isInjected) >>= l)
        w.calm) := by
  change Matches V _ (l (w.calm.fork parent kind isTemporary target isInjected).1
    (w.calm.fork parent kind isTemporary target isInjected).2)
  rw [World.fork_calm]
  exact h

/-- A loop in a frame of its own. -/
theorem statements_loop {k : FrameRef → Run α} {l : FrameRef → Structured Outcome}
    (h : ∀ frame, Rounds pending (p.loop frame) (k frame) (l frame)) :
    Statements pending p (produce (fun w => w.forkLoop p.frame) >>= k)
      (Structured.step (produce fun w => w.forkLoop p.frame) >>= l) := by
  intro w hw hs
  obtain ⟨before, hbefore, _⟩ := hs.frame
  have hfresh := (World.fork_fresh hbefore .loop true none none).1
  have hkept := w.kept_fork p.frame .loop true none none
  have hloop := h (w.forkLoop p.frame).1 (w.forkLoop p.frame).2
    (hw.fork p.frame .loop true none none) (hs.forkLoop.beginRound rfl)
  refine matches_fork (hloop.mono fun _ o w' hleft => ?_)
  obtain ⟨hfits, hw', hrest⟩ := hleft
  rw [World.noted_outer (p := p) _ hfits rfl] at hrest
  refine ⟨?_, hw', ?_⟩
  · cases o with
    | normal => trivial
    | broken => cases hfits
    | continued => cases hfits
    | returned v => exact hfits
  · exact (((World.KeptBut.but hkept).noted p o).trans hrest).kept
      (World.frame?_noted_none hfresh p o)

end Run

end LineScript
