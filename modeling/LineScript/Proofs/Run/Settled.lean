import LineScript.Proofs.Run.Plan

/-!
# Steps that the debugger does not show

A step settles if it keeps in which frame a statement was begun last, and of every frame that was
made whether it runs injected code. Main statement: all single steps of a run settle, but for the
one that notes a statement and the one that ends a run, and these two keep what frames run.
-/

namespace LineScript

namespace World

/-- Frames that were made run injected code, or do not, as before. -/
def KeepsMarks (w w' : World) : Prop :=
  ∀ r f, w.frame? r = some f → ∃ f', w'.frame? r = some f' ∧ f'.isInjected = f.isInjected

/-- A change that the debugger does not show: it keeps what frames run, and in which frame a
statement was begun last. -/
structure Settled (w w' : World) : Prop where
  marks : w.KeepsMarks w'
  active : w'.process.lastActive = w.process.lastActive

namespace KeepsMarks

variable {w w' w'' : World}

theorem refl (w : World) : w.KeepsMarks w := fun _ f hf => ⟨f, hf, rfl⟩

theorem trans (h : w.KeepsMarks w') (h' : w'.KeepsMarks w'') : w.KeepsMarks w'' := by
  intro r f hf
  obtain ⟨f', hf', hsame⟩ := h r f hf
  obtain ⟨f'', hf'', hsame'⟩ := h' r f' hf'
  exact ⟨f'', hf'', hsame'.trans hsame⟩

theorem of_kept (h : w.Kept w') : w.KeepsMarks w' := by
  intro r f hf
  obtain ⟨position, hf'⟩ := h r f (by simp) hf
  exact ⟨_, hf', rfl⟩

theorem of_frames (h : w'.frames = w.frames) : w.KeepsMarks w' := by
  intro r f hf
  refine ⟨f, ?_, rfl⟩
  rw [frame?, h]
  exact hf

theorem modifyFrame (w : World) (r : FrameRef) {g : Frame → Frame}
    (hg : ∀ f, (g f).isInjected = f.isInjected) : w.KeepsMarks (w.modifyFrame r g) := by
  intro s f hf
  rw [frame?_modifyFrame, hf]
  split
  · exact ⟨g f, rfl, hg f⟩
  · exact ⟨f, rfl, rfl⟩

end KeepsMarks

namespace Settled

variable {w w' w'' : World}

theorem refl (w : World) : w.Settled w := ⟨.refl w, rfl⟩

theorem trans (h : w.Settled w') (h' : w'.Settled w'') : w.Settled w'' :=
  ⟨h.marks.trans h'.marks, h'.active.trans h.active⟩

theorem of_same (hframes : w'.frames = w.frames) (hprocess : w'.process = w.process) :
    w.Settled w' := ⟨.of_frames hframes, by rw [hprocess]⟩

theorem of_backdrop (h : w'.backdrop = w.backdrop) : w.Settled w' :=
  of_same (congrArg Backdrop.frames h) (congrArg Backdrop.process h)

theorem modifyFrame (w : World) (r : FrameRef) {g : Frame → Frame}
    (hg : ∀ f, (g f).isInjected = f.isInjected) : w.Settled (w.modifyFrame r g) :=
  ⟨.modifyFrame w r hg, rfl⟩

theorem fork (w : World) (parent : FrameRef) (kind : FrameKind) (isTemporary : Bool)
    (target : Option String) (isInjected : Option Bool) :
    w.Settled (w.fork parent kind isTemporary target isInjected).2 where
  marks := .of_kept (w.kept_fork parent kind isTemporary target isInjected)
  active := by rw [(w.fork_same parent kind isTemporary target isInjected).1]

theorem blind {g : World → World} (hg : ∀ w b, g (w.against b) = (g w).against b) (w : World) :
    w.Settled (g w) := by
  apply of_backdrop
  have h := hg w w.backdrop
  rw [against_backdrop] at h
  rw [h]
  rfl

end Settled

end World

namespace Run

variable {α β : Type}

/-- A step that the debugger does not show. -/
def Settles (x : Run α) : Prop := ∀ w : World, w.Settled (reached (x w))

namespace Settles

@[simp] theorem pure (a : α) : Settles (pure a) := fun w => .refl w

@[simp] theorem fail (kind : FaultKind) : Settles (fail kind : Run α) := fun w => .refl w

@[simp] theorem exhausted : Settles (exhausted : Run α) := fun w => .refl w

@[simp] theorem get : Settles (get : Run World) := fun w => .refl w

theorem bind {x : Run α} {k : α → Run β} (hx : Settles x) (hk : ∀ a, Settles (k a)) :
    Settles (x >>= k) := by
  intro w
  have hfirst := hx w
  rw [bind_apply]
  cases hrun : x w with
  | ok a w' =>
    rw [hrun] at hfirst
    exact hfirst.trans (hk a w')
  | error e w' =>
    rw [hrun] at hfirst
    exact hfirst

theorem map (f : α → β) {x : Run α} (hx : Settles x) : Settles (f <$> x) := by
  rw [map_eq_pure_bind]
  exact hx.bind fun a => pure (f a)

theorem attempt {x : Run α} (hx : Settles x) : Settles (attempt x) := by
  intro w
  rw [reached_attempt]
  exact hx w

/-- A note about control flow. -/
theorem noteFrame (r : FrameRef) {g : Frame → Frame}
    (hg : ∀ f, (g f).isInjected = f.isInjected) :
    Settles (modify fun w => w.modifyFrame r g : Run Unit) :=
  fun w => .modifyFrame w r hg

theorem modify {f : World → World} (hf : ∀ w : World, w.Settled (f w)) :
    Settles (modify f : Run Unit) := hf

theorem produce {f : World → α × World} (hf : ∀ w : World, w.Settled (f w).2) :
    Settles (produce f) := hf

theorem aloof {f : World → α × World} (hf : World.Aloof f) : Settles (Run.produce f) :=
  produce fun w => .of_backdrop (hf.backdrop w)

@[simp] theorem fork (parent : FrameRef) (kind : FrameKind) (isTemporary : Bool)
    (target : Option String) (isInjected : Option Bool) :
    Settles (Run.produce fun w => w.fork parent kind isTemporary target isInjected) :=
  produce fun w => .fork w parent kind isTemporary target isInjected

@[simp] theorem read (f : World → Except Fault α) : Settles (read f) := by
  intro w
  unfold Run.read
  cases f w <;> exact .refl w

theorem update {f : World → Except Fault World} (hf : ∀ w w' : World, f w = .ok w' → w.Settled w') :
    Settles (update f) := by
  intro w
  unfold Run.update
  cases hw : f w with
  | ok w' => exact hf w w' hw
  | error e => exact .refl w

@[simp] theorem readChain (path : Path) (origin : Option Value) (site : Site) :
    Settles (readChain path origin site) := by
  cases origin <;> exact read _

@[simp] theorem writeAt (find : World → Except Fault World.Slot) (x : Value) :
    Settles (writeAt find x) :=
  (read find).bind fun s => modify fun w => .of_backdrop ((World.Aloof.write s x).backdrop w)

@[simp] theorem writeChain (path : Path) (origin : Option Value) (x : Value) (site : Site) :
    Settles (writeChain path origin x site) := by
  cases origin <;> exact writeAt _ x

@[simp] theorem bindName (frame : FrameRef) (name : String) (v : Value) :
    Settles (bindName frame name v) := by
  apply modify
  intro w
  split
  · exact .of_same rfl rfl
  · exact .refl w

@[simp] theorem finishCall (frame : FrameRef) (v : Value) : Settles (finishCall frame v) := by
  apply modify
  intro w
  split
  · exact .modifyFrame w _ fun _ => rfl
  · exact .refl w

@[simp] theorem callResult (frame : FrameRef) : Settles (callResult frame) :=
  get.bind fun _ => pure _

@[simp] theorem arm (armed : Bool) : Settles (arm armed) := modify fun _ => .of_same rfl rfl

@[simp] theorem grantStep : Settles grantStep := modify fun _ => .of_same rfl rfl

@[simp] theorem takeAction (actions : List HookAction) : Settles (takeAction actions) := by
  apply bind
  · exact modify fun _ => .of_same rfl rfl
  · exact fun _ => pure _

@[simp] theorem endPause : Settles endPause := by
  apply modify
  intro w
  split
  · exact .of_same rfl rfl
  · exact .refl w

@[simp] theorem notePause (position : Position) (frame : FrameRef)
    (injected : Option (Except ScriptError Unit)) (exit : Option (Except Fault Unit)) :
    Settles (notePause position frame injected exit) := by
  apply modify
  intro w
  split
  · exact .of_same rfl rfl
  · exact .refl w

theorem exit : Settles (Run.update World.exit) := by
  apply update
  intro w w' h
  unfold World.exit at h
  split at h
  · cases h
    exact ⟨.of_frames rfl, rfl⟩
  · cases h

@[simp] theorem makeMove (move : HookMove) : Settles (makeMove move) := by
  cases move with
  | step => exact grantStep.bind fun _ => pure _
  | resume => exact (arm false).bind fun _ => pure _
  | exit => exact exit.attempt.bind fun _ => pure _
  | hold => exact pure _

@[simp] theorem raise (e : ScriptError) : Settles (raise e) := by
  intro w
  unfold Run.raise
  split
  · exact .of_same rfl rfl
  · exact .refl w

@[simp] theorem compile (code : String) : Settles (compile code) := by
  refine get.bind fun w => ?_
  split
  · apply bind
    · exact modify fun _ => .of_same rfl rfl
    · exact fun _ => pure _
  next e _ =>
    refine (raise e).bind fun r => ?_
    cases r <;> exact pure _

theorem unlessPending (locked : FaultKind) {change : World → World}
    (hchange : ∀ w : World, w.Settled (change w)) : Settles (unlessPending locked change) := by
  intro w
  unfold Run.unlessPending
  split
  · exact .refl w
  · exact hchange w

theorem armIfPending (armed : Bool) : Settles (armIfPending armed) := by
  refine get.bind fun w => ?_
  have hrest : Settles (do return Reply.flag (← MonadState.get).debugger.isArmed : Run Reply) :=
    get.bind fun _ => pure _
  dsimp only
  split
  · exact (arm armed).bind fun _ => hrest
  · exact hrest

theorem freshFrames (target : String) (w : World) : w.Settled (freshFrames target w) := by
  have hroot : w.Settled (w.rootFrame target).2 := ⟨.of_kept (w.kept_rootFrame target), rfl⟩
  exact hroot.trans ((World.Settled.fork _ _ _ _ _ _).trans (.of_same rfl rfl))

/-- A run begins with other variables in the frames that were made. -/
@[simp] theorem beginRun : Settles beginRun := by
  apply modify
  intro w
  have hbound : w.Settled
      (w.bindAll w.configuration.api (World.globalTable ++ w.configuration.table)) := by
    unfold World.bindAll
    split
    · exact .of_same rfl rfl
    · exact .refl w
  refine hbound.trans ?_
  dsimp only
  split
  · exact ⟨.of_frames rfl, rfl⟩
  · exact ⟨.of_frames rfl, rfl⟩

@[simp] theorem hostFunction (action : HostAction) (a : Arguments) (site : Site) :
    Settles (hostFunction action a site) := by
  cases action with
  | report => exact produce fun w => .of_same rfl rfl
  | copy => exact aloof (.copy _)
  | arguments => exact aloof (.newList _)
  | stop => exact exit.bind fun _ => pure _
  | fail => exact get.bind fun _ => fail _
  | toInteger => exact pure _
  | echo => exact pure _
  | request => exact pure _
  | _ => exact get.bind fun _ => pure _

/-- What is asked of a session without another task. -/
@[simp] theorem perform (request : Request) (site : Site) : Settles (perform 1 request site) := by
  cases request with
  | run code => exact map _ exhausted
  | runTarget =>
    refine get.bind fun w => ?_
    dsimp only
    split
    · exact map _ exhausted
    · exact map _ (raise _)
  | inject code => exact get.bind fun _ => map _ exhausted
  | injectLast code => exact map _ exhausted
  | runPrepared =>
    refine get.bind fun w => ?_
    split
    · exact pure _
    · exact map _ exhausted
  | prepare code =>
    refine (compile code).bind fun c => ?_
    cases c with
    | error e => exact pure _
    | ok operation =>
      apply bind
      · exact modify fun _ => .of_same rfl rfl
      · exact fun _ => pure _
  | get path =>
    refine (read _).attempt.bind fun c => ?_
    cases c <;> exact pure _
  | set path value =>
    have hmade : Settles (Run.produce fun w => World.make [] value w) :=
      produce (.blind fun w b => by rw [World.make_against])
    refine hmade.bind fun v => (writeAt _ v).attempt.bind fun c => ?_
    cases c <;> exact pure _
  | setTarget target => exact unlessPending _ (freshFrames target)
  | setTable table =>
    apply unlessPending
    intro w
    have hmade : w.Settled (World.makeEntries [] table w).2 :=
      .blind (g := fun w => (World.makeEntries [] table w).2)
        (fun w b => by rw [World.makeEntries_against]) w
    exact hmade.trans (.of_same rfl rfl)
  | setHandlers handlers => exact unlessPending _ fun _ => .of_same rfl rfl
  | setHook hook => exact unlessPending _ fun _ => .of_same rfl rfl
  | breakpoint armed => exact (arm armed).bind fun _ => pure _
  | step => exact grantStep.bind fun _ => pure _
  | pause => exact armIfPending true
  | resume => exact armIfPending false
  | exit =>
    refine exit.attempt.bind fun c => ?_
    cases c <;> exact pure _
  | setArguments arguments =>
    apply bind
    · exact modify fun _ => .of_same rfl rfl
    · exact fun _ => pure _
  | takeRecovered =>
    refine get.bind fun _ => bind ?_ fun _ => pure _
    exact modify fun _ => .of_same rfl rfl
  | takeCollected =>
    refine get.bind fun _ => bind ?_ fun _ => pure _
    exact modify fun _ => .of_same rfl rfl
  | unknown => exact pure _
  | _ => exact get.bind fun _ => pure _

end Settles

/-- A step that keeps what frames run. -/
def Marks (x : Run α) : Prop := ∀ w : World, w.KeepsMarks (reached (x w))

theorem Settles.marks {x : Run α} (h : Settles x) : Marks x := fun w => (h w).marks

theorem noteStatement_marks (position : Position) (frame : FrameRef) :
    Marks (noteStatement position frame) :=
  fun w => .modifyFrame w frame (g := fun f => { f with position := position }) fun _ => rfl

theorem endRun_marks : Marks endRun := fun _ => .of_frames rfl

end Run

end LineScript
