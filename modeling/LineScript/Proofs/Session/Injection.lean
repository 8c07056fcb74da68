import LineScript.Proofs.Run.Stepping
import LineScript.Proofs.Session.History

/-!
# What the debugger sees of injected code

A statement is noted where it begins, unless its frame runs injected code. Whether a frame does is
taken over from the frame behind which it is made, and for the call of a function that is the one in
which the function was declared. So injected code leaves its frames where it calls a function that
an ordinary frame declared. Main statement: in every state of a session, injected code calls the
hook nowhere and leaves the last statement alone just if no statement below it is noted and it ends
no run of its own; it is enough that it calls no function of an ordinary frame and begins no run.
-/

namespace LineScript

open Run

namespace Run

variable {α : Type}

namespace Task

/-- The frame in which a statement is noted, if the task begins one there. -/
def noted? (w : World) : Task α → Option FrameRef
  | .beginStatement _ site => if w.isOrdinary site.frame then some site.frame else none
  | _ => none

/-- Whether code is injected. -/
def isInjection : Task α → Bool
  | .injectInto _ _ _ => true
  | _ => false

/-- Whether a run begins. -/
def beginsRun (w : World) : Task α → Bool
  | .runProgram _ _ => !w.process.isPending
  | _ => false

/-- Whether a function is called that was declared in an ordinary frame. -/
def leaves (w : World) : Task α → Bool
  | .invoke _ scope _ _ _ => w.isOrdinary scope
  | _ => false

/-- A statement that is noted is so in the frame in which its code runs. -/
theorem frame?_of_noted {t : Task α} {w : World} {r : FrameRef} (h : t.noted? w = some r) :
    t.frame? = some r := by
  cases t with
  | beginStatement position site =>
    obtain ⟨-, rfl⟩ : w.isOrdinary site.frame = true ∧ site.frame = r := by
      simpa [noted?] using h
    rfl
  | _ => cases h

end Task

namespace Call

/-- The frame in which the statement of a call is noted, if the call begins one there. -/
def noted? (c : Call) : Option FrameRef := c.task.noted? c.world

/-- Whether a run begins with a call. -/
def beginsRun (c : Call) : Bool := c.task.beginsRun c.world

/-- Whether a call goes to a function that was declared in an ordinary frame. -/
def leaves (c : Call) : Bool := c.task.leaves c.world

/-- The hook of the debugger is never called, and the frame in which a statement was begun last is
the same behind every step. -/
structure Unseen (c : Call) : Prop where
  pauses : ∀ d ∈ c.calls, d.task.isPause = false
  active : ∀ m ∈ c.course, m.world.process.lastActive = c.world.process.lastActive

end Call

section Unseen

variable {n : Nat} {w : World}

/-- A statement that is not noted changes nothing. -/
theorem beginStatement_unnoted {position : Position} {site : Site}
    (h : (Task.beginStatement position site).noted? w = none) :
    reached ((Task.beginStatement position site).run (n + 1) w) = w ∧
      (∀ m ∈ (Task.beginStatement position site).course (n + 1) w, m.world = w) ∧
      (Task.beginStatement position site).calls (n + 1) w =
        [⟨.beginStatement position site, n + 1, w⟩] := by
  have hnoted : ∀ f, w.frame? site.frame = some f → f.isInjected = true := by
    intro f hf
    simpa [Task.noted?, World.isOrdinary, hf] using h
  rw [Task.run_succ, Task.course, Task.calls, Task.plan, Plan.carry_get, Plan.course_get,
    Plan.calls_get]
  cases hf : w.frame? site.frame with
  | none => exact ⟨rfl, by simp [Plan.course_pure], rfl⟩
  | some f =>
    simp only [hnoted f hf, if_true]
    exact ⟨rfl, by simp [Plan.course_pure], rfl⟩

/-- A run that is refused changes nothing. -/
theorem runProgram_refused {operation : Operation} {site : Site}
    (h : (Task.runProgram operation site).beginsRun w = false) :
    reached ((Task.runProgram operation site).run (n + 1) w) = w ∧
      (∀ m ∈ (Task.runProgram operation site).course (n + 1) w, m.world = w) ∧
      (Task.runProgram operation site).calls (n + 1) w =
        [⟨.runProgram operation site, n + 1, w⟩] := by
  have hpending : w.process.isPending = true := by simpa [Task.beginsRun] using h
  rw [Task.run_succ, Task.course, Task.calls, Task.plan, Plan.carry_get, Plan.course_get,
    Plan.calls_get]
  simp only [hpending, if_true]
  exact ⟨rfl, by simp [Plan.course_pure], rfl⟩

/-- Once a statement was begun last in a frame, or in none, it stays so. -/
def KeepsActive (last : Option FrameRef) (w w' : World) : Prop :=
  w.process.lastActive = last → w'.process.lastActive = last

/-- No call of a task notes a statement, and none begins a run, unless there is no statement that
was begun last. -/
structure Task.Mute (last : Option FrameRef) (n : Nat) (t : Task α) (w : World) : Prop where
  noted : ∀ c ∈ t.calls n w, c.noted? = none
  runs : last = none ∨ ∀ c ∈ t.calls n w, c.beginsRun = false

/-- The frame in which a statement was begun last is the same behind every step of a task, and the
hook is not called below it. -/
structure Task.Stays (last : Option FrameRef) (n : Nat) (t : Task α) (w : World) : Prop where
  reached : (reached (t.run n w)).process.lastActive = last
  moments : ∀ m ∈ t.course n w, m.world.process.lastActive = last
  calls : t.isPause = false → ∀ c ∈ t.calls n w, c.task.isPause = false

variable {last : Option FrameRef} {t : Task α}

/-- The tasks that a mute task calls for are mute. -/
theorem Task.Mute.asks (h : t.Mute last (n + 1) w) :
    t.plan.Asks (Task.run n) (fun s u => s.Mute last n u) w := by
  have hnoted := Plan.asks_of_calls fun c hc => h.noted c (List.mem_cons_of_mem _ hc)
  rcases h.runs with hlast | hruns
  · exact hnoted.mono fun s u hs => ⟨hs, .inl hlast⟩
  · have hbegin := Plan.asks_of_calls fun c hc => hruns c (List.mem_cons_of_mem _ hc)
    exact (hnoted.and hbegin).mono fun s u hs => ⟨hs.1, .inr hs.2⟩

/-- A task that is mute leaves the last statement if the single steps of its plan do. -/
theorem Task.stays_of_plan (hw : w.process.lastActive = last) (h : t.Mute last (n + 1) w)
    (ih : ∀ {α : Type} (s : Task α) u, u.process.lastActive = last → s.Mute last n u →
      s.Stays last n u)
    (hp : t.plan.All (fun x => ∀ u, KeepsActive last u (Run.reached (x u)))
      (fun s => s.isPause = false)) : t.Stays last (n + 1) w := by
  have htasks : ∀ {α : Type} (s : Task α) u, s.isPause = false → KeepsActive last w u →
      s.Mute last n u → KeepsActive last u (Run.reached (s.run n u)) ∧
        ∀ m ∈ s.course n u, KeepsActive last u m.world := by
    intro α s u _ hu hs
    have hstays := ih s u (hu hw) hs
    exact ⟨fun _ => hstays.reached, fun m hm _ => hstays.moments m hm⟩
  obtain ⟨hreached, hmoments, hasks⟩ := hp.along (fun u hu => hu)
    (fun huv hvw hu => hvw (huv hu)) (fun _ hx => hx) h.asks htasks
  refine ⟨?_, fun m hm => hmoments m hm hw, fun hpause c hc => ?_⟩
  · rw [Task.run_succ]
    exact hreached hw
  · rcases List.mem_cons.1 hc with rfl | hc
    · exact hpause
    · have hcalls := (hasks.and h.asks).mono fun s u hs => (ih s u (hs.1.2 hw) hs.2).calls hs.1.1
      exact hcalls.calls c hc

/-- What notes no statement leaves the one that was begun last, unless a run ends, and makes no
pause. -/
theorem Task.stays (n : Nat) (t : Task α) (w : World) (hw : w.process.lastActive = last)
    (h : t.Mute last n w) : t.Stays last n w := by
  induction n generalizing α w with
  | zero =>
    refine ⟨?_, ?_, ?_⟩
    · rw [Task.run_zero]
      exact hw
    · intro m hm
      cases hm
    · intro _ c hc
      cases hc
  | succ n ih =>
    have hsettled : t.plan.All Settles (fun s => s.isPause = false) → t.Stays last (n + 1) w := by
      refine fun hp => Task.stays_of_plan hw h ih (hp.mono (fun x hx u hu => ?_) fun _ hs => hs)
      rw [(hx u).active]
      exact hu
    -- Nothing is done by a statement that is not noted or by a run that is refused.
    have hnothing : (Run.reached (t.run (n + 1) w) = w ∧ (∀ m ∈ t.course (n + 1) w, m.world = w) ∧
        t.calls (n + 1) w = [⟨t, n + 1, w⟩]) → t.Stays last (n + 1) w := by
      rintro ⟨hreached, hmoments, hcalls⟩
      refine ⟨by rw [hreached, hw], fun m hm => by rw [hmoments m hm, hw], fun hpause c hc => ?_⟩
      rw [hcalls] at hc
      obtain rfl := List.mem_singleton.1 hc
      exact hpause
    cases hgoes : t.goesOn with
    | true => exact hsettled (t.plan_from hgoes).all
    | false =>
      cases t with
      | beginStatement position site =>
        exact hnothing (beginStatement_unnoted (h.noted _ List.mem_cons_self))
      | injectInto code frame site => exact hsettled (injectInto_all site code frame)
      | runProgram operation site =>
        rcases h.runs with rfl | hruns
        · refine Task.stays_of_plan hw h ih (runProgram_all site operation ?_ fun _ _ => rfl)
          intro α x hx u hu
          rw [(hx u).active]
          exact hu
        · exact hnothing (runProgram_refused (hruns _ List.mem_cons_self))
      | _ => cases hgoes

end Unseen

section Tracking

/-- A frame was made since a world, and runs injected code if that is asked for. -/
def MadeSince (first : World) (only : Prop) (w : World) (r : FrameRef) : Prop :=
  first.frame? r = none ∧ ∃ f, w.frame? r = some f ∧ (only → f.isInjected = true)

variable {first w w' : World} {only : Prop} {r : FrameRef}

theorem MadeSince.mono (h : MadeSince first only w r) (hmarks : w.KeepsMarks w') :
    MadeSince first only w' r := by
  obtain ⟨hfirst, f, hf, honly⟩ := h
  obtain ⟨f', hf', hsame⟩ := hmarks r f hf
  exact ⟨hfirst, f', hf', fun h => hsame.trans (honly h)⟩

/-- A frame that is made now was made since, and runs injected code if it is made for it or if the
frame before it does. -/
theorem madeSince_fork (hfirst : first.KeepsMarks w) {p : Frame} (hp : w.frame? r = some p)
    (kind : FrameKind) (isTemporary : Bool) (target : Option String) {isInjected : Option Bool}
    (honly : only → isInjected.getD p.isInjected = true) :
    MadeSince first only (w.fork r kind isTemporary target isInjected).2
      (w.fork r kind isTemporary target isInjected).1 := by
  unfold World.fork
  rw [hp]
  constructor
  · by_contra hmade
    obtain ⟨f, hf⟩ := Option.ne_none_iff_exists'.1 hmade
    obtain ⟨f', hf', -⟩ := hfirst _ f hf
    exact Nat.lt_irrefl _ (Heap.lt_size_of_get? hf')
  · exact ⟨_, Heap.get?_push_size _ _, honly⟩

/-- All code of a task and of its calls runs in frames that were made since a world, for injected
code if that is asked for. -/
structure Task.Tracked (first : World) (only : Prop) (n : Nat) (t : Task α) (w : World) : Prop where
  marks : first.KeepsMarks w
  placed : t.Placed w
  frame : ∀ r, t.frame? = some r → MadeSince first only w r
  calls : ∀ c ∈ t.calls n w, c.beginsRun = false ∧ (only → c.leaves = false)

variable {n : Nat} {t : Task α}

/-- Code that runs in a frame made since goes on there. -/
theorem Plan.All.asks_madeSince {p : Plan α} {frame : Option FrameRef}
    (hp : p.All Settles (Task.In frame)) (n : Nat)
    (hframe : ∀ r, frame = some r → MadeSince first only w r) :
    p.Asks (Task.run n)
      (fun s u => w.KeepsMarks u ∧ ∀ r, s.frame? = some r → MadeSince first only u r) w := by
  refine (hp.asks_marks (fun _ hx => hx.marks) n w).mono fun s u hs => ⟨hs.2, fun r hr => ?_⟩
  rcases hs.1.frame with hnone | hsame
  · rw [hnone] at hr
    cases hr
  · exact (hframe r (hsame.symm.trans hr)).mono hs.2

/-- A new frame is made behind one that was made since, or behind the one in which the function that
is called was declared. -/
theorem Task.Tracked.source (h : t.Tracked first only (n + 1) w) {r : FrameRef}
    (hr : t.source? = some r) : ∃ p, w.frame? r = some p ∧ (only → p.isInjected = true) := by
  cases t with
  | invoke d scope receiver given site =>
    cases hr
    obtain ⟨f, hf, -⟩ := h.placed.2.1
    refine ⟨f, hf, fun honly => ?_⟩
    have hleaves : w.isOrdinary r = false := (h.calls _ List.mem_cons_self).2 honly
    simpa [World.isOrdinary, hf] using hleaves
  | _ =>
    obtain ⟨-, f, hf, honly⟩ := h.frame r hr
    exact ⟨f, hf, honly⟩

theorem Task.Tracked.asks_frames (h : t.Tracked first only (n + 1) w) :
    t.plan.Asks (Task.run n)
      (fun s u => w.KeepsMarks u ∧ ∀ r, s.frame? = some r → MadeSince first only u r) w := by
  cases hgoes : t.goesOn with
  | true =>
    generalize hplan : t.plan = p
    cases hplan ▸ t.plan_from hgoes with
    | stays hp => exact hp.asks_madeSince n h.frame
    | @forks r kind isTemporary target k hr hp =>
      obtain ⟨f, hf, honly⟩ := h.source hr
      refine ⟨trivial, fun frame w' hfork => ?_⟩
      cases hfork
      have hmarks := (World.Settled.fork w r kind isTemporary target none).marks
      refine ((hp _).asks_madeSince n fun s hframe => ?_).mono fun s u hs =>
        ⟨hmarks.trans hs.1, hs.2⟩
      cases hframe
      exact madeSince_fork h.marks hf kind isTemporary target honly
  | false =>
    cases t with
    | beginStatement position site =>
      refine ((beginStatement_all site position).asks_marks (fun _ hx => hx) n w).mono ?_
      intro α s u hs
      refine ⟨hs.2, fun r hr => ?_⟩
      rw [hs.1] at hr
      cases hr
    | injectInto code frame site =>
      refine ⟨trivial, fun compiled w₁ hcompiled => ?_⟩
      have hmarks : w.KeepsMarks w₁ := by
        have hcompile := (Settles.compile code).marks w
        have hrun : compile code w = .ok compiled w₁ := hcompiled
        rw [hrun] at hcompile
        exact hcompile
      cases compiled with
      | error e => trivial
      | ok operation =>
        refine ⟨trivial, fun injected w₂ hfork => ⟨?_, fun outcome w₃ _ => ?_⟩⟩
        · cases hfork
          obtain ⟨f, hf, -⟩ := h.placed.2
          obtain ⟨f₁, hf₁, -⟩ := hmarks frame f hf
          refine ⟨hmarks.trans (World.Settled.fork ..).marks, fun r hr => ?_⟩
          cases hr
          exact madeSince_fork (h.marks.trans hmarks) hf₁ .call true none fun _ => rfl
        · cases outcome <;> trivial
    | runProgram operation site =>
      have hpending : w.process.isPending = true := by
        simpa [Call.beginsRun, Task.beginsRun] using (h.calls _ List.mem_cons_self).1
      refine ⟨trivial, fun u w' hget => ?_⟩
      cases hget
      simp only [hpending, if_true]
      trivial
    | _ => cases hgoes

theorem Task.Tracked.asks (h : t.Tracked first only (n + 1) w) :
    t.plan.Asks (Task.run n) (fun s u => s.Tracked first only n u) w := by
  have hcalls := Plan.asks_of_calls fun c hc => h.calls c (List.mem_cons_of_mem _ hc)
  exact ((h.asks_frames.and h.placed.asks).and hcalls).mono fun s u hs =>
    ⟨h.marks.trans hs.1.1.1, hs.1.2, hs.1.1.2, hs.2⟩

/-- Where the code of all calls of a task runs. -/
theorem Task.Tracked.of_call (h : t.Tracked first only n w) {c : Call} (hc : c ∈ t.calls n w) :
    c.task.Tracked first only c.bound c.world :=
  Task.calls_of (D := fun n t w => t.Tracked first only n w) (fun _ _ _ h => h.asks) n t w h c hc

end Tracking

section Seen

variable {n : Nat} {w : World}

/-- The frame of a statement that is noted is the one in which a statement was begun last, and the
hook is called if the breakpoint is armed. -/
theorem beginStatement_noted {position : Position} {site : Site} {r : FrameRef}
    (h : (Task.beginStatement position site).noted? w = some r) :
    (∃ m ∈ (Task.beginStatement position site).course (n + 1) w,
        m.world.process.lastActive = some r) ∧
      (w.debugger.isArmed = true →
        (∀ u, (Task.beginStatement position site).run (n + 1) w ≠ .error .exhausted u) →
        ∃ c ∈ (Task.beginStatement position site).calls (n + 1) w, c.task.isPause = true) := by
  obtain ⟨hordinary, rfl⟩ : w.isOrdinary site.frame = true ∧ site.frame = r := by
    simpa [Task.noted?] using h
  obtain ⟨f, hf, hinjected⟩ : ∃ f, w.frame? site.frame = some f ∧ f.isInjected = false := by
    simpa [World.isOrdinary, Option.any_eq_true] using hordinary
  rw [Task.run_succ, Task.course, Task.calls, Task.plan, Plan.carry_get, Plan.course_get,
    Plan.calls_get]
  simp only [hf, hinjected, Bool.false_eq_true, if_false]
  obtain ⟨w', hnote, hactive, hdebugger⟩ : ∃ w', noteStatement position site.frame w = .ok () w' ∧
      w'.process.lastActive = some site.frame ∧ w'.debugger = w.debugger := ⟨_, rfl, rfl, rfl⟩
  constructor
  · refine ⟨⟨none, false, w'⟩, List.mem_cons_of_mem _ (Plan.mem_course_bind.2 (.inl ?_)), hactive⟩
    refine List.mem_singleton.2 ?_
    rw [hnote]
    rfl
  · intro harmed hdone
    rw [← hdebugger] at harmed
    have hpause := ((Plan.asks_done hdone).2 () w' hnote).2 w' w' rfl
    simp only [harmed, if_true] at hpause
    cases n with
    | zero => exact absurd (congrFun (Task.run_zero _) w') (hpause w')
    | succ n =>
      refine ⟨⟨.pauseAt position site, n + 1, w'⟩, List.mem_cons_of_mem _ ?_, rfl⟩
      refine Plan.mem_calls_bind.2 (.inr ⟨(), w', hnote, ?_⟩)
      rw [Plan.calls_get, if_pos harmed]
      exact List.mem_cons_self

/-- A run that begins is ended, and then there is no statement that was begun last. -/
theorem runProgram_ended {operation : Operation} {site : Site}
    (h : (Task.runProgram operation site).beginsRun w = true)
    (hdone : ∀ u, (Task.runProgram operation site).run (n + 1) w ≠ .error .exhausted u) :
    ∃ m ∈ (Task.runProgram operation site).course (n + 1) w,
      m.world.process.lastActive = none := by
  have hidle : w.process.isPending = false := by simpa [Task.beginsRun] using h
  rw [Task.run_succ, Task.plan, Plan.carry_get] at hdone
  rw [Task.course, Task.plan, Plan.course_get]
  simp only [hidle, Bool.false_eq_true, if_false] at hdone ⊢
  generalize hprogram : Plan.inRun _ = program at hdone ⊢
  cases hrun : program.carry (Task.run n) w with
  | ok outcome w' =>
    refine ⟨⟨some .ended, false, reached (endRun w')⟩, List.mem_cons_of_mem _ ?_, rfl⟩
    refine Plan.mem_course_bind.2 (.inr ⟨outcome, w', hrun, ?_⟩)
    exact Plan.mem_course_bind.2 (.inl List.mem_cons_self)
  | error e w' =>
    cases e with
    | exhausted =>
      refine absurd ?_ (hdone w')
      change (program.carry (Task.run n) >>= _) w = _
      rw [bind_apply, hrun]
    | fault f =>
      subst hprogram
      exact absurd hrun (attempt_ne_fault _)

end Seen

namespace Call

/-- No call below notes a statement, and none begins a run, unless there is no statement that was
begun last. -/
def Mute (c : Call) : Prop := c.task.Mute c.world.process.lastActive c.bound c.world

variable {c d : Call}

/-- The calls of an injection run code in frames that are made for it, as long as no run begins, and
in frames for injected code if no function is called that was declared elsewhere. -/
theorem tracked_of_injection (hinjection : c.task.isInjection = true)
    (hplaced : c.task.Placed c.world) (only : Prop)
    (hcalls : ∀ d ∈ c.calls, d.beginsRun = false ∧ (only → d.leaves = false)) (hd : d ∈ c.calls) :
    d.task.Tracked c.world only d.bound d.world := by
  refine Task.Tracked.of_call ⟨.refl _, hplaced, fun r hr => ?_, hcalls⟩ hd
  obtain ⟨task, bound, world⟩ := c
  cases task with
  | injectInto code frame site => cases hr
  | _ => cases hinjection

/-- A statement that is noted below a call is seen. -/
theorem seen_of_noted (hd : d ∈ c.calls) {r : FrameRef} (hr : d.noted? = some r) :
    (∃ m ∈ c.course, m.world.process.lastActive = some r) ∧
      (d.world.debugger.isArmed = true → d.isDone = true →
        ∃ e ∈ c.calls, e.task.isPause = true) := by
  obtain ⟨k, hk⟩ := Task.bound_of_call hd
  have hcourse : ∀ m ∈ d.course, ∃ m' ∈ c.course, m'.world = m.world :=
    fun m hm => Task.course_of_call hd hm
  have hcalls : ∀ e ∈ d.calls, e ∈ c.calls := fun e he => Task.calls_of_call hd he
  obtain ⟨task, bound, world⟩ := d
  cases hk
  cases task with
  | beginStatement position site =>
    obtain ⟨⟨m, hm, hactive⟩, hpause⟩ := beginStatement_noted hr
    constructor
    · obtain ⟨m', hm', hsame⟩ := hcourse m hm
      exact ⟨m', hm', by rw [hsame, hactive]⟩
    · intro harmed hdone
      obtain ⟨e, he, hpauses⟩ := hpause harmed (isDone_iff.1 hdone)
      exact ⟨e, hcalls e he, hpauses⟩
  | _ => cases hr

/-- If there is a statement that was begun last, a run that begins below a call is seen when it
ends. -/
theorem seen_of_beginsRun (hd : d ∈ c.calls) (hdone : d.isDone = true)
    (hbegins : d.beginsRun = true) :
    ∃ m ∈ c.course, m.world.process.lastActive = none := by
  obtain ⟨k, hk⟩ := Task.bound_of_call hd
  have hcourse : ∀ m ∈ d.course, ∃ m' ∈ c.course, m'.world = m.world :=
    fun m hm => Task.course_of_call hd hm
  obtain ⟨task, bound, world⟩ := d
  cases hk
  cases task with
  | runProgram operation site =>
    obtain ⟨m, hm, hactive⟩ := runProgram_ended hbegins (isDone_iff.1 hdone)
    obtain ⟨m', hm', hsame⟩ := hcourse m hm
    exact ⟨m', hm', by rw [hsame, hactive]⟩
  | _ => cases hbegins

theorem Mute.unseen (hinjection : c.task.isInjection = true) (h : c.Mute) : c.Unseen := by
  have hstays := Task.stays c.bound c.task c.world rfl h
  refine ⟨hstays.calls ?_, hstays.moments⟩
  obtain ⟨task, bound, world⟩ := c
  cases task with
  | injectInto code frame site => rfl
  | _ => cases hinjection

/-- Code that is injected notes no statement if it calls no function that was declared in an
ordinary frame, and begins no run. -/
theorem mute_of_calls (hinjection : c.task.isInjection = true) (hplaced : c.task.Placed c.world)
    (h : ∀ d ∈ c.calls, d.leaves = false ∧ d.beginsRun = false) : c.Mute := by
  refine ⟨fun d hd => ?_, .inr fun d hd => (h d hd).2⟩
  have htracked := tracked_of_injection hinjection hplaced True
    (fun d hd => ⟨(h d hd).2, fun _ => (h d hd).1⟩) hd
  obtain ⟨task, bound, world⟩ := d
  cases task with
  | beginStatement position site =>
    obtain ⟨-, f, hf, hinjected⟩ := htracked.frame site.frame rfl
    have hordinary : world.isOrdinary site.frame = false := by
      simp [World.isOrdinary, hf, hinjected trivial]
    simp [noted?, Task.noted?, hordinary]
  | _ => rfl

/-- Code that is seen by nobody begins no run, unless there is no statement that was begun last. -/
theorem Unseen.runs (hdone : c.isDone = true) (h : c.Unseen) :
    c.world.process.lastActive = none ∨ ∀ d ∈ c.calls, d.beginsRun = false := by
  by_contra hnot
  obtain ⟨hactive, hbegins⟩ := not_or.1 hnot
  refine hbegins fun d hd => ?_
  by_contra hbegins
  obtain ⟨m, hm, hnone⟩ := seen_of_beginsRun hd (Task.isDone_of_call (isDone_iff.1 hdone) hd)
    (by simpa using hbegins)
  exact hactive ((h.active m hm).symm.trans hnone)

/-- Code that is injected and seen by nobody notes no statement. -/
theorem Unseen.mute (hinjection : c.task.isInjection = true) (hplaced : c.task.Placed c.world)
    (hdone : c.isDone = true) (h : c.Unseen) : c.Mute := by
  refine ⟨fun d hd => ?_, h.runs hdone⟩
  by_contra hnoted
  obtain ⟨r, hr⟩ := Option.ne_none_iff_exists'.1 hnoted
  obtain ⟨m, hm, hactive⟩ := (seen_of_noted hd hr).1
  have hlast : c.world.process.lastActive = some r := (h.active m hm).symm.trans hactive
  have hruns : ∀ d ∈ c.calls, d.beginsRun = false := by
    rcases h.runs hdone with hnone | hruns
    · cases hnone.symm.trans hlast
    · exact hruns
  -- The frame of the last statement is known before, but the statement begins in a new one.
  obtain ⟨f, hf, -⟩ := hplaced.1.active r hlast
  have htracked := tracked_of_injection hinjection hplaced False
    (fun d hd => ⟨hruns d hd, False.elim⟩) hd
  have hmade := htracked.frame r (Task.frame?_of_noted hr)
  cases hmade.1.symm.trans hf

end Call

end Run

variable {s : Setup} {definitions : List (String × Description)} {earlier : List Moment} {w : World}

/-- What the debugger sees of code that is injected in any state of a session, idle or in a run.
Nothing, if no statement below is noted, and so if no function of an ordinary frame is called. Else
the frame of each such statement is, when it begins, the one in which a statement was begun last,
and the hook is called for it if the breakpoint is armed. -/
theorem Session.injected_seen_iff (h : Session s definitions earlier w) (n : Nat) (r : Request)
    {c : Call} (hc : c ∈ (Task.perform r w.hostSite).calls n w)
    (hinjection : c.task.isInjection = true) :
    (c.Mute → c.Unseen) ∧
    ((∀ d ∈ c.calls, d.leaves = false ∧ d.beginsRun = false) → c.Mute) ∧
    (c.isDone = true → c.Unseen → c.Mute) ∧
    ∀ d ∈ c.calls, ∀ r, d.noted? = some r →
      (∃ m ∈ c.course, m.world.process.lastActive = some r) ∧
      (d.world.debugger.isArmed = true → d.isDone = true →
        ∃ e ∈ c.calls, e.task.isPause = true) := by
  have hhost : (Task.perform r w.hostSite).Placed w := by
    refine ⟨?_, trivial⟩
    rw [h.sealed.isPending]
    exact h.sealed
  have hplaced := Task.placed_of_call hhost hc
  exact ⟨fun hmute => hmute.unseen hinjection, Call.mute_of_calls hinjection hplaced,
    fun hdone hunseen => hunseen.mute hinjection hplaced hdone,
    fun d hd r hr => Call.seen_of_noted hd hr⟩

/-- A session whose scripts may inject code, and whose hook lets every pause pass. -/
def injecting : Setup := ⟨"main", [], .standard, Request.standardHandlers, .scripted [], default⟩

/-- A run that declares a function, arms the breakpoint and injects two programs: an assignment, and
a call of the function. -/
def injectedCall : Request :=
  .run "f=function()\nx=1\nend function\ndebugger\nsys(\"inject\",\"x=1\")\nsys(\"inject\",\"f()\")"

/-- The injections of that run, as the first of a session. -/
def injectedCallCalls : List Call :=
  ((Task.perform injectedCall (World.initial injecting callbacks).hostSite).calls 24
    (World.initial injecting callbacks)).filter fun c => c.task.isInjection

/-- The assignment is not seen. The call is, as the hook is called for the statement of the
function. -/
theorem Session.injected_seen_iff_injectedCall : ∃ assignment call,
    injectedCallCalls = [assignment, call] ∧ assignment.Unseen ∧ ¬ call.Unseen ∧
    ∃ e ∈ call.calls, e.task.isPause = true := by
  have hcalls : injectedCallCalls.map (fun c => (c.isDone,
      c.calls.all fun d => !d.leaves && !d.beginsRun,
      c.calls.any fun d => d.noted?.isSome && d.world.debugger.isArmed)) =
        [(true, true, false), (true, false, true)] := by
    decide +kernel
  have hinjected : ∀ c ∈ injectedCallCalls, c ∈ (Task.perform injectedCall
      (World.initial injecting callbacks).hostSite).calls 24 (World.initial injecting callbacks) ∧
        c.task.isInjection = true := fun c hc => List.mem_filter.1 hc
  obtain ⟨assignment, call, hlist⟩ : ∃ assignment call, injectedCallCalls = [assignment, call] :=
    List.length_eq_two.1 (by simpa using congrArg List.length hcalls)
  rw [hlist] at hcalls hinjected
  simp only [List.map_cons, List.map_nil, List.cons.injEq, Prod.mk.injEq, and_true] at hcalls
  obtain ⟨⟨-, hwithin, -⟩, hdone, -, hseen⟩ := hcalls
  obtain ⟨hassignment, hisInjection⟩ := hinjected assignment (by simp)
  obtain ⟨hunseen, hmute, -⟩ := Session.injected_seen_iff .start 24 injectedCall hassignment
    hisInjection
  obtain ⟨hcall, hisInjection'⟩ := hinjected call (by simp)
  obtain ⟨-, -, hmute', hnoted⟩ := Session.injected_seen_iff .start 24 injectedCall hcall
    hisInjection'
  obtain ⟨d, hd, hnotes⟩ := List.any_eq_true.1 hseen
  obtain ⟨hnotes, harmed⟩ := Bool.and_eq_true_iff.1 hnotes
  obtain ⟨r, hr⟩ := Option.isSome_iff_exists.1 hnotes
  refine ⟨assignment, call, hlist, hunseen (hmute fun d hd => ?_), fun h => ?_, ?_⟩
  · simpa using List.all_eq_true.1 hwithin d hd
  · cases ((hmute' hdone h).noted d hd).symm.trans hr
  · exact (hnoted d hd r hr).2 harmed (Task.isDone_of_call (Call.isDone_iff.1 hdone) hd)

end LineScript
