import LineScript.Proofs.Run.Calls
import LineScript.Proofs.Run.Settled

/-!
# Where the debugger steps

Each task runs its code in one frame, or in a frame that it makes first. That new frame runs
injected code just if the one behind which it is made does: `Task.source?` says which one that is.
Main statements: all tasks but three go on in this way with steps that the debugger does not show,
and those three are the start of a statement, an injection and a run; and whatever is carried out,
frames that were made keep what they run.
-/

namespace LineScript

/-- Whether a frame was made that does not run injected code. -/
def World.isOrdinary (w : World) (r : FrameRef) : Bool :=
  (w.frame? r).any fun f => !f.isInjected

namespace Run

variable {α β : Type}

namespace Task

/-- The frame in which a task runs code, if it runs any itself. -/
def frame? : Task α → Option FrameRef
  | .eval _ site => some site.frame
  | .evalList _ _ site => some site.frame
  | .evalEntries _ _ site => some site.frame
  | .walk _ _ site => some site.frame
  | .walkKey _ _ _ site => some site.frame
  | .runBlock _ site => some site.frame
  | .runBranches _ site => some site.frame
  | .runWhile _ _ site => some site.frame
  | .runFor _ _ _ _ site => some site.frame
  | .bindParameters _ _ site => some site.frame
  | .beginStatement _ site => some site.frame
  | _ => none

/-- The frame behind which a task makes the one for the code that it runs, if it makes one. -/
def source? : Task α → Option FrameRef
  | .invoke _ scope _ _ _ => some scope
  | t => t.frame?

/-- Whether a task neither begins a statement or a run nor runs injected code. -/
def goesOn : Task α → Bool
  | .beginStatement _ _ => false
  | .injectInto _ _ _ => false
  | .runProgram _ _ => false
  | _ => true

/-- Whether the hook of the debugger is called. -/
def isPause : Task α → Bool
  | .pauseAt _ _ => true
  | _ => false

/-- The task runs code in a frame if it runs any, and is no pause. -/
structure In (frame : Option FrameRef) (t : Task α) : Prop where
  frame : t.frame? = none ∨ t.frame? = frame
  isPause : t.isPause = false

theorem in_iff {frame : Option FrameRef} {t : Task α} :
    t.In frame ↔ (t.frame? = none ∨ t.frame? = frame) ∧ t.isPause = false :=
  ⟨fun h => ⟨h.frame, h.isPause⟩, fun h => ⟨h.1, h.2⟩⟩

end Task

namespace Plan

section All

variable {S : ∀ {α : Type}, Run α → Prop} {T : ∀ {α : Type}, Task α → Prop}

@[simp] theorem all_plain {x : Run α} : (plain x).All S T ↔ S x := Iff.rfl

@[simp] theorem all_exiting {asks : Bool} {x : Run α} : (exiting asks x).All S T ↔ S x := Iff.rfl

@[simp] theorem all_step {event : World → Option Event} {x : Run α} :
    (step event x).All S T ↔ S x := Iff.rfl

@[simp] theorem all_task {t : Task α} : (task t).All S T ↔ T t := Iff.rfl

@[simp] theorem all_pure {a : α} : (pure a : Plan α).All S T ↔ S (pure a) := Iff.rfl

@[simp] theorem all_bind {p : Plan α} {k : α → Plan β} :
    (p >>= k).All S T ↔ p.All S T ∧ ∀ a, (k a).All S T := Iff.rfl

@[simp] theorem all_map {f : α → β} {p : Plan α} :
    (f <$> p).All S T ↔ p.All S T ∧ ∀ a, S (pure (f a)) := Iff.rfl

@[simp] theorem all_attempt {p : Plan α} : p.attempt.All S T ↔ p.All S T := Iff.rfl

@[simp] theorem all_atLine {line : Nat} {p : Plan α} : (p.atLine line).All S T ↔ p.All S T :=
  Iff.rfl

@[simp] theorem all_inRun {p : Plan α} : p.inRun.All S T ↔ p.All S T := Iff.rfl

end All

/-- A plan that runs code in a frame, or in one that it makes first behind the source. -/
inductive From (frame source : Option FrameRef) : Plan α → Prop where
  | stays {p : Plan α} (h : p.All Settles (Task.In frame)) : From frame source p
  | forks {r : FrameRef} (kind : FrameKind) (isTemporary : Bool) (target : Option String)
      {k : FrameRef → Plan α} (hr : source = some r)
      (h : ∀ frame, (k frame).All Settles (Task.In (some frame))) :
      From frame source (plain (produce fun w => w.fork r kind isTemporary target none) >>= k)

end Plan

@[simp] theorem hold_frame (s : Site) (vs : List Value) : (s.hold vs).frame = s.frame := rfl

@[simp] theorem enter_frame (s : Site) (r : FrameRef) : (s.enter r).frame = r := rfl

section Plans

variable (site : Site)

attribute [local simp] Task.in_iff Task.frame? Task.isPause

theorem eval_from (operation : Operation) :
    (Task.eval operation site).plan.From (some site.frame) (some site.frame) := by
  cases operation with
  | whileLoop condition body =>
    refine .forks .loop true none rfl fun frame => ?_
    simp
  | forLoop target iterator body =>
    refine .forks .loop true none rfl fun frame => ?_
    simp
  | imported target chunk =>
    refine .forks .external true (some target) rfl fun frame => ?_
    simp
  | call callee arguments =>
    apply Plan.From.stays
    simp only [Task.plan, Plan.all_bind]
    refine ⟨by simp, fun place => ⟨by simp, fun f => ⟨by simp, fun xs => ?_⟩⟩⟩
    cases f <;> simp
  | function d =>
    apply Plan.From.stays
    have hmade : Settles (produce fun w => w.newFunction (.closure d site.frame)) :=
      .produce fun w => .of_same rfl rfl
    refine ⟨hmade, fun f => ?_⟩
    dsimp only
    cases d.name? <;> simp
  | returnFrom argument =>
    apply Plan.From.stays
    refine ⟨Settles.get, fun w => ?_⟩
    dsimp only
    split
    · simp
    · cases argument <;> simp
  | breakLoop =>
    apply Plan.From.stays
    refine ⟨Settles.get, fun w => ?_⟩
    dsimp only
    split
    · simp
    · exact ⟨.noteFrame _ fun _ => rfl, fun _ => .pure _⟩
  | continueLoop =>
    apply Plan.From.stays
    refine ⟨Settles.get, fun w => ?_⟩
    dsimp only
    split
    · simp
    · exact ⟨.noteFrame _ fun _ => rfl, fun _ => .pure _⟩
  | evaluate operator left right =>
    apply Plan.From.stays
    refine ⟨by simp, fun a => ⟨Settles.get, fun w => ?_⟩⟩
    have happly : ∀ b, Settles (produce fun w => w.apply operator a b) := fun b =>
      .aloof (.apply operator a b)
    cases operator
    case and => dsimp only; split <;> simp
    case or => dsimp only; split <;> simp
    all_goals exact ⟨by simp, happly⟩
  | signed operator argument =>
    apply Plan.From.stays
    refine ⟨by simp, fun a => ?_⟩
    cases operator <;> exact .pure _
  | instantiate argument =>
    apply Plan.From.stays
    refine ⟨by simp, fun a => ?_⟩
    cases a with
    | map r => exact Settles.produce fun w => .of_same rfl rfl
    | _ => exact Settles.fail _
  | map entries =>
    exact .stays ⟨by simp, fun made => Settles.produce fun w => .of_same rfl rfl⟩
  | list items =>
    exact .stays ⟨by simp, fun xs => Settles.produce fun w => .of_same rfl rfl⟩
  | _ =>
    apply Plan.From.stays
    simp [Task.plan]

theorem callBuiltin_all (b : Builtin) (a : Arguments) :
    (Task.callBuiltin b a site).plan.All Settles (Task.In none) := by
  cases b with
  | string m => exact Settles.aloof (.stringMethod m a)
  | global f => exact Settles.aloof (.globalFunction f a)
  | list m =>
    have hmethod : Settles (produce fun w => w.listMethod m a) := .aloof (.listMethod m a)
    have hnew : ∀ xs, Settles (produce fun w => w.newList xs) := fun xs => .aloof (.newList xs)
    simp only [Task.plan]
    cases a.list? with
    | none => cases m <;> exact hmethod
    | some r =>
      cases a.callback? with
      | none => cases m <;> exact hmethod
      | some f => cases m <;> simp [hmethod, hnew]
  | map m =>
    have hmethod : Settles (produce fun w => w.mapMethod m a) := .aloof (.mapMethod m a)
    simp only [Task.plan]
    cases a.map? with
    | none => cases m <;> exact hmethod
    | some r =>
      cases a.callback? with
      | none => cases m <;> exact hmethod
      | some f => cases m <;> simp [hmethod]

theorem pauseAt_all (position : Position) :
    (Task.pauseAt position site).plan.All Settles (Task.In none) := by
  refine ⟨Settles.get, fun w => ?_⟩
  dsimp only
  cases w.debugger.hook with
  | standard => simp
  | scripted actions =>
    refine ⟨by simp, fun action => ?_⟩
    cases action with
    | mk code move => cases code <;> simp

theorem perform_all (request : Request) :
    (Task.perform request site).plan.All Settles (Task.In none) := by
  cases request with
  | runTarget =>
    refine ⟨Settles.get, fun w => ?_⟩
    dsimp only
    split <;> simp
  | runPrepared =>
    refine ⟨Settles.get, fun w => ?_⟩
    dsimp only
    split <;> simp
  | setTarget target => exact Settles.unlessPending _ (Settles.freshFrames target)
  | _ => simp [Task.plan]

/-- What runs code in a frame goes on there or behind it. -/
theorem Task.plan_from (t : Task α) (h : t.goesOn = true) : t.plan.From t.frame? t.source? := by
  cases t with
  | eval operation site => exact eval_from site operation
  | callBuiltin b a site => exact .stays (callBuiltin_all site b a)
  | pauseAt position site => exact .stays (pauseAt_all site position)
  | perform request site => exact .stays (perform_all site request)
  | beginStatement => cases h
  | injectInto => cases h
  | runProgram => cases h
  | evalList operations done site =>
    apply Plan.From.stays
    cases operations <;> simp [plan]
  | evalEntries entries done site =>
    apply Plan.From.stays
    cases entries <;> simp [plan]
  | walk chain origin site =>
    apply Plan.From.stays
    cases chain with
    | nil => simp [plan]
    | cons segment rest => cases segment <;> simp [plan]
  | walkKey key rest origin site =>
    apply Plan.From.stays
    cases rest <;> simp [plan]
  | runBlock body site =>
    apply Plan.From.stays
    cases body with
    | nil => simp [plan]
    | cons statement rest =>
      cases statement with
      | mk operation position =>
        refine ⟨by simp, fun _ => ⟨by simp, fun _ => ⟨Settles.get, fun w => ?_⟩⟩⟩
        dsimp only
        split <;> simp
  | runBranches branches site =>
    apply Plan.From.stays
    cases branches with
    | nil => simp [plan]
    | cons branch rest =>
      cases branch with
      | mk condition body =>
        refine ⟨by simp, fun c => ⟨Settles.get, fun w => ?_⟩⟩
        dsimp only
        split <;> simp
  | runWhile condition body site =>
    apply Plan.From.stays
    refine ⟨by simp, fun c => ⟨Settles.get, fun w => ?_⟩⟩
    dsimp only
    split
    · refine ⟨Settles.noteFrame _ fun _ => rfl, fun _ => ⟨by simp, fun _ => ?_⟩⟩
      refine ⟨Settles.get, fun w => ?_⟩
      dsimp only
      split <;> simp
    · simp
  | runFor items path origin body site =>
    apply Plan.From.stays
    cases items with
    | nil => simp [plan]
    | cons item rest =>
      refine ⟨Settles.noteFrame _ fun _ => rfl, fun _ => ⟨Settles.aloof (.itemValue item), ?_⟩⟩
      refine fun x => ⟨by simp, fun _ => ⟨by simp, fun _ => ⟨Settles.get, fun w => ?_⟩⟩⟩
      dsimp only
      split <;> simp
  | callFunction f receiver given site =>
    apply Plan.From.stays
    cases f with
    | builtin b => simp [plan]
    | made i =>
      refine ⟨Settles.get, fun w => ?_⟩
      dsimp only
      split <;> simp
  | invoke d scope receiver given site =>
    refine .forks .function false none rfl fun frame => ?_
    simp
  | bindParameters parameters given site =>
    apply Plan.From.stays
    cases parameters with
    | nil => simp [plan]
    | cons p ps =>
      cases given with
      | nil =>
        simp only [plan]
        cases p.default <;> simp
      | cons x xs => simp [plan]
  | callEach f receiver items site =>
    apply Plan.From.stays
    cases items <;> simp [plan]
  | callFind f receiver items site =>
    apply Plan.From.stays
    cases items with
    | nil => simp [plan]
    | cons item rest =>
      refine ⟨by simp, fun found => ⟨Settles.get, fun w => ?_⟩⟩
      dsimp only
      split <;> simp
  | callMap f receiver items done site =>
    apply Plan.From.stays
    cases items <;> simp [plan]
  | callReduce f receiver items done site =>
    apply Plan.From.stays
    cases items <;> simp [plan]
  | callHost action a site =>
    apply Plan.From.stays
    cases action
    case request =>
      refine ⟨Settles.get, fun w => ⟨by simp, fun reply => Settles.aloof (.replyValue reply)⟩⟩
    all_goals exact Settles.hostFunction _ a site
  | injectLast code site =>
    apply Plan.From.stays
    refine ⟨Settles.get, fun w => ?_⟩
    dsimp only
    split
    · split <;> simp
    · simp
  | runSource code site =>
    apply Plan.From.stays
    refine ⟨by simp, fun compiled => ?_⟩
    cases compiled <;> simp

theorem injectInto_all (code : String) (frame : FrameRef) :
    (Task.injectInto code frame site).plan.All Settles (fun t => t.isPause = false) := by
  refine ⟨by simp, fun compiled => ?_⟩
  cases compiled with
  | error e => simp
  | ok operation =>
    refine ⟨by simp, fun injected => ⟨by simp, fun outcome => ?_⟩⟩
    cases outcome <;> simp

theorem beginStatement_all (position : Position) :
    (Task.beginStatement position site).plan.All Marks (fun t => t.frame? = none) := by
  refine ⟨Settles.get.marks, fun w => ?_⟩
  dsimp only
  split
  · exact (Settles.pure _).marks
  · split
    · exact (Settles.pure _).marks
    · refine ⟨noteStatement_marks position site.frame, fun _ => ⟨Settles.get.marks, fun w => ?_⟩⟩
      dsimp only
      split
      · rfl
      · exact (Settles.pure _).marks

/-- What all steps of a run do, given what the two steps do that do not settle. -/
theorem runProgram_all {S : ∀ {α : Type}, Run α → Prop} (operation : Operation)
    (hsettles : ∀ {α : Type} (x : Run α), Settles x → S x) (hend : S endRun) :
    (Task.runProgram operation site).plan.All S (fun t => t.isPause = false) := by
  refine ⟨hsettles _ .get, fun w => ?_⟩
  dsimp only
  split
  · exact hsettles _ (.pure _)
  · refine ⟨⟨hsettles _ .beginRun, fun _ => ⟨hsettles _ .get, fun _ => rfl⟩⟩, fun outcome => ?_⟩
    refine ⟨hend, fun _ => ?_⟩
    cases outcome with
    | ok v => exact hsettles _ (.pure _)
    | error f => exact hsettles _ (.raise _)

end Plans

theorem Plan.From.all {frame source : Option FrameRef} {p : Plan α} (h : p.From frame source) :
    p.All Settles (fun t => t.isPause = false) := by
  cases h with
  | stays h => exact h.mono (fun _ hx => hx) fun _ ht => ht.isPause
  | forks kind isTemporary target hr h =>
    exact ⟨by simp, fun frame => (h frame).mono (fun _ hx => hx) fun _ ht => ht.isPause⟩

/-- All steps of a run keep what frames run. -/
theorem Task.plan_marks (t : Task α) : t.plan.All Marks (fun _ => True) := by
  have hsettled : ∀ {α : Type} {p : Plan α}, p.All Settles (fun t => t.isPause = false) →
      p.All Marks (fun _ => True) := fun h => h.mono (fun _ hx => hx.marks) fun _ _ => trivial
  cases hgoes : t.goesOn with
  | true => exact hsettled (t.plan_from hgoes).all
  | false =>
    cases t with
    | beginStatement position site =>
      exact (beginStatement_all site position).mono (fun _ hx => hx) fun _ _ => trivial
    | injectInto code frame site => exact hsettled (injectInto_all site code frame)
    | runProgram operation site =>
      exact (runProgram_all site operation (fun _ hx => hx.marks) endRun_marks).mono
        (fun _ hx => hx) fun _ _ => trivial
    | _ => cases hgoes

/-- A run keeps what frames run, all along its course. -/
theorem Task.run_marks (n : Nat) (t : Task α) (w : World) :
    w.KeepsMarks (reached (t.run n w)) ∧ ∀ m ∈ t.course n w, w.KeepsMarks m.world := by
  induction n generalizing α w with
  | zero =>
    rw [Task.run_zero]
    exact ⟨.refl w, fun m hm => by cases hm⟩
  | succ n ih =>
    rw [Task.run_succ]
    obtain ⟨hreached, hmoments, -⟩ := t.plan_marks.along World.KeepsMarks.refl
      World.KeepsMarks.trans (fun _ hx => hx) (Plan.asks_true (w := w)) fun t u _ _ _ => ih t u
    exact ⟨hreached, hmoments⟩

/-- A plan asks nothing of frames that were made before it, but that they run what they ran. -/
theorem Plan.All.asks_marks {S : ∀ {α : Type}, Run α → Prop} {T : ∀ {α : Type}, Task α → Prop}
    {p : Plan α} (hp : p.All S T) (hS : ∀ {α : Type} (x : Run α), S x → Marks x) (n : Nat)
    (w : World) : p.Asks (Task.run n) (fun t u => T t ∧ w.KeepsMarks u) w :=
  (hp.along World.KeepsMarks.refl World.KeepsMarks.trans hS asks_true
    fun t u _ _ _ => t.run_marks n u).2.2

end Run

end LineScript
