import LineScript.Proofs.Run.Beside
import LineScript.Proofs.Run.Log
import Mathlib.Data.List.Chain

/-!
# Two runs beside each other

Code that runs in a frame, and the same code that runs partly on a detour around it, can be compared
note by note. Main statements: plans that are made of steps and tasks that run together run
together, and so do the plans of all tasks but blocks, given that the tasks below them do. A look of
the host at its frames is not compared, nor is what follows a statement that begins late.
-/

namespace LineScript

/-- Blocks differ in when they are left only on the detour, where the frame was left. -/
theorem World.Alike.of_isInterrupted_ne {d : Detour} {v w : World} {s t : Site} (h : v.Alike d w)
    (hsite : s.Beside d t) (hne : v.isInterrupted s.frame ≠ w.isInterrupted t.frame) :
    t.frame = d.fork ∧ v.isInterrupted s.frame = true ∧ w.isInterrupted t.frame = false ∧
      w.isInterrupted d.frame = true := by
  have hfork : t.frame = d.fork := by
    by_contra hown
    rw [hsite, Detour.home_of_ne hown] at hne
    exact hne (h.isInterrupted_eq t.frame)
  have hexit := h.isInterrupted_fork
  rw [hsite, hfork, Detour.home_fork, h.isInterrupted_eq] at hne ⊢
  cases hleft : w.isInterrupted d.frame with
  | false =>
    rw [hleft, hexit, Run.isExit_of_goesOn hleft] at hne
    exact absurd rfl hne
  | true =>
    rw [hleft] at hne
    exact ⟨rfl, rfl, Bool.eq_false_iff.2 hne.symm, rfl⟩

namespace Run

/-- What is told of a run in a frame, and of one that is partly on the detour around it. A look of
the host is not compared. -/
inductive Note.Beside (d : Detour) : Note → Note → Prop where
  | moment {m k : Moment} (event : m.event = k.event) (inRun : m.inRun = k.inRun)
      (worlds : m.world.Alike d k.world) : Beside d (.moment m) (.moment k)
  | entered (r : FrameRef) (body : List Statement) :
      Beside d (.entered (d.home r) body) (.entered r body)
  | begun (r : FrameRef) (statement : Statement) :
      Beside d (.begun (d.home r) statement) (.begun r statement)
  | again : Beside d .again .again

theorem Note.Beside.within {d : Detour} {a b : Note} (h : Note.Beside d a b) :
    Note.Beside d a.within b.within := by
  cases h with
  | moment event _ worlds => exact .moment event rfl worlds
  | entered r body => exact .entered r body
  | begun r statement => exact .begun r statement
  | again => exact .again

/-- Whether the host looks at a frame. -/
def Note.isLook : Note → Bool
  | .looked => true
  | _ => false

/-- The host does not look at frames. -/
def Unseen (log : List Note) : Prop := ∀ note ∈ log, note.isLook = false

/-- A block on the detour goes on to a statement behind a step that leaves the block around it. -/
def Note.isLate (d : Detour) : Note → Note → Bool
  | .moment m, .begun r _ => r = d.fork && m.world.isInterrupted d.frame
  | _, _ => false

/-- No statement on the detour is late. -/
def OnTime (d : Detour) (log : List Note) : Prop := log.IsChain fun a b => Note.isLate d a b = false

instance (log : List Note) : Decidable (Unseen log) :=
  inferInstanceAs (Decidable (∀ note ∈ log, note.isLook = false))

instance (d : Detour) (log : List Note) : Decidable (OnTime d log) :=
  inferInstanceAs (Decidable (log.IsChain fun a b => Note.isLate d a b = false))

/-- The host does not look at frames, and no statement is late. -/
structure Smooth (d : Detour) (log : List Note) : Prop where
  unseen : Unseen log
  onTime : OnTime d log

namespace Smooth

variable {d : Detour} {before after log : List Note}

theorem left (h : Smooth d (before ++ after)) : Smooth d before where
  unseen note hnote := h.unseen note (List.mem_append_left _ hnote)
  onTime := h.onTime.left_of_append

theorem right (h : Smooth d (before ++ after)) : Smooth d after where
  unseen note hnote := h.unseen note (List.mem_append_right _ hnote)
  onTime := h.onTime.right_of_append

theorem ofWithin (h : Smooth d (log.map Note.within)) : Smooth d log where
  unseen note hnote := by
    have hunseen := h.unseen note.within (List.mem_map_of_mem hnote)
    cases note <;> exact hunseen
  onTime := by
    refine (List.isChain_map Note.within).1 h.onTime |>.imp fun a b hlate => ?_
    cases a <;> cases b <;> exact hlate

end Smooth

/-- The same is told of two runs, and they have the same outcome. -/
structure Together {α : Type} (d : Detour) (first second : List Note)
    (x y : EStateM.Result Stop World α) : Prop where
  notes : List.Forall₂ (Note.Beside d) first second
  outcome : SameOutcome d x y

/-- The same task at two sites. A loop and the parameters of a call are at home in frames of their
own, and a pause is where a statement was begun last. -/
inductive Task.Beside (d : Detour) (w : World) (s t : Site) : {α : Type} → Task α → Task α → Prop
    where
  | eval (o : Operation) : Beside d w s t (.eval o s) (.eval o t)
  | evalList (os : List Operation) (done : List Value) :
      Beside d w s t (.evalList os done s) (.evalList os done t)
  | evalEntries (es : List (String × Operation)) (done : OrderedMap Value) :
      Beside d w s t (.evalEntries es done s) (.evalEntries es done t)
  | walk (chain : List Segment) (origin : Option Value) :
      Beside d w s t (.walk chain origin s) (.walk chain origin t)
  | walkKey (key : String) (rest : List Segment) (origin : Option Value) :
      Beside d w s t (.walkKey key rest origin s) (.walkKey key rest origin t)
  | runBlock (body : List Statement) : Beside d w s t (.runBlock body s) (.runBlock body t)
  | runBranches (branches : List Branch) :
      Beside d w s t (.runBranches branches s) (.runBranches branches t)
  | runWhile (own : t.frame ≠ d.fork) (condition : Operation) (body : List Statement) :
      Beside d w s t (.runWhile condition body s) (.runWhile condition body t)
  | runFor (own : t.frame ≠ d.fork) (items : List World.Item) (path : Path)
      (origin : Option Value) (body : List Statement) :
      Beside d w s t (.runFor items path origin body s) (.runFor items path origin body t)
  | callFunction (f : FunctionRef) (receiver : Value) (given : List Value) :
      Beside d w s t (.callFunction f receiver given s) (.callFunction f receiver given t)
  | invoke (f : FunctionDeclaration) {q r : FrameRef} (scope : q = d.home r) (receiver : Value)
      (given : List Value) :
      Beside d w s t (.invoke f q receiver given s) (.invoke f r receiver given t)
  | bindParameters (own : t.frame ≠ d.fork) (parameters : List FormalParameter)
      (given : List Value) :
      Beside d w s t (.bindParameters parameters given s) (.bindParameters parameters given t)
  | callBuiltin (b : Builtin) (a : Arguments) :
      Beside d w s t (.callBuiltin b a s) (.callBuiltin b a t)
  | callEach (f : FunctionRef) (receiver : Value) (items : List (Value × Value)) :
      Beside d w s t (.callEach f receiver items s) (.callEach f receiver items t)
  | callFind (f : FunctionRef) (receiver : Value) (items : List (Value × Value)) :
      Beside d w s t (.callFind f receiver items s) (.callFind f receiver items t)
  | callMap (f : FunctionRef) (receiver : Value) (items : List (Value × Value))
      (done : List Value) :
      Beside d w s t (.callMap f receiver items done s) (.callMap f receiver items done t)
  | callReduce (f : FunctionRef) (receiver : Value) (items : List (Value × Value))
      (done : Value) :
      Beside d w s t (.callReduce f receiver items done s) (.callReduce f receiver items done t)
  | callHost {action : HostAction} (unseen : action ≠ .location) (a : Arguments) :
      Beside d w s t (.callHost action a s) (.callHost action a t)
  | beginStatement (position : Position) :
      Beside d w s t (.beginStatement position s) (.beginStatement position t)
  | pauseAt (active : w.process.lastActive = some t.frame) (position : Position) :
      Beside d w s t (.pauseAt position s) (.pauseAt position t)
  | injectInto (code : String) {q r : FrameRef} (behind : q = d.home r) :
      Beside d w s t (.injectInto code q s) (.injectInto code r t)
  | injectLast (active : w.process.lastActive = some t.frame) (code : String) :
      Beside d w s t (.injectLast code s) (.injectLast code t)
  | runProgram (o : Operation) : Beside d w s t (.runProgram o s) (.runProgram o t)
  | runSource (code : String) : Beside d w s t (.runSource code s) (.runSource code t)
  | perform {r : Request} (unseen : ∀ code, r ≠ .injectLast code) :
      Beside d w s t (.perform r s) (.perform r t)

/-- Tasks that are the same, at sites that are beside each other, run together. -/
def Abreast (d : Detour) (run : ∀ {α : Type}, Task α → Run α)
    (below : ∀ {α : Type}, Task α → World → List Note) : Prop :=
  ∀ {α : Type} {s t : Site} {a b : Task α} {v w : World}, v.Alike d w → s.Beside d t →
    Task.Beside d w s t a b → Smooth d (below b w) →
    Together d (below a v) (below b w) (run a v) (run b w)

/-- Two plans run together, each as the plan of a task. -/
def Plan.Beside {α γ : Type} (d : Detour) (run : ∀ {α : Type}, Task α → Run α)
    (below : ∀ {α : Type}, Task α → World → List Note) (caller other : Task γ) (p q : Plan α)
    (v w : World) : Prop :=
  Smooth d (q.log other run below w) →
    Together d (p.log caller run below v) (q.log other run below w) (p.carry run v) (q.carry run w)

theorem SameOutcome.reached {α : Type} {d : Detour} {x y : EStateM.Result Stop World α}
    (h : SameOutcome d x y) : (reached x).Alike d (reached y) := by
  cases h with
  | ok a worlds => exact worlds
  | error e worlds => exact worlds

section Calls

variable {α γ : Type} {d : Detour} {w : World} {s t : Site} {caller other : Task γ} {a b : Task α}

theorem Note.ofCall_beside (hblock : caller.isBlock = other.isBlock)
    (hloop : caller.isLoop = other.isLoop) (hsite : s.Beside d t) (h : Task.Beside d w s t a b) :
    List.Forall₂ (Note.Beside d) (Note.ofCall caller a) (Note.ofCall other b) := by
  cases h with
  | runBlock body =>
    have hbegun : List.Forall₂ (Note.Beside d) (body.head?.toList.map (Note.begun s.frame))
        (body.head?.toList.map (Note.begun t.frame)) := by
      rw [hsite]
      cases body with
      | nil => exact .nil
      | cons statement rest => exact .cons (.begun t.frame statement) .nil
    rw [Note.ofCall, Note.ofCall, hblock]
    cases other.isBlock with
    | true => exact hbegun
    | false =>
      have hentered : Note.Beside d (.entered s.frame body) (.entered t.frame body) := by
        rw [hsite]
        exact .entered t.frame body
      exact .cons hentered hbegun
  | runWhile own condition body =>
    rw [Note.ofCall, Note.ofCall, hloop]
    cases other.isLoop with
    | true => exact .cons .again .nil
    | false => exact .nil
  | runFor own items path origin body =>
    cases items with
    | nil => exact .nil
    | cons item rest =>
      rw [Note.ofCall, Note.ofCall, hloop]
      cases other.isLoop with
      | true => exact .cons .again .nil
      | false => exact .nil
  | @callHost action unseen arguments =>
    cases action with
    | location => exact absurd rfl unseen
    | _ => exact .nil
  | @perform r unseen =>
    cases r with
    | injectLast code => exact absurd rfl (unseen code)
    | _ => exact .nil
  | _ => exact .nil

end Calls

namespace Plan.Beside

variable {α β γ : Type} {d : Detour} {run : ∀ {α : Type}, Task α → Run α}
  {below : ∀ {α : Type}, Task α → World → List Note} {caller other : Task γ} {v w : World}

theorem step {event event' : World → Option Event} (hevent : event v = event' w) {x y : Run α}
    (h : Run.Beside d x y v w) :
    Plan.Beside d run below caller other (.step event x) (.step event' y) v w := by
  intro _
  exact ⟨.cons (.moment hevent rfl (SameOutcome.reached h)) .nil, h⟩

theorem noted (event : Option Event) {x y : Run α} (h : Run.Beside d x y v w) :
    Plan.Beside d run below caller other (.step (fun _ => event) x) (.step (fun _ => event) y)
      v w := by
  refine step ?_ h
  rfl

theorem plain {x y : Run α} (h : Run.Beside d x y v w) :
    Plan.Beside d run below caller other (plain x) (plain y) v w := noted none h

theorem exiting (asks : Bool) {x y : Run α} (hw : v.Alike d w) (h : Run.Beside d x y v w) :
    Plan.Beside d run below caller other (exiting asks x) (exiting asks y) v w :=
  step (by rw [hw.process.isPending]) h

theorem pure (hw : v.Alike d w) (a : α) :
    Plan.Beside d run below caller other (pure a) (pure a) v w := plain (.gives hw a)

theorem task (htasks : Abreast d run below) (hw : v.Alike d w) {s t : Site} {a b : Task α}
    (h : Task.Beside d w s t a b) (hsite : s.Beside d t) (hblock : caller.isBlock = other.isBlock)
    (hloop : caller.isLoop = other.isLoop) :
    Plan.Beside d run below caller other (.task a) (.task b) v w := by
  intro hsmooth
  have hbelow := htasks hw hsite h hsmooth.right
  exact ⟨List.rel_append (Note.ofCall_beside hblock hloop hsite h) hbelow.notes, hbelow.outcome⟩

/-- What is done next may go by what was done. -/
theorem bind {p q : Plan α} {k l : α → Plan β} (h : Plan.Beside d run below caller other p q v w)
    (hk : ∀ a v' w', v'.Alike d w' → q.carry run w = .ok a w' →
      Plan.Beside d run below caller other (k a) (l a) v' w') :
    Plan.Beside d run below caller other (p >>= k) (q >>= l) v w := by
  intro hsmooth
  change Smooth d ((q.bind l).log other run below w) at hsmooth
  change Together d ((p.bind k).log caller run below v) ((q.bind l).log other run below w)
    (EStateM.bind (p.carry run) (fun a => (k a).carry run) v)
    (EStateM.bind (q.carry run) (fun a => (l a).carry run) w)
  rw [Plan.log] at hsmooth
  rw [Plan.log, Plan.log]
  unfold EStateM.bind
  obtain ⟨hnotes, houtcome⟩ := h hsmooth.left
  have hlast := hsmooth.right
  generalize hv : p.carry run v = x, hw : q.carry run w = y at houtcome hlast
  cases houtcome with
  | ok a worlds =>
    obtain ⟨hnotes', houtcome'⟩ := hk a _ _ worlds hw hlast
    exact ⟨List.rel_append hnotes hnotes', houtcome'⟩
  | error e worlds => exact ⟨List.rel_append hnotes .nil, .error e worlds⟩

/-- What is done next goes by the world, which is alike. -/
theorem get (hw : v.Alike d w) {k l : World → Plan β}
    (h : Plan.Beside d run below caller other (k v) (l w) v w) :
    Plan.Beside d run below caller other (Plan.plain MonadState.get >>= k)
      (Plan.plain MonadState.get >>= l) v w := by
  intro hsmooth
  rw [Plan.log_get, ← List.singleton_append] at hsmooth
  obtain ⟨hnotes, houtcome⟩ := h hsmooth.right
  exact ⟨.cons (.moment rfl rfl hw) hnotes, houtcome⟩

/-- A frame that is forked off is not the detour, and code in it runs in the same frame. -/
theorem forked (hw : v.Alike d w) {s t : Site} (hsite : s.Beside d t) (kind : FrameKind)
    (isTemporary : Bool) (target : Option String) (isInjected : Option Bool)
    {k l : FrameRef → Plan β}
    (hk : ∀ frame v' w', v'.Alike d w' → frame ≠ d.fork →
      (∀ s t : Site, (s.enter frame).Beside d (t.enter frame)) →
      Plan.Beside d run below caller other (k frame) (l frame) v' w') :
    Plan.Beside d run below caller other
      (Plan.plain (produce fun w => w.fork s.frame kind isTemporary target isInjected) >>= k)
      (Plan.plain (produce fun w => w.fork t.frame kind isTemporary target isInjected) >>= l)
      v w := by
  refine .bind (plain (.fork hw hsite kind isTemporary target isInjected))
    fun frame v' w' h' hfork => ?_
  have hown : frame ≠ d.fork := hw.ne_fork_of_fork hfork
  exact hk frame v' w' h' hown fun _ _ => (Detour.home_of_ne hown).symm

theorem map {p q : Plan α} (f : α → β) (h : Plan.Beside d run below caller other p q v w) :
    Plan.Beside d run below caller other (f <$> p) (f <$> q) v w :=
  h.bind fun a _ _ hw _ => pure hw (f a)

theorem attempt {p q : Plan α} (h : Plan.Beside d run below caller other p q v w) :
    Plan.Beside d run below caller other (.attempt p) (.attempt q) v w := by
  intro hsmooth
  obtain ⟨hnotes, houtcome⟩ := h hsmooth
  exact ⟨hnotes, Run.Beside.attempt houtcome⟩

theorem atLine (line : Nat) {p q : Plan α} (h : Plan.Beside d run below caller other p q v w) :
    Plan.Beside d run below caller other (.atLine line p) (.atLine line q) v w := by
  intro hsmooth
  obtain ⟨hnotes, houtcome⟩ := h hsmooth
  exact ⟨hnotes, Run.Beside.atLine line houtcome⟩

theorem inRun {p q : Plan α} (h : Plan.Beside d run below caller other p q v w) :
    Plan.Beside d run below caller other (.inRun p) (.inRun q) v w := by
  intro hsmooth
  obtain ⟨hnotes, houtcome⟩ := h (Smooth.ofWithin hsmooth)
  refine ⟨?_, houtcome⟩
  rw [Plan.log, Plan.log, List.forall₂_map_left_iff, List.forall₂_map_right_iff]
  exact hnotes.imp fun _ _ hnote => hnote.within

end Plan.Beside

section Plans

variable {d : Detour} {run : ∀ {α : Type}, Task α → Run α}
  {below : ∀ {α : Type}, Task α → World → List Note} {v w : World} {s t : Site}

variable (htasks : Abreast d run below) (hw : v.Alike d w) (hsite : s.Beside d t)

include htasks hw hsite

omit htasks in
/-- A note in the frame of the loop around. -/
theorem noteLoop_beside (operation : Operation) (fault : FaultKind) {k : Frame → Frame}
    (halike : ∀ f g : Frame, f.Alike d g → (k f).Alike d (k g))
    (hmake : ∀ g : Frame, g.SameMake (k g)) :
    Plan.Beside d run below (.eval operation s) (.eval operation t)
      (do
        match ((← Plan.plain get).frame? s.frame).bind (·.loop) with
        | none => Plan.plain (fail fault)
        | some l =>
          Plan.plain (modify fun w => w.modifyFrame l k)
          return Value.nil)
      (do
        match ((← Plan.plain get).frame? t.frame).bind (·.loop) with
        | none => Plan.plain (fail fault)
        | some l =>
          Plan.plain (modify fun w => w.modifyFrame l k)
          return Value.nil) v w := by
  have hloop := hw.loop_eq t.frame
  rw [← hsite] at hloop
  refine .get hw ?_
  rw [hloop]
  cases (w.frame? t.frame).bind (·.loop) with
  | none => exact .plain (.stops hw _)
  | some l =>
    exact .bind (.plain (.changes (hw.modifyFrame l halike hmake))) fun _ v₁ w₁ h₁ _ => .pure h₁ _

theorem return_beside (argument : Option Operation) :
    Plan.Beside d run below (.eval (.returnFrom argument) s) (.eval (.returnFrom argument) t)
      (Task.eval (.returnFrom argument) s).plan (Task.eval (.returnFrom argument) t).plan v w := by
  have hcall := hw.call_eq t.frame
  rw [← hsite] at hcall
  refine .get hw ?_
  rw [hcall]
  cases (w.frame? t.frame).bind (·.call) with
  | none => exact .plain (.stops hw _)
  | some c =>
    have hfinish : ∀ x v' w', v'.Alike d w' → Plan.Beside d run below
        (.eval (.returnFrom argument) s) (.eval (.returnFrom argument) t)
        (do Plan.plain (finishCall s.frame x); return Value.nil)
        (do Plan.plain (finishCall t.frame x); return Value.nil) v' w' := by
      intro x v' w' h'
      exact .bind (.plain (.finishCall h' x hsite)) fun _ v'' w'' h'' _ => .pure h'' _
    cases argument with
    | none => exact .bind (.pure hw Value.nil) fun x v' w' h' _ => hfinish x v' w' h'
    | some a =>
      exact .bind (.task htasks hw (.eval a) hsite rfl rfl) fun x v' w' h' _ => hfinish x v' w' h'

theorem evaluate_beside (operator : BinaryOperator) (left right : Operation) :
    Plan.Beside d run below (.eval (.evaluate operator left right) s)
      (.eval (.evaluate operator left right) t) (Task.eval (.evaluate operator left right) s).plan
      (Task.eval (.evaluate operator left right) t).plan v w := by
  refine .bind (.task htasks hw (.eval left) hsite rfl rfl) fun a v₁ w₁ h₁ _ => ?_
  have htruthy : ∀ b v' w', v'.Alike d w' → Plan.Beside d run below
      (.eval (.evaluate operator left right) s) (.eval (.evaluate operator left right) t)
      (do return Value.bool ((← Plan.plain get).truthy b))
      (do return Value.bool ((← Plan.plain get).truthy b)) v' w' := by
    intro b v' w' h'
    refine .get h' ?_
    rw [h'.truthy_eq]
    exact .pure h' _
  refine .get h₁ ?_
  dsimp only
  rw [h₁.truthy_eq]
  cases operator
  case and =>
    dsimp only
    split
    · exact .bind (.task htasks h₁ (.eval right) hsite rfl rfl) fun b v₂ w₂ h₂ _ =>
        htruthy b v₂ w₂ h₂
    · exact .pure h₁ _
  case or =>
    dsimp only
    split
    · exact .pure h₁ _
    · exact .bind (.task htasks h₁ (.eval right) hsite rfl rfl) fun b v₂ w₂ h₂ _ =>
        htruthy b v₂ w₂ h₂
  all_goals
    exact .bind (.task htasks h₁ (.eval right) hsite rfl rfl) fun b v₂ w₂ h₂ _ =>
      .plain (.aloof h₂ (.apply _ a b))

theorem eval_beside (operation : Operation) :
    Plan.Beside d run below (.eval operation s) (.eval operation t) (Task.eval operation s).plan
      (Task.eval operation t).plan v w := by
  cases operation with
  | noop => exact .pure hw _
  | literal x => exact .pure hw _
  | constant b => exact .pure hw _
  | resolve chain =>
    refine .bind (.task htasks hw (.walk chain none) hsite rfl rfl) ?_
    rintro ⟨path, origin⟩ v₁ w₁ h₁ -
    exact .plain (.readChain h₁ path origin hsite)
  | assign target value =>
    refine .bind (.task htasks hw (.walk target none) hsite rfl rfl) ?_
    rintro ⟨path, origin⟩ v₁ w₁ h₁ -
    refine .bind (.task htasks h₁ (.eval value) hsite rfl rfl) fun x v₂ w₂ h₂ _ => ?_
    refine .bind (.plain (.writeChain h₂ path origin x hsite)) fun _ v₃ w₃ h₃ _ => ?_
    exact .pure h₃ _
  | call callee arguments =>
    refine .bind (.task htasks hw (.walk callee none) hsite rfl rfl) ?_
    rintro ⟨path, origin⟩ v₁ w₁ h₁ -
    refine .bind (.plain (.readChain h₁ path origin hsite)) fun f v₂ w₂ h₂ _ => ?_
    refine .bind (.task htasks h₂ (.evalList arguments []) hsite rfl rfl) fun xs v₃ w₃ h₃ _ => ?_
    cases f with
    | function f => exact .task htasks h₃ (.callFunction f (origin.getD .nil) xs) hsite rfl rfl
    | _ => exact .plain (.stops h₃ _)
  | function declaration =>
    have hmade := hw.newClosure declaration t.frame
    rw [← hsite] at hmade
    refine .bind (.plain (.makes hmade.1 hmade.2)) fun f v₁ w₁ h₁ _ => ?_
    dsimp only
    cases declaration.name? with
    | none => exact .pure h₁ _
    | some name =>
      have hslot := h₁.variableSlot_eq t.frame [name]
      rw [← hsite] at hslot
      refine .bind (.plain (.writeAt h₁ hslot f)) fun _ v₂ w₂ h₂ _ => ?_
      exact .pure h₂ _
  | chunk body =>
    refine .bind (.task htasks hw (.runBlock body) hsite rfl rfl) fun _ v₁ w₁ h₁ _ => ?_
    exact .pure h₁ _
  | conditional branches =>
    refine .bind (.task htasks hw (.runBranches branches) hsite rfl rfl) fun _ v₁ w₁ h₁ _ => ?_
    exact .pure h₁ _
  | whileLoop condition body =>
    refine .forked hw hsite .loop true none none fun frame v₁ w₁ h₁ hown hinner => ?_
    refine .bind (.task htasks h₁ (.runWhile hown condition body) (hinner s t) rfl rfl)
      fun _ v₂ w₂ h₂ _ => ?_
    exact .pure h₂ _
  | forLoop target iterator body =>
    refine .forked hw hsite .loop true none none fun frame v₁ w₁ h₁ hown hinner => ?_
    refine .bind (.task htasks h₁ (.walk target none) (hinner s t) rfl rfl) ?_
    rintro ⟨path, origin⟩ v₂ w₂ h₂ -
    refine .bind (.task htasks h₂ (.eval iterator) (hinner s t) rfl rfl)
      fun sequence v₃ w₃ h₃ _ => ?_
    have hitems := h₃.reads (f := fun w => w.items sequence) fun w b => World.items_against w b _
    refine .bind (.plain (.reads h₃ hitems)) fun items v₄ w₄ h₄ _ => ?_
    refine .bind (.task htasks h₄ (.runFor hown items path origin body) (hinner s t) rfl rfl)
      fun _ v₅ w₅ h₅ _ => ?_
    exact .pure h₅ _
  | returnFrom argument => exact return_beside htasks hw hsite argument
  | breakLoop =>
    exact noteLoop_beside hw hsite _ _ (k := fun f => { f with isBroken := true })
      (fun _ _ hfg => { hfg with isBroken := rfl }) fun g => { Frame.SameMake.refl g with }
  | continueLoop =>
    exact noteLoop_beside hw hsite _ _ (k := fun f => { f with isContinued := true })
      (fun _ _ hfg => { hfg with isContinued := rfl }) fun g => { Frame.SameMake.refl g with }
  | debugger => exact .bind (.plain (.arm hw true)) fun _ v₁ w₁ h₁ _ => .pure h₁ _
  | evaluate operator left right => exact evaluate_beside htasks hw hsite operator left right
  | negate argument =>
    refine .bind (.task htasks hw (.eval argument) hsite rfl rfl) fun a v₁ w₁ h₁ _ => ?_
    refine .get h₁ ?_
    rw [h₁.truthy_eq]
    exact .pure h₁ _
  | signed operator argument =>
    refine .bind (.task htasks hw (.eval argument) hsite rfl rfl) fun a v₁ w₁ h₁ _ => ?_
    cases operator <;> exact .pure h₁ _
  | instantiate argument =>
    refine .bind (.task htasks hw (.eval argument) hsite rfl rfl) fun a v₁ w₁ h₁ _ => ?_
    cases a with
    | map r => exact .plain (.aloof h₁ (.newMapOf fun _ _ => rfl))
    | _ => exact .plain (.stops h₁ _)
  | map entries =>
    refine .bind (.task htasks hw (.evalEntries entries .empty) hsite rfl rfl)
      fun made v₁ w₁ h₁ _ => ?_
    exact .plain (.aloof h₁ (.newMap _))
  | list items =>
    refine .bind (.task htasks hw (.evalList items []) hsite rfl rfl) fun xs v₁ w₁ h₁ _ => ?_
    exact .plain (.aloof h₁ (.newList xs))
  | imported target chunk =>
    refine .forked hw hsite .external true (some target) none fun frame v₁ w₁ h₁ _ hinner => ?_
    exact .task htasks h₁ (.eval chunk) (hinner s t) rfl rfl

theorem evalList_beside (os : List Operation) (done : List Value) :
    Plan.Beside d run below (.evalList os done s) (.evalList os done t)
      (Task.evalList os done s).plan (Task.evalList os done t).plan v w := by
  cases os with
  | nil => exact .pure hw _
  | cons o os =>
    refine .bind (.task htasks hw (.eval o) hsite rfl rfl) fun x v₁ w₁ h₁ _ => ?_
    exact .task htasks h₁ (.evalList os (done ++ [x])) hsite rfl rfl

theorem evalEntries_beside (entries : List (String × Operation)) (done : OrderedMap Value) :
    Plan.Beside d run below (.evalEntries entries done s) (.evalEntries entries done t)
      (Task.evalEntries entries done s).plan (Task.evalEntries entries done t).plan v w := by
  cases entries with
  | nil => exact .pure hw _
  | cons entry rest =>
    refine .bind (.task htasks hw (.eval entry.2) hsite rfl rfl) fun x v₁ w₁ h₁ _ => ?_
    exact .task htasks h₁ (.evalEntries rest (done.insert entry.1 x)) hsite rfl rfl

theorem walk_beside (chain : List Segment) (origin : Option Value) :
    Plan.Beside d run below (.walk chain origin s) (.walk chain origin t)
      (Task.walk chain origin s).plan (Task.walk chain origin t).plan v w := by
  cases chain with
  | nil => exact .pure hw _
  | cons segment rest =>
    cases segment with
    | root o =>
      refine .bind (.task htasks hw (.eval o) hsite rfl rfl) fun x v₁ w₁ h₁ _ => ?_
      exact .task htasks h₁ (.walk rest (some x)) hsite rfl rfl
    | name key => exact .task htasks hw (.walkKey key rest origin) hsite rfl rfl
    | index o =>
      refine .bind (.task htasks hw (.eval o) hsite rfl rfl) fun x v₁ w₁ h₁ _ => ?_
      refine .get h₁ ?_
      rw [h₁.display_eq]
      exact .task htasks h₁ (.walkKey (w₁.display x) rest origin) hsite rfl rfl

theorem walkKey_beside (key : String) (rest : List Segment) (origin : Option Value) :
    Plan.Beside d run below (.walkKey key rest origin s) (.walkKey key rest origin t)
      (Task.walkKey key rest origin s).plan (Task.walkKey key rest origin t).plan v w := by
  cases rest with
  | nil => exact .pure hw _
  | cons segment rest =>
    refine .bind (.plain (.readChain hw [key] origin hsite)) fun x v₁ w₁ h₁ _ => ?_
    exact .task htasks h₁ (.walk (segment :: rest) (some x)) hsite rfl rfl

theorem runBranches_beside (branches : List Branch) :
    Plan.Beside d run below (.runBranches branches s) (.runBranches branches t)
      (Task.runBranches branches s).plan (Task.runBranches branches t).plan v w := by
  cases branches with
  | nil => exact .pure hw _
  | cons branch rest =>
    cases branch with
    | mk condition body =>
      refine .bind (.task htasks hw (.eval condition) hsite rfl rfl) fun c v₁ w₁ h₁ _ => ?_
      refine .get h₁ ?_
      rw [h₁.truthy_eq]
      split
      · exact .task htasks h₁ (.runBlock body) hsite rfl rfl
      · exact .task htasks h₁ (.runBranches rest) hsite rfl rfl

theorem runWhile_beside (hown : t.frame ≠ d.fork) (condition : Operation) (body : List Statement) :
    Plan.Beside d run below (.runWhile condition body s) (.runWhile condition body t)
      (Task.runWhile condition body s).plan (Task.runWhile condition body t).plan v w := by
  refine .bind (.task htasks hw (.eval condition) hsite rfl rfl) fun c v₁ w₁ h₁ _ => ?_
  refine .get h₁ ?_
  rw [h₁.truthy_eq]
  split
  · refine .bind (.plain (.beginRound h₁ hsite hown)) fun _ v₂ w₂ h₂ _ => ?_
    refine .bind (.task htasks h₂ (.runBlock body) hsite rfl rfl) fun _ v₃ w₃ h₃ _ => ?_
    have hleaves := h₃.leavesLoop_eq t.frame
    rw [← hsite] at hleaves
    refine .get h₃ ?_
    rw [hleaves]
    split
    · exact .pure h₃ _
    · exact .task htasks h₃ (.runWhile hown condition body) hsite rfl rfl
  · exact .pure h₁ _

theorem runFor_beside (hown : t.frame ≠ d.fork) (items : List World.Item) (path : Path)
    (origin : Option Value) (body : List Statement) :
    Plan.Beside d run below (.runFor items path origin body s) (.runFor items path origin body t)
      (Task.runFor items path origin body s).plan (Task.runFor items path origin body t).plan
      v w := by
  cases items with
  | nil => exact .pure hw _
  | cons item rest =>
    refine .bind (.plain (.beginRound hw hsite hown)) fun _ v₁ w₁ h₁ _ => ?_
    refine .bind (.plain (.aloof h₁ (.itemValue item))) fun x v₂ w₂ h₂ _ => ?_
    refine .bind (.plain (.writeChain h₂ path origin x hsite)) fun _ v₃ w₃ h₃ _ => ?_
    refine .bind (.task htasks h₃ (.runBlock body) hsite rfl rfl) fun _ v₄ w₄ h₄ _ => ?_
    have hleaves := h₄.leavesLoop_eq t.frame
    rw [← hsite] at hleaves
    refine .get h₄ ?_
    rw [hleaves]
    split
    · exact .pure h₄ _
    · exact .task htasks h₄ (.runFor hown rest path origin body) hsite rfl rfl

theorem callFunction_beside (f : FunctionRef) (receiver : Value) (given : List Value) :
    Plan.Beside d run below (.callFunction f receiver given s) (.callFunction f receiver given t)
      (Task.callFunction f receiver given s).plan (Task.callFunction f receiver given t).plan
      v w := by
  cases f with
  | builtin b => exact .task htasks hw (.callBuiltin b _) hsite rfl rfl
  | made i =>
    refine .get hw ?_
    rw [hw.function_eq]
    cases w.functions.get? i with
    | none => exact .plain (.stops hw _)
    | some made =>
      cases made with
      | closure declaration frame =>
        exact .task htasks hw (.invoke declaration rfl receiver given) hsite rfl rfl
      | host name parameters action =>
        by_cases hlocation : action = .location
        · subst hlocation
          exact fun hsmooth => nomatch hsmooth.unseen .looked List.mem_cons_self
        · exact .task htasks hw (.callHost hlocation _) hsite rfl rfl

omit hsite in
theorem invoke_beside (f : FunctionDeclaration) {q r : FrameRef} (hscope : q = d.home r)
    (receiver : Value) (given : List Value) :
    Plan.Beside d run below (.invoke f q receiver given s) (.invoke f r receiver given t)
      (Task.invoke f q receiver given s).plan (Task.invoke f r receiver given t).plan v w := by
  have hscopes : (⟨q, []⟩ : Site).Beside d ⟨r, []⟩ := hscope
  refine .forked hw hscopes .function false none none fun frame v₁ w₁ h₁ hown hinner => ?_
  refine .bind (.plain (.bindName h₁ frame "self" receiver)) fun _ v₂ w₂ h₂ _ => ?_
  refine .bind (.task htasks h₂ (.bindParameters hown f.parameters given) (hinner s t) rfl rfl)
    fun _ v₃ w₃ h₃ _ => ?_
  refine .bind (.task htasks h₃ (.runBlock f.body) (hinner s t) rfl rfl) fun _ v₄ w₄ h₄ _ => ?_
  exact .plain (.callResult h₄ frame)

theorem bindParameters_beside (hown : t.frame ≠ d.fork) (parameters : List FormalParameter)
    (given : List Value) :
    Plan.Beside d run below (.bindParameters parameters given s)
      (.bindParameters parameters given t) (Task.bindParameters parameters given s).plan
      (Task.bindParameters parameters given t).plan v w := by
  have hframe : s.frame = t.frame := hsite.trans (Detour.home_of_ne hown)
  have hbind : ∀ {v' w' : World} (name : String) (x : Value), v'.Alike d w' →
      Run.Beside d (bindName s.frame name x) (bindName t.frame name x) v' w' := by
    intro v' w' name x h'
    rw [hframe]
    exact .bindName h' t.frame name x
  cases parameters with
  | nil => exact .pure hw _
  | cons p ps =>
    cases given with
    | cons x xs =>
      refine .bind (.plain (hbind p.name x hw)) fun _ v₁ w₁ h₁ _ => ?_
      exact .task htasks h₁ (.bindParameters hown ps xs) hsite rfl rfl
    | nil =>
      have hrest : ∀ x v' w', v'.Alike d w' → Plan.Beside d run below
          (.bindParameters (p :: ps) [] s) (.bindParameters (p :: ps) [] t)
          (do Plan.plain (bindName s.frame p.name x); .task (.bindParameters ps [] s))
          (do Plan.plain (bindName t.frame p.name x); .task (.bindParameters ps [] t)) v' w' := by
        intro x v' w' h'
        refine .bind (.plain (hbind p.name x h')) fun _ v'' w'' h'' _ => ?_
        exact .task htasks h'' (.bindParameters hown ps []) hsite rfl rfl
      simp only [Task.plan]
      cases p.default with
      | none => exact .bind (.pure hw Value.nil) fun x v' w' h' _ => hrest x v' w' h'
      | some o =>
        exact .bind (.task htasks hw (.eval o) hsite rfl rfl) fun x v' w' h' _ => hrest x v' w' h'

theorem callBuiltin_beside (b : Builtin) (a : Arguments) :
    Plan.Beside d run below (.callBuiltin b a s) (.callBuiltin b a t) (Task.callBuiltin b a s).plan
      (Task.callBuiltin b a t).plan v w := by
  cases b with
  | string m => exact .plain (.aloof hw (.stringMethod m a))
  | global f => exact .plain (.aloof hw (.globalFunction f a))
  | list m =>
    simp only [Task.plan]
    split
    next r f _ _ =>
      refine .get hw ?_
      rw [hw.reads (f := fun w => w.elements r) fun _ _ => rfl]
      exact .task htasks hw (.callEach f a.receiver _) hsite rfl rfl
    next r f _ _ =>
      refine .get hw ?_
      rw [hw.reads (f := fun w => w.elements r) fun _ _ => rfl]
      exact .task htasks hw (.callFind f a.receiver _) hsite rfl rfl
    next r f _ _ =>
      refine .get hw ?_
      rw [hw.reads (f := fun w => w.elements r) fun _ _ => rfl]
      refine .bind (.task htasks hw (.callMap f a.receiver _ []) hsite rfl rfl)
        fun xs v₁ w₁ h₁ _ => ?_
      exact .plain (.aloof h₁ (.newList xs))
    next r f _ _ =>
      refine .get hw ?_
      rw [hw.reads (f := fun w => w.elements r) fun _ _ => rfl]
      exact .task htasks hw (.callReduce f a.receiver _ _) hsite rfl rfl
    · exact .plain (.aloof hw (.listMethod _ a))
  | map m =>
    simp only [Task.plan]
    split
    next r f _ _ =>
      refine .get hw ?_
      rw [hw.reads (f := fun w => w.contents r) fun _ _ => rfl]
      exact .task htasks hw (.callEach f a.receiver _) hsite rfl rfl
    next r f _ _ =>
      refine .get hw ?_
      rw [hw.reads (f := fun w => w.contents r) fun _ _ => rfl]
      exact .task htasks hw (.callFind f a.receiver _) hsite rfl rfl
    · exact .plain (.aloof hw (.mapMethod _ a))

theorem callEach_beside (f : FunctionRef) (receiver : Value) (items : List (Value × Value)) :
    Plan.Beside d run below (.callEach f receiver items s) (.callEach f receiver items t)
      (Task.callEach f receiver items s).plan (Task.callEach f receiver items t).plan v w := by
  cases items with
  | nil => exact .pure hw _
  | cons item rest =>
    refine .bind (.task htasks hw (.callFunction f receiver [item.1, item.2]) hsite rfl rfl)
      fun _ v₁ w₁ h₁ _ => ?_
    exact .task htasks h₁ (.callEach f receiver rest) hsite rfl rfl

theorem callFind_beside (f : FunctionRef) (receiver : Value) (items : List (Value × Value)) :
    Plan.Beside d run below (.callFind f receiver items s) (.callFind f receiver items t)
      (Task.callFind f receiver items s).plan (Task.callFind f receiver items t).plan v w := by
  cases items with
  | nil => exact .pure hw _
  | cons item rest =>
    refine .bind (.task htasks hw (.callFunction f receiver [item.1, item.2]) hsite rfl rfl)
      fun found v₁ w₁ h₁ _ => ?_
    refine .get h₁ ?_
    rw [h₁.truthy_eq]
    split
    · exact .pure h₁ _
    · exact .task htasks h₁ (.callFind f receiver rest) hsite rfl rfl

theorem callMap_beside (f : FunctionRef) (receiver : Value) (items : List (Value × Value))
    (done : List Value) :
    Plan.Beside d run below (.callMap f receiver items done s) (.callMap f receiver items done t)
      (Task.callMap f receiver items done s).plan (Task.callMap f receiver items done t).plan
      v w := by
  cases items with
  | nil => exact .pure hw _
  | cons item rest =>
    refine .bind (.task htasks hw (.callFunction f receiver [item.1, item.2]) hsite rfl rfl)
      fun y v₁ w₁ h₁ _ => ?_
    exact .task htasks h₁ (.callMap f receiver rest (done ++ [y])) hsite rfl rfl

theorem callReduce_beside (f : FunctionRef) (receiver : Value) (items : List (Value × Value))
    (done : Value) :
    Plan.Beside d run below (.callReduce f receiver items done s)
      (.callReduce f receiver items done t) (Task.callReduce f receiver items done s).plan
      (Task.callReduce f receiver items done t).plan v w := by
  cases items with
  | nil => exact .pure hw _
  | cons item rest =>
    refine .bind (.task htasks hw (.callFunction f receiver [done, item.1, item.2]) hsite rfl rfl)
      fun y v₁ w₁ h₁ _ => ?_
    exact .task htasks h₁ (.callReduce f receiver rest y) hsite rfl rfl

theorem callHost_beside {action : HostAction} (hunseen : action ≠ .location) (a : Arguments) :
    Plan.Beside d run below (.callHost action a s) (.callHost action a t)
      (Task.callHost action a s).plan (Task.callHost action a t).plan v w := by
  cases action with
  | request =>
    refine .get hw ?_
    dsimp only
    rw [hw.display_eq, Run.Beside.requestArgument_eq hw]
    generalize Request.ofScript _ _ = r
    have hperform : Plan.Beside d run below (.callHost .request a s) (.callHost .request a t)
        (.task (.perform r s)) (.task (.perform r t)) v w := by
      cases r with
      | injectLast code => exact fun hsmooth => nomatch hsmooth.unseen .looked List.mem_cons_self
      | _ => exact .task htasks hw (.perform (by simp)) hsite rfl rfl
    exact hperform.bind fun reply v₁ w₁ h₁ _ => .plain (.aloof h₁ (.replyValue reply))
  | _ => exact .exiting _ hw (.hostFunction hw hunseen a s t)

theorem beginStatement_beside (position : Position) :
    Plan.Beside d run below (.beginStatement position s) (.beginStatement position t)
      (Task.beginStatement position s).plan (Task.beginStatement position t).plan v w := by
  have hserves := hw.serves t.frame
  rw [← hsite] at hserves
  refine .get hw ?_
  generalize v.frame? s.frame = f?, w.frame? t.frame = g? at hserves
  cases hserves with
  | none => exact .pure hw _
  | some hfg =>
    dsimp only
    rw [hfg.isInjected]
    split
    · exact .pure hw _
    · refine .bind (.plain (.noteStatement hw position hsite)) fun _ v₁ w₁ h₁ hnoted => ?_
      have hactive : w₁.process.lastActive = some t.frame := by
        cases hnoted
        rfl
      refine .get h₁ ?_
      rw [h₁.debugger.isArmed]
      split
      · exact .task htasks h₁ (.pauseAt hactive position) hsite rfl rfl
      · exact .pure h₁ _

theorem pauseAt_beside (hactive : w.process.lastActive = some t.frame) (position : Position) :
    Plan.Beside d run below (.pauseAt position s) (.pauseAt position t)
      (Task.pauseAt position s).plan (Task.pauseAt position t).plan v w := by
  refine .get hw ?_
  rw [hw.debugger.hook]
  cases w.debugger.hook with
  | standard => exact .bind (.plain (.arm hw false)) fun _ v₁ w₁ h₁ _ => .plain (.endPause h₁)
  | scripted actions =>
    refine .bind (.plain (.takeAction hw actions)) fun action v₁ w₁ h₁ htaken => ?_
    have hactive : w₁.process.lastActive = some t.frame := by
      cases htaken
      exact hactive
    have hrest : ∀ injected v' w', v'.Alike d w' →
        Plan.Beside d run below (.pauseAt position s) (.pauseAt position t)
          (do
            let exit ← Plan.exiting (action.move == .exit) (makeMove action.move)
            Plan.plain (notePause position s.frame injected exit)
            Plan.plain endPause)
          (do
            let exit ← Plan.exiting (action.move == .exit) (makeMove action.move)
            Plan.plain (notePause position t.frame injected exit)
            Plan.plain endPause) v' w' := by
      intro injected v' w' h'
      refine .bind (.exiting _ h' (.makeMove h' action.move)) fun exit v₂ w₂ h₂ _ => ?_
      refine .bind (.plain (.notePause h₂ position injected exit hsite)) fun _ v₃ w₃ h₃ _ => ?_
      exact .plain (.endPause h₃)
    cases action.code with
    | none => exact .bind (.pure h₁ none) fun injected v₂ w₂ h₂ _ => hrest injected v₂ w₂ h₂
    | some code =>
      exact .bind (.map some (.task htasks h₁ (.injectLast hactive code) hsite rfl rfl))
        fun injected v₂ w₂ h₂ _ => hrest injected v₂ w₂ h₂

omit hsite in
theorem injectInto_beside (code : String) {q r : FrameRef} (hbehind : q = d.home r) :
    Plan.Beside d run below (.injectInto code q s) (.injectInto code r t)
      (Task.injectInto code q s).plan (Task.injectInto code r t).plan v w := by
  refine .bind (.plain (.compile hw code)) fun result v₁ w₁ h₁ _ => ?_
  cases result with
  | error e => exact .pure h₁ _
  | ok operation =>
    have houter : (s.enter q).Beside d (t.enter r) := hbehind
    refine .forked h₁ houter .call true none (some true) fun frame v₂ w₂ h₂ _ hinner => ?_
    have hsites := hinner (s.enter q) (t.enter r)
    refine .bind (.attempt (.task htasks h₂ (.eval operation) hsites rfl rfl))
      fun outcome v₃ w₃ h₃ _ => ?_
    cases outcome with
    | ok _ => exact .pure h₃ _
    | error f => exact .plain (.raise h₃ _)

theorem injectLast_beside (hactive : w.process.lastActive = some t.frame) (code : String) :
    Plan.Beside d run below (.injectLast code s) (.injectLast code t)
      (Task.injectLast code s).plan (Task.injectLast code t).plan v w := by
  have hactive' : v.process.lastActive = some s.frame := by
    rw [hw.process.lastActive, hactive, hsite]
    rfl
  refine .get hw ?_
  rw [s.lastActive?_eq hactive', t.lastActive?_eq hactive]
  dsimp only
  rw [hw.process.isPending]
  split
  · exact .task htasks hw (.injectInto code hsite) hsite rfl rfl
  · exact .pure hw _

omit hsite in
theorem runProgram_beside (operation : Operation) :
    Plan.Beside d run below (.runProgram operation s) (.runProgram operation t)
      (Task.runProgram operation s).plan (Task.runProgram operation t).plan v w := by
  refine .get hw ?_
  rw [hw.process.isPending]
  split
  · exact .pure hw _
  · refine .bind (.inRun (.bind (.noted _ (.beginRun hw)) fun _ v₁ w₁ h₁ _ => .get h₁ ?_))
      fun outcome v₂ w₂ h₂ _ => ?_
    · have hinner : (s.enter v₁.configuration.global).Beside d (t.enter w₁.configuration.global) :=
        h₁.home_global.symm
      exact .attempt (.task htasks h₁ (.eval operation) hinner rfl rfl)
    · refine .bind (.noted _ (.endRun h₂)) fun _ v₃ w₃ h₃ _ => ?_
      cases outcome with
      | ok _ => exact .pure h₃ _
      | error f => exact .plain (.raise h₃ _)

theorem runSource_beside (code : String) :
    Plan.Beside d run below (.runSource code s) (.runSource code t)
      (Task.runSource code s).plan (Task.runSource code t).plan v w := by
  refine .bind (.plain (.compile hw code)) fun result v₁ w₁ h₁ _ => ?_
  cases result with
  | error e => exact .pure h₁ _
  | ok operation => exact .task htasks h₁ (.runProgram operation) hsite rfl rfl

theorem perform_beside {r : Request} (hunseen : ∀ code, r ≠ .injectLast code) :
    Plan.Beside d run below (.perform r s) (.perform r t) (Task.perform r s).plan
      (Task.perform r t).plan v w := by
  cases r with
  | run code => exact .map _ (.task htasks hw (.runSource code) hsite rfl rfl)
  | runTarget =>
    have hhandlers : v.handlers = w.handlers := hw.reads (f := fun w => w.handlers) fun _ _ => rfl
    have htarget : v.configuration.target = w.configuration.target :=
      hw.reads (f := fun w => w.configuration.target) fun _ _ => rfl
    refine .get hw ?_
    dsimp only
    rw [hhandlers, htarget]
    cases w.handlers.library.get? w.configuration.target with
    | some code => exact .map _ (.task htasks hw (.runSource code) hsite rfl rfl)
    | none => exact .map _ (.plain (.raise hw _))
  | inject code =>
    refine .get hw ?_
    exact .map _ (.task htasks hw (.injectInto code hw.home_global.symm) hsite rfl rfl)
  | injectLast code => exact absurd rfl (hunseen code)
  | runPrepared =>
    have hprepared : v.configuration.prepared = w.configuration.prepared :=
      hw.reads (f := fun w => w.configuration.prepared) fun _ _ => rfl
    refine .get hw ?_
    rw [hprepared]
    cases w.configuration.prepared with
    | none => exact .pure hw _
    | some operation => exact .map _ (.task htasks hw (.runProgram operation) hsite rfl rfl)
  | setTarget target =>
    refine .step ?_ (.unlessPending hw _ (hw.freshFrames target))
    rw [hw.process.isPending]
  | exit => exact .exiting true hw (.perform hw .exit s t)
  | _ => exact .plain (.perform hw _ s t)

end Plans

section Tasks

variable {d : Detour} {v w : World} {s t : Site} {n : Nat}

/-- A task that gives a result has steps. -/
theorem Task.exists_bound {α : Type} {a : Task α} {x : α} {w' : World}
    (h : a.run n w = .ok x w') : ∃ k, n = k + 1 := by
  cases n with
  | zero =>
    rw [Task.run_zero] at h
    cases h
  | succ k => exact ⟨k, rfl⟩

theorem runBlock_beside (htasks : Abreast d (Task.run n) (Task.log n)) (hw : v.Alike d w)
    (hsite : s.Beside d t) (body : List Statement) :
    Plan.Beside d (Task.run n) (Task.log n) (.runBlock body s) (.runBlock body t)
      (Task.runBlock body s).plan (Task.runBlock body t).plan v w := by
  cases body with
  | nil => exact .pure hw _
  | cons statement rest =>
    cases statement with
    | mk operation position =>
      refine .bind (.task htasks hw (.beginStatement position) hsite rfl rfl)
        fun _ v₁ w₁ h₁ hbegun => ?_
      refine .bind (.atLine position.line (.task htasks h₁ (.eval operation) hsite rfl rfl))
        fun _ v₂ w₂ h₂ _ => ?_
      by_cases hsame : v₂.isInterrupted s.frame = w₂.isInterrupted t.frame
      · refine .get h₂ ?_
        rw [hsame]
        split
        · exact .pure h₂ _
        · exact .task htasks h₂ (.runBlock rest) hsite rfl rfl
      · obtain ⟨hfork, hleft, hgoes, hlate⟩ := h₂.of_isInterrupted_ne hsite hsame
        intro hsmooth
        rw [Plan.log_get, hgoes] at hsmooth
        cases rest with
        | nil =>
          -- Nothing is left to do, so that the block on the detour ends as well.
          have hrun : (Task.beginStatement position t).run n w = .ok () w₁ := hbegun
          obtain ⟨k, rfl⟩ := Task.exists_bound hrun
          rw [Plan.log_get, Plan.log_get, Plan.carry_get, Plan.carry_get, hleft, hgoes]
          exact ⟨.cons (.moment rfl rfl h₂) (.cons (.moment rfl rfl h₂) .nil), .ok () h₂⟩
        | cons next rest =>
          have hnext : (t.frame = d.fork && w₂.isInterrupted d.frame) = false :=
            (List.isChain_cons_cons.1 hsmooth.onTime).1
          rw [hlate, decide_eq_true hfork] at hnext
          cases hnext

/-- Tasks run together, whatever the bound on nested steps. -/
theorem abreast (d : Detour) (n : Nat) : Abreast d (Task.run n) (Task.log n) := by
  induction n with
  | zero =>
    intro α s t a b v w hw hsite h hsmooth
    change Together d [] [] (a.run 0 v) (b.run 0 w)
    rw [Task.run_zero, Task.run_zero]
    exact ⟨.nil, .error _ hw⟩
  | succ n ih =>
    intro α s t a b v w hw hsite h
    have hplan : Plan.Beside d (Task.run n) (Task.log n) a b a.plan b.plan v w := by
      cases h with
      | eval o => exact eval_beside ih hw hsite o
      | evalList os done => exact evalList_beside ih hw hsite os done
      | evalEntries es done => exact evalEntries_beside ih hw hsite es done
      | walk chain origin => exact walk_beside ih hw hsite chain origin
      | walkKey key rest origin => exact walkKey_beside ih hw hsite key rest origin
      | runBlock body => exact runBlock_beside ih hw hsite body
      | runBranches branches => exact runBranches_beside ih hw hsite branches
      | runWhile own condition body => exact runWhile_beside ih hw hsite own condition body
      | runFor own items path origin body =>
        exact runFor_beside ih hw hsite own items path origin body
      | callFunction f receiver given => exact callFunction_beside ih hw hsite f receiver given
      | invoke f scope receiver given => exact invoke_beside ih hw f scope receiver given
      | bindParameters own parameters given =>
        exact bindParameters_beside ih hw hsite own parameters given
      | callBuiltin b a => exact callBuiltin_beside ih hw hsite b a
      | callEach f receiver items => exact callEach_beside ih hw hsite f receiver items
      | callFind f receiver items => exact callFind_beside ih hw hsite f receiver items
      | callMap f receiver items done => exact callMap_beside ih hw hsite f receiver items done
      | callReduce f receiver items done =>
        exact callReduce_beside ih hw hsite f receiver items done
      | callHost unseen a => exact callHost_beside ih hw hsite unseen a
      | beginStatement position => exact beginStatement_beside ih hw hsite position
      | pauseAt active position => exact pauseAt_beside ih hw hsite active position
      | injectInto code behind => exact injectInto_beside ih hw code behind
      | injectLast active code => exact injectLast_beside ih hw hsite active code
      | runProgram o => exact runProgram_beside ih hw o
      | runSource code => exact runSource_beside ih hw hsite code
      | perform unseen => exact perform_beside ih hw hsite unseen
    intro hsmooth
    have htogether := hplan hsmooth
    rw [← Task.run_succ, ← Task.run_succ] at htogether
    exact htogether

end Tasks

end Run

end LineScript
