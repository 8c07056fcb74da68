import LineScript.Proofs.Run.Plan

/-!
# The log of a run

The course of a task lists its single steps. Its log tells in between which blocks are entered,
which statements begin and which loops go on to another round. Main statement: in every log a block
that is entered begins its first statement at once, and a block goes on to its next statement, or a
loop to its next round, only behind a step that leaves a world in which the run was not asked to
end.
-/

namespace LineScript

namespace Run

/-- Whether what is left of a block is run. -/
def Task.isBlock {α : Type} : Task α → Bool
  | .runBlock _ _ => true
  | _ => false

/-- Whether what is left of a loop is run, from its next round on. -/
def Task.isLoop {α : Type} : Task α → Bool
  | .runWhile _ _ _ => true
  | .runFor _ _ _ _ _ => true
  | _ => false

/-- What is told of a run. -/
inductive Note where
  /-- A single step is taken. -/
  | moment (m : Moment)
  /-- A block is entered in a frame: a program, a branch, a round of a loop or the body of a
  function. -/
  | entered (frame : FrameRef) (body : List Statement)
  /-- A statement of a block begins. -/
  | begun (frame : FrameRef) (statement : Statement)
  /-- A loop goes on to another round. -/
  | again
  /-- The host looks at the frame that it is called from, or at the one that was active last. -/
  | looked

namespace Note

/-- The step that is taken, if one is. -/
def moment? : Note → Option Moment
  | .moment m => some m
  | _ => none

/-- The statements of the block that is entered, if one is. -/
def entered? : Note → Option (List Statement)
  | .entered _ body => some body
  | _ => none

/-- The statement that begins, if one does. -/
def begun? : Note → Option Statement
  | .begun _ statement => some statement
  | _ => none

/-- The note as one of a program that runs. -/
def within : Note → Note
  | .moment m => .moment m.within
  | note => note

/-- What is told when a task calls for another. Blocks and loops call for what is left of them. -/
def ofCall {α β : Type} (caller : Task α) : Task β → List Note
  | .runBlock body site =>
    (if caller.isBlock then [] else [entered site.frame body]) ++
      body.head?.toList.map (begun site.frame)
  | .runWhile _ _ _ => if caller.isLoop then [again] else []
  | .runFor (_ :: _) _ _ _ _ => if caller.isLoop then [again] else []
  | .callHost .location _ _ => [looked]
  | .perform (.injectLast _) _ => [looked]
  | _ => []

end Note

/-- The log of a plan of a task, given what the tasks in it do and what is told of them. -/
def Plan.log {γ : Type} (caller : Task γ) (run : ∀ {α : Type}, Task α → Run α)
    (below : ∀ {α : Type}, Task α → World → List Note) : {α : Type} → Plan α → World → List Note
  | _, .step event x, w => [.moment ⟨event w, false, reached (x w)⟩]
  | _, .task t, w => Note.ofCall caller t ++ below t w
  | _, .bind p k, w =>
    p.log caller run below w ++
      match p.carry run w with
      | .ok a w' => (k a).log caller run below w'
      | .error _ _ => []
  | _, .attempt p, w => p.log caller run below w
  | _, .atLine _ p, w => p.log caller run below w
  | _, .inRun p, w => (p.log caller run below w).map Note.within

/-- The log of a task from a world. -/
def Task.log : Nat → {α : Type} → Task α → World → List Note
  | 0, _, _, _ => []
  | n + 1, _, t, w => t.plan.log t (Task.run n) (Task.log n) w

/-- The statements that begin, in their order. -/
def statementsBegun (log : List Note) : List Statement := log.filterMap Note.begun?

/-- The blocks that are entered, in their order. -/
def blocksEntered (log : List Note) : List (List Statement) := log.filterMap Note.entered?

section Moments

variable {α β γ : Type}

theorem Note.moment?_ofCall (caller : Task α) (t : Task β) :
    (Note.ofCall caller t).filterMap Note.moment? = [] := by
  cases t with
  | runBlock body site =>
    cases hblock : caller.isBlock <;> cases body <;> simp [ofCall, moment?, hblock]
  | runWhile condition body site => cases hloop : caller.isLoop <;> simp [ofCall, moment?, hloop]
  | runFor items path origin body site =>
    cases items with
    | nil => rfl
    | cons item rest => cases hloop : caller.isLoop <;> simp [ofCall, moment?, hloop]
  | callHost action a site => cases action <;> rfl
  | perform request site => cases request <;> rfl
  | _ => rfl

theorem Note.moment?_within (log : List Note) :
    (log.map Note.within).filterMap Note.moment? =
      (log.filterMap Note.moment?).map Moment.within := by
  induction log with
  | nil => rfl
  | cons note log ih =>
    cases note with
    | moment m => exact congrArg (m.within :: ·) ih
    | _ => exact ih

theorem Plan.moments_log (caller : Task γ) {run : ∀ {α : Type}, Task α → Run α}
    {below : ∀ {α : Type}, Task α → World → List Note}
    {course : ∀ {α : Type}, Task α → World → List Moment}
    (hbelow : ∀ {α : Type} (t : Task α) (w : World),
      (below t w).filterMap Note.moment? = course t w) (p : Plan α) (w : World) :
    (p.log caller run below w).filterMap Note.moment? = p.course run course w := by
  induction p generalizing w with
  | step event x => rfl
  | task t =>
    rw [Plan.log, Plan.course, List.filterMap_append, Note.moment?_ofCall, hbelow]
    rfl
  | bind p k hp hk =>
    rw [Plan.log, Plan.course, List.filterMap_append, hp]
    cases p.carry run w with
    | ok a w' => exact congrArg (_ ++ ·) (hk a w')
    | error e w' => rfl
  | attempt p hp => exact hp w
  | atLine line p hp => exact hp w
  | inRun p hp => rw [Plan.log, Plan.course, Note.moment?_within, hp]

/-- The steps that are told of are the course of the task. -/
theorem Task.moments_log (n : Nat) (t : Task α) (w : World) :
    (t.log n w).filterMap Note.moment? = t.course n w := by
  induction n generalizing α w with
  | zero => rfl
  | succ n ih => exact Plan.moments_log t (fun t w => ih t w) t.plan w

end Moments

theorem isExit_of_goesOn {w : World} {r : FrameRef} (h : w.isInterrupted r = false) :
    w.process.isExit = false := by
  unfold World.isInterrupted at h
  split at h
  · exact h
  · exact (Bool.or_eq_false_iff.1 h).1

theorem isExit_of_staysInLoop {w : World} {r : FrameRef} (h : w.leavesLoop r = false) :
    w.process.isExit = false := by
  unfold World.leavesLoop at h
  split at h
  · cases h
  · exact (Bool.or_eq_false_iff.1 (Bool.or_eq_false_iff.1 h).1).2

/-- A log in which nothing goes on that was left: a block that is entered begins its first statement
at once, and all else that begins stands behind a step that leaves a world in which it goes on. -/
inductive Heeding : List Note → Prop where
  | nil : Heeding []
  | step (m : Moment) {log : List Note} (rest : Heeding log) : Heeding (.moment m :: log)
  | looked {log : List Note} (rest : Heeding log) : Heeding (.looked :: log)
  | empty (frame : FrameRef) {log : List Note} (rest : Heeding log) :
      Heeding (.entered frame [] :: log)
  | enter (frame : FrameRef) (s : Statement) (body : List Statement) {log : List Note}
      (rest : Heeding log) : Heeding (.entered frame (s :: body) :: .begun frame s :: log)
  | goOn {m : Moment} {frame : FrameRef} (goes : m.world.isInterrupted frame = false)
      (s : Statement) {log : List Note} (rest : Heeding log) :
      Heeding (.moment m :: .begun frame s :: log)
  | again {m : Moment} (goes : m.world.process.isExit = false) {log : List Note}
      (rest : Heeding log) : Heeding (.moment m :: .again :: log)

namespace Heeding

variable {log log' : List Note}

theorem append (h : Heeding log) (h' : Heeding log') : Heeding (log ++ log') := by
  induction h with
  | nil => exact h'
  | step m _ ih => exact .step m ih
  | looked _ ih => exact .looked ih
  | empty frame _ ih => exact .empty frame ih
  | enter frame s body _ ih => exact .enter frame s body ih
  | goOn goes s _ ih => exact .goOn goes s ih
  | again goes _ ih => exact .again goes ih

theorem within (h : Heeding log) : Heeding (log.map Note.within) := by
  induction h with
  | nil => exact .nil
  | step m _ ih => exact .step m.within ih
  | looked _ ih => exact .looked ih
  | empty frame _ ih => exact .empty frame ih
  | enter frame s body _ ih => exact .enter frame s body ih
  | @goOn m frame goes s log _ ih => exact .goOn (m := m.within) goes s ih
  | @again m goes log _ ih => exact .again (m := m.within) goes ih

/-- What is told from a step on. -/
theorem fromMoment {before after : List Note} {m : Moment}
    (h : Heeding (before ++ .moment m :: after)) : Heeding (.moment m :: after) := by
  generalize hlog : before ++ .moment m :: after = log at h
  induction h generalizing before with
  | nil => simp at hlog
  | step m' rest ih =>
    cases before with
    | nil =>
      cases hlog
      exact .step _ rest
    | cons note before =>
      cases hlog
      exact ih rfl
  | looked rest ih =>
    cases before with
    | nil => cases hlog
    | cons note before =>
      cases hlog
      exact ih rfl
  | empty frame rest ih =>
    cases before with
    | nil => cases hlog
    | cons note before =>
      cases hlog
      exact ih rfl
  | enter frame s body rest ih =>
    match before, hlog with
    | [], hlog => cases hlog
    | [_], hlog => cases hlog
    | _ :: _ :: before, hlog =>
      cases hlog
      exact ih rfl
  | goOn goes s rest ih =>
    match before, hlog with
    | [], hlog =>
      cases hlog
      exact .goOn goes s rest
    | [_], hlog => cases hlog
    | _ :: _ :: before, hlog =>
      cases hlog
      exact ih rfl
  | again goes rest ih =>
    match before, hlog with
    | [], hlog =>
      cases hlog
      exact .again goes rest
    | [_], hlog => cases hlog
    | _ :: _ :: before, hlog =>
      cases hlog
      exact ih rfl

/-- Behind a step with which the run was asked to end, nothing goes on. -/
theorem ofExit {m : Moment} (h : Heeding (.moment m :: log))
    (hexit : m.world.process.isExit = true) : Heeding log := by
  cases h with
  | step _ rest => exact rest
  | goOn goes s rest => cases hexit.symm.trans (isExit_of_goesOn goes)
  | again goes rest => cases hexit.symm.trans goes

end Heeding

section Tasks

variable {α β γ : Type} {caller : Task γ} {run : ∀ {α : Type}, Task α → Run α}
  {below : ∀ {α : Type}, Task α → World → List Note} {w : World}

theorem Note.ofCall_heeding (hblock : caller.isBlock = false) (hloop : caller.isLoop = false)
    (t : Task α) : Heeding (Note.ofCall caller t) := by
  cases t with
  | runBlock body site =>
    rw [Note.ofCall, hblock]
    cases body with
    | nil => exact .empty _ .nil
    | cons s rest => exact .enter _ s rest .nil
  | runWhile condition body site =>
    rw [Note.ofCall, hloop]
    exact .nil
  | runFor items path origin body site =>
    cases items with
    | nil => exact .nil
    | cons item rest =>
      rw [Note.ofCall, hloop]
      exact .nil
  | callHost action a site => cases action <;> first | exact .nil | exact .looked .nil
  | perform request site => cases request <;> first | exact .nil | exact .looked .nil
  | _ => exact .nil

theorem Plan.log_get (k : World → Plan β) :
    (plain get >>= k).log caller run below w =
      .moment ⟨none, false, w⟩ :: (k w).log caller run below w := rfl

theorem Plan.heeding_bind {p : Plan α} {k : α → Plan β}
    (hp : Heeding (p.log caller run below w))
    (hk : ∀ a w', Heeding ((k a).log caller run below w')) :
    Heeding ((p >>= k).log caller run below w) := by
  change Heeding ((p.bind k).log caller run below w)
  rw [Plan.log]
  refine hp.append ?_
  cases p.carry run w with
  | ok a w' => exact hk a w'
  | error e w' => exact .nil

variable (hbelow : ∀ {α : Type} (t : Task α) (w : World), Heeding (below t w))

include hbelow

/-- A plan heeds that the run was asked to end if all that its task calls for is newly entered. -/
theorem Plan.log_heeding (hblock : caller.isBlock = false) (hloop : caller.isLoop = false)
    (p : Plan α) (w : World) : Heeding (p.log caller run below w) := by
  induction p generalizing w with
  | step event x => exact .step _ .nil
  | task t => exact (Note.ofCall_heeding hblock hloop t).append (hbelow t w)
  | bind p k hp hk => exact Plan.heeding_bind (hp w) hk
  | attempt p hp => exact hp w
  | atLine line p hp => exact hp w
  | inRun p hp => exact (hp w).within

theorem runBlock_heeding (body : List Statement) (site : Site) :
    Heeding ((Task.runBlock body site).plan.log (.runBlock body site) run below w) := by
  match body with
  | [] => exact .step _ .nil
  | .mk operation position :: rest =>
    refine Plan.heeding_bind (hbelow _ w) fun _ w' => ?_
    refine Plan.heeding_bind (hbelow _ w') fun _ w'' => ?_
    rw [Plan.log_get]
    cases hgoes : w''.isInterrupted site.frame with
    | true => exact .step _ (.step _ .nil)
    | false =>
      have hbegins := hbelow (.runBlock rest site) w''
      match rest with
      | [] => exact .step _ hbegins
      | s :: _ => exact .goOn hgoes s hbegins

theorem runWhile_heeding (condition : Operation) (body : List Statement) (site : Site) :
    Heeding ((Task.runWhile condition body site).plan.log (.runWhile condition body site) run below
      w) := by
  refine Plan.heeding_bind (hbelow _ w) fun c w' => ?_
  rw [Plan.log_get]
  cases w'.truthy c with
  | false => exact .step _ (.step _ .nil)
  | true =>
    refine .step _ (Plan.heeding_bind (.step _ .nil) fun _ w₁ => ?_)
    have hround : Heeding (Note.ofCall (.runWhile condition body site) (.runBlock body site)) := by
      cases body with
      | nil => exact .empty _ .nil
      | cons s rest => exact .enter _ s rest .nil
    refine Plan.heeding_bind (hround.append (hbelow _ w₁)) fun _ w₂ => ?_
    rw [Plan.log_get]
    cases hgoes : w₂.leavesLoop site.frame with
    | true => exact .step _ (.step _ .nil)
    | false => exact .again (isExit_of_staysInLoop hgoes) (hbelow _ w₂)

theorem runFor_heeding (items : List World.Item) (path : Path) (origin : Option Value)
    (body : List Statement) (site : Site) :
    Heeding ((Task.runFor items path origin body site).plan.log
      (.runFor items path origin body site) run below w) := by
  match items with
  | [] => exact .step _ .nil
  | item :: rest =>
    refine Plan.heeding_bind (.step _ .nil) fun _ w₁ => ?_
    refine Plan.heeding_bind (.step _ .nil) fun x w₂ => ?_
    refine Plan.heeding_bind (.step _ .nil) fun _ w₃ => ?_
    have hround : Heeding (Note.ofCall (.runFor (item :: rest) path origin body site)
        (.runBlock body (site.hold (rest.map (·.held))))) := by
      cases body with
      | nil => exact .empty _ .nil
      | cons s rest => exact .enter _ s rest .nil
    refine Plan.heeding_bind (hround.append (hbelow _ w₃)) fun _ w₄ => ?_
    rw [Plan.log_get]
    cases hgoes : w₄.leavesLoop site.frame with
    | true => exact .step _ (.step _ .nil)
    | false =>
      have hrest := hbelow (.runFor rest path origin body site) w₄
      match rest with
      | [] => exact .step _ hrest
      | _ :: _ => exact .again (isExit_of_staysInLoop hgoes) hrest

end Tasks

/-- Every task heeds that the run was asked to end, whatever the bound on nested steps. -/
theorem Task.log_heeding {α : Type} (n : Nat) (t : Task α) (w : World) : Heeding (t.log n w) := by
  induction n generalizing α w with
  | zero => exact .nil
  | succ n ih =>
    cases t with
    | runBlock body site => exact runBlock_heeding ih body site
    | runWhile condition body site => exact runWhile_heeding ih condition body site
    | runFor items path origin body site => exact runFor_heeding ih items path origin body site
    | _ => exact Plan.log_heeding ih rfl rfl _ w

end Run

end LineScript
