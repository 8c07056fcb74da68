import LineScript.Proofs.Run.Log
import LineScript.Proofs.Session.Exit

/-!
# What still begins in a run that was asked to end

A run that is asked to end is not told so when it enters a block: the block begins its first
statement and finds out behind it. Main statement: from the step on with which a run was asked to
end, the statements that begin are the first ones of the blocks that are entered, no block goes on
and no loop goes into another round. So nothing begins just if all blocks that are still entered are
empty.
-/

namespace LineScript

open Run

namespace Run

/-- Whether another run begins. -/
def Note.beginsRun : Note → Bool
  | .moment m => m.event == some .began
  | _ => false

/-- What is told before another run begins. -/
def beforeNextRun (log : List Note) : List Note := log.takeWhile fun note => !note.beginsRun

theorem beforeNextRun_moment (m : Moment) (log : List Note) :
    beforeNextRun (.moment m :: log) =
      if m.event = some .began then [] else .moment m :: beforeNextRun log := by
  unfold beforeNextRun
  rw [List.takeWhile_cons]
  simp only [Note.beginsRun]
  by_cases h : m.event = some .began <;> simp [h]

/-- A run that was asked to end stays so in all that is told before another run begins. -/
theorem Account.isExit_beforeNextRun {s s' : World.Standing} {log : List Note}
    (h : Account s (log.filterMap Note.moment?) s') (hexit : s.isExit = true) {m : Moment}
    (hm : .moment m ∈ beforeNextRun log) : m.world.process.isExit = true := by
  induction log generalizing s with
  | nil => cases hm
  | cons note log ih =>
    cases note with
    | moment m' =>
      rw [beforeNextRun_moment] at hm
      split at hm
      · cases hm
      next hquiet =>
        cases h with
        | cons _ here rest =>
          have hstays : m'.world.standing.isExit = true := by
            rw [here, Moment.isExit_after, Moment.exits]
            split
            next hbegan => exact absurd hbegan hquiet
            · rfl
            · exact hexit
          rcases List.mem_cons.1 hm with hm | hm
          · cases hm
            exact hstays
          · exact ih rest hstays hm
    | _ =>
      rcases List.mem_cons.1 hm with hm | hm
      · cases hm
      · exact ih h hexit hm

namespace Heeding

variable {log : List Note}

theorem beforeNextRun (h : Heeding log) : Heeding (Run.beforeNextRun log) := by
  induction h with
  | nil => exact .nil
  | step m _ ih =>
    rw [beforeNextRun_moment]
    split
    · exact .nil
    · exact .step m ih
  | looked _ ih => exact .looked ih
  | empty frame _ ih => exact .empty frame ih
  | enter frame s body _ ih => exact .enter frame s body ih
  | goOn goes s _ ih =>
    rw [beforeNextRun_moment]
    split
    · exact .nil
    · exact .goOn goes s ih
  | again goes _ ih =>
    rw [beforeNextRun_moment]
    split
    · exact .nil
    · exact .again goes ih

/-- Once the run was asked to end, statements begin only where blocks are entered. -/
theorem statementsBegun_eq (h : Heeding log)
    (hexit : ∀ m, .moment m ∈ log → m.world.process.isExit = true) :
    statementsBegun log = (blocksEntered log).filterMap List.head? ∧ .again ∉ log := by
  induction h with
  | nil => exact ⟨rfl, List.not_mem_nil⟩
  | step m _ ih =>
    obtain ⟨hbegun, hagain⟩ := ih fun m' hm' => hexit m' (List.mem_cons_of_mem _ hm')
    exact ⟨hbegun, by simpa using hagain⟩
  | looked _ ih =>
    obtain ⟨hbegun, hagain⟩ := ih fun m' hm' => hexit m' (List.mem_cons_of_mem _ hm')
    exact ⟨hbegun, by simpa using hagain⟩
  | empty frame _ ih =>
    obtain ⟨hbegun, hagain⟩ := ih fun m' hm' => hexit m' (List.mem_cons_of_mem _ hm')
    exact ⟨hbegun, by simpa using hagain⟩
  | enter frame s body _ ih =>
    obtain ⟨hbegun, hagain⟩ := ih fun m' hm' =>
      hexit m' (List.mem_cons_of_mem _ (List.mem_cons_of_mem _ hm'))
    exact ⟨congrArg (s :: ·) hbegun, by simpa using hagain⟩
  | goOn goes s _ _ => cases (isExit_of_goesOn goes).symm.trans (hexit _ List.mem_cons_self)
  | again goes _ _ => cases goes.symm.trans (hexit _ List.mem_cons_self)

end Heeding

end Run

variable {s : Setup} {definitions : List (String × Description)} {earlier : List Moment} {w : World}

/-- What begins from the step on with which a run was asked to end. -/
theorem Session.exit_heeded (h : Session s definitions earlier w) (n : Nat) (r : Request)
    {before after : List Note} {m : Moment}
    (hlog : (Task.perform r w.hostSite).log n w = before ++ .moment m :: after)
    (hexit : m.world.process.isExit = true) :
    (∀ m', .moment m' ∈ beforeNextRun after → m'.world.process.isExit = true) ∧
    statementsBegun (beforeNextRun after) =
      (blocksEntered (beforeNextRun after)).filterMap List.head? ∧
    .again ∉ beforeNextRun after ∧
    (statementsBegun (beforeNextRun after) = [] ↔
      ∀ body ∈ blocksEntered (beforeNextRun after), body = []) := by
  have haccount : Account w.standing ((Task.perform r w.hostSite).course n w) _ :=
    (trusted n (.perform r w.hostSite) h.sealed trivial).account
  rw [← Task.moments_log, hlog, List.filterMap_append] at haccount
  obtain ⟨_, -, hbehind⟩ := haccount.split
  have hmoments : ∀ m', .moment m' ∈ beforeNextRun after → m'.world.process.isExit = true := by
    cases hbehind with
    | cons _ _ rest => exact fun m' hm' => rest.isExit_beforeNextRun hexit hm'
  have hheeds := Task.log_heeding n (.perform r w.hostSite) w
  rw [hlog] at hheeds
  have hrest : Heeding (beforeNextRun after) := (hheeds.fromMoment.ofExit hexit).beforeNextRun
  obtain ⟨hbegun, hagain⟩ := hrest.statementsBegun_eq hmoments
  refine ⟨hmoments, hbegun, hagain, ?_⟩
  rw [hbegun, List.filterMap_eq_nil_iff]
  simp only [List.head?_eq_none_iff]

/-- A run that is asked to end in the condition of a branch. -/
def stopInCondition : Request := .run "if not stop() then\nprint(1)\nend if"

/-- What is told of that run, as the first of a session. -/
def stopInConditionLog : List Note :=
  (Task.perform stopInCondition (World.initial .plain callbacks).hostSite).log 20
    (World.initial .plain callbacks)

/-- Whether a step is taken in a run that was asked to end. -/
def Run.Note.isExit : Note → Bool
  | .moment m => m.world.process.isExit
  | _ => false

/-- The branch is still entered, and its statement begins. -/
theorem Session.exit_heeded_stopInCondition : ∃ before m after,
    stopInConditionLog = before ++ .moment m :: after ∧ m.world.process.isExit = true ∧
    (statementsBegun (beforeNextRun after)).length = 1 ∧
    ∃ body ∈ blocksEntered (beforeNextRun after), body ≠ [] := by
  have hexits : (stopInConditionLog.dropWhile fun note => !note.isExit).head?.map Note.isExit =
      some true := by decide +kernel
  have hbegun : (statementsBegun (beforeNextRun
      (stopInConditionLog.dropWhile fun note => !note.isExit).tail)).length = 1 := by
    decide +kernel
  have hsplit := List.takeWhile_append_dropWhile (p := fun note => !note.isExit)
    (l := stopInConditionLog)
  match hrest : stopInConditionLog.dropWhile (fun note => !note.isExit) with
  | [] =>
    rw [hrest] at hexits
    cases hexits
  | note :: after =>
    rw [hrest] at hexits hbegun hsplit
    cases note with
    | moment m =>
      have hexit : m.world.process.isExit = true := Option.some.inj hexits
      obtain ⟨-, -, -, hiff⟩ := Session.exit_heeded .start 20 stopInCondition hsplit.symm hexit
      refine ⟨_, m, after, hsplit.symm, hexit, hbegun, ?_⟩
      by_contra hnone
      simp only [not_exists, not_and, not_not] at hnone
      rw [List.tail_cons, hiff.2 hnone] at hbegun
      cases hbegun
    | _ => cases hexits

end LineScript
