import LineScript.Proofs.Run.Course
import LineScript.Session

/-!
# Histories of sessions

A host sets up a session and asks it for one thing after the other. A history lists all steps that
were taken on the way, those of a request that is not answered yet included. Main statement: every
history accounts for the standing of its session, from one in which nothing runs and the table is
empty.
-/

namespace LineScript

open Run

/-- The steps of a session so far and the world behind them, when all requests are answered. -/
inductive Session (s : Setup) (definitions : List (String × Description)) :
    List Moment → World → Prop where
  | start : Session s definitions [] (World.initial s definitions)
  | ask {ms : List Moment} {w w' : World} {n : Nat} {r : Request} {a : Answer}
      (earlier : Session s definitions ms w) (answered : w.answer n r = some (a, w')) :
      Session s definitions (ms ++ (Task.perform r w.hostSite).course n w) w'

/-- The steps of a session up to some step of its last request. -/
def IsHistory (s : Setup) (definitions : List (String × Description)) (ms : List Moment) : Prop :=
  ∃ earlier w r n, Session s definitions earlier w ∧
    ms = earlier ++ (Task.perform r w.hostSite).course n w

/-- What a host sets up that has no files, no arguments and nothing to say about pauses. -/
def Setup.plain : Setup := ⟨"main", [], .standard, Request.standardHandlers, .standard, default⟩

/-- The table of a host that has a function which ends the run, and one which asks the session for
something in the middle of it. -/
def callbacks : List (String × Description) :=
  [("stop", .function "stop" [] .stop),
   ("sys", .function "sys" [("a", .nil), ("b", .nil)] .request)]

/-- The standing of a session that was just set up. -/
def World.Standing.first : World.Standing := ⟨false, false, .empty⟩

namespace World

/-- Nothing is kept in a world without objects. -/
theorem closed_of_empty {w : World} (hlists : w.lists = .empty) (hmaps : w.maps = .empty)
    (hfunctions : w.functions = .empty) (hinterfaces : w.interfaces = .empty)
    (hframes : w.frames = .empty) (hactive : w.process.lastActive = none)
    (htable : w.configuration.table = []) : w.Closed := by
  have hframe : ∀ r, w.frame? r = none := by
    intro r
    rw [frame?, hframes]
    rfl
  refine ⟨⟨?_, ?_, ?_⟩, ?_, ?_, ?_⟩
  · intro r f hf
    cases (hframe r).symm.trans hf
  · intro r f hf
    cases (hframe r).symm.trans hf
  · intro r _ f _ hf
    cases (hframe r).symm.trans hf
  · intro v hv
    cases hv with
    | element hv =>
      rw [elements, hlists] at hv
      cases hv
    | entry hv =>
      rw [contents, hmaps] at hv
      cases hv
    | default hi =>
      rw [hfunctions] at hi
      cases hi
    | member hi =>
      rw [hinterfaces] at hi
      cases hi
    | result hf => cases (hframe _).symm.trans hf
    | table hv =>
      rw [htable] at hv
      cases hv
  · intro i d r hi
    rw [hfunctions] at hi
    cases hi
  · intro r hr
    cases hactive.symm.trans hr

theorem bare_sealed (s : Setup) : (bare s).Sealed false ∧ (bare s).standing = .first := by
  obtain ⟨w, hclosed, hbare, hidle⟩ : ∃ w : World, w.Closed ∧
      bare s = freshFrames s.target w ∧ w.process = ⟨false, false, none⟩ := by
    refine ⟨_, ?_, rfl, rfl⟩
    exact closed_of_empty rfl rfl rfl rfl rfl rfl rfl
  obtain ⟨hsealed, -, htable, hprocess⟩ :=
    freshFrames_sealed hclosed (congrArg Process.isPending hidle) s.target
  rw [hbare]
  refine ⟨hsealed, ?_⟩
  rw [standing, htable, hprocess, hidle]
  rfl

theorem initial_sealed (s : Setup) (definitions : List (String × Description)) :
    (initial s definitions).Sealed false ∧ (initial s definitions).standing = .first := by
  obtain ⟨hbare, hfirst⟩ := bare_sealed s
  have hnone : (bare s).AdmitsAll (([] : List (String × Value)).map (·.2)) := .nil
  obtain ⟨hmade, hentries⟩ := makeEntries_inert hbare hnone definitions
  have hset : Inert false (makeEntries [] definitions (bare s)).2 (initial s definitions) := by
    apply Inert.setTable hmade.isSealed
    intro v hv
    exact hentries v (OrderedMap.mem_values_ofList hv)
  exact ⟨hset.isSealed, (hmade.trans hset).standing.trans hfirst⟩

/-- An answered request leaves the session in order, and its steps account for what it did. What the
host is told is no longer kept, which changes nothing else. -/
theorem answer_inert {w w' : World} {n : Nat} {r : Request} {a : Answer} (hw : w.Sealed false)
    (h : w.answer n r = some (a, w')) :
    w'.Sealed false ∧
      Account w.standing ((Task.perform r w.hostSite).course n w) w'.standing := by
  have hsafe := trusted n (.perform r w.hostSite) hw trivial
  have hlands : Lands false w (fun _ _ => True) (Run.perform n r w.hostSite w) := hsafe.lands
  have haccount : Account w.standing ((Task.perform r w.hostSite).course n w)
      (reached (Run.perform n r w.hostSite w)).standing := hsafe.account
  unfold answer at h
  split at h
  next reply w₁ hrun =>
    cases h
    rw [hrun] at hlands haccount
    have htaken : Inert false w₁
        { w₁ with printed := [], debugger := { w₁.debugger with pauses := [] } } :=
      .aside hlands.1
    refine ⟨htaken.isSealed, ?_⟩
    change Account _ _ ({ w₁ with
      printed := [], debugger := { w₁.debugger with pauses := [] } } : World).standing
    rw [htaken.standing]
    exact haccount
  · cases h

theorem perform_inRun {w : World} (n : Nat) (r : Request) (hw : w.Sealed false) :
    ∀ m ∈ (Task.perform r w.hostSite).course n w, m.world.process.isPending = m.inRun := by
  intro m hm
  have hrunning := (trusted n (.perform r w.hostSite) hw trivial).inRun m hm
  rwa [Bool.false_or] at hrunning

end World

namespace Session

variable {s : Setup} {definitions : List (String × Description)} {ms : List Moment} {w : World}

/-- All requests answered, nothing in a session refers to a table, and no run is under way. -/
theorem sealed (h : Session s definitions ms w) : w.Sealed false := by
  induction h with
  | start => exact (World.initial_sealed s definitions).1
  | @ask ms w w' n r a _ answered ih => exact (World.answer_inert ih answered).1

/-- The steps of a session account for its standing. -/
theorem account (h : Session s definitions ms w) : Account .first ms w.standing := by
  induction h with
  | start =>
    rw [(World.initial_sealed s definitions).2]
    exact .nil _
  | @ask ms w w' n r a earlier answered ih =>
    exact ih.append (World.answer_inert earlier.sealed answered).2

/-- A run is under way in the steps of programs and in no others. -/
theorem inRun (h : Session s definitions ms w) :
    ∀ m ∈ ms, m.world.process.isPending = m.inRun := by
  induction h with
  | start =>
    intro m hm
    cases hm
  | @ask ms w w' n r a earlier answered ih =>
    intro m hm
    rcases List.mem_append.1 hm with hm | hm
    · exact ih m hm
    · exact World.perform_inRun n r earlier.sealed m hm

end Session

/-- The steps that a list of requests takes and the world behind them, if all are answered. -/
def World.replay (n : Nat) : List Request → World → Option (List Moment × World)
  | [], w => some ([], w)
  | r :: rs, w =>
    match w.answer n r with
    | some (_, w') =>
      (World.replay n rs w').map fun p => ((Task.perform r w.hostSite).course n w ++ p.1, p.2)
    | none => none

/-- A session may go on with a list of requests that are all answered. -/
theorem Session.replay {s : Setup} {definitions : List (String × Description)}
    {ms ns : List Moment} {w w' : World} {n : Nat} {rs : List Request}
    (h : Session s definitions ms w) (hreplay : w.replay n rs = some (ns, w')) :
    Session s definitions (ms ++ ns) w' := by
  induction rs generalizing ms ns w with
  | nil =>
    cases hreplay
    rw [List.append_nil]
    exact h
  | cons r rs ih =>
    rw [World.replay] at hreplay
    split at hreplay
    next a w₁ hanswer =>
      obtain ⟨p, hp, heq⟩ := Option.map_eq_some_iff.1 hreplay
      cases heq
      rw [← List.append_assoc]
      exact ih (h.ask hanswer) hp
    · cases hreplay

namespace IsHistory

variable {s : Setup} {definitions : List (String × Description)} {ms : List Moment}

/-- The history of a session whose first request is not answered yet. -/
theorem of_first (r : Request) (n : Nat) : IsHistory s definitions
    ((Task.perform r (World.initial s definitions).hostSite).course n
      (World.initial s definitions)) :=
  ⟨[], World.initial s definitions, r, n, .start, (List.nil_append _).symm⟩

theorem account (h : IsHistory s definitions ms) : ∃ last, Account .first ms last := by
  obtain ⟨earlier, w, r, n, hearlier, rfl⟩ := h
  have hsafe := trusted n (.perform r w.hostSite) hearlier.sealed trivial
  exact ⟨_, hearlier.account.append hsafe.account⟩

theorem inRun (h : IsHistory s definitions ms) :
    ∀ m ∈ ms, m.world.process.isPending = m.inRun := by
  obtain ⟨earlier, w, r, n, hearlier, rfl⟩ := h
  intro m hm
  rcases List.mem_append.1 hm with hm | hm
  · exact hearlier.inRun m hm
  · exact World.perform_inRun n r hearlier.sealed m hm

end IsHistory

end LineScript
