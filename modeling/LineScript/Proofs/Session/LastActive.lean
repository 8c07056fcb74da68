import LineScript.Proofs.Session.Injection

/-!
# Where a run is taken to be

A session records the frame in which a statement was begun last, for code that is to be injected
where the run is. Every statement of a function that is called writes the record, and nothing
restores it when the function is left. So in the middle of a statement the record names the frame of
the statement that was noted last. That is the one that the code runs in only as long as nothing was
called that noted statements elsewhere. Main statement: what the record names at each call that a
statement makes, and what becomes of code that is injected there.
-/

namespace LineScript

open Run

namespace Run

/-- The frame of the statement that is noted last among calls, or the one recorded before them. -/
def lastNoted (last : Option FrameRef) (cs : List Call) : Option FrameRef :=
  (cs.filterMap Call.noted?).getLast?.or last

/-- Calls that each begin while the record names the frame of the statement noted last. -/
def Traced (last : Option FrameRef) (cs : List Call) : Prop :=
  ∀ before c after, cs = before ++ c :: after →
    c.world.process.lastActive = lastNoted last before

/-- From one world to another the record is written by the statements noted among calls, and by
nothing else. -/
structure Records (w w' : World) (cs : List Call) : Prop where
  along : Traced w.process.lastActive cs
  behind : w'.process.lastActive = lastNoted w.process.lastActive cs

section Records

variable {last : Option FrameRef} {cs ds : List Call} {w w' w'' : World}

theorem lastNoted_append (last : Option FrameRef) (cs ds : List Call) :
    lastNoted last (cs ++ ds) = lastNoted (lastNoted last cs) ds := by
  simp [lastNoted, List.getLast?_append, Option.or_assoc]

theorem Traced.append (h : Traced last cs) (h' : Traced (lastNoted last cs) ds) :
    Traced last (cs ++ ds) := by
  intro before c after heq
  rcases List.append_eq_append_iff.1 heq with ⟨front, rfl, hds⟩ | ⟨back, hcs, hback⟩
  · rw [lastNoted_append]
    exact h' front c after hds
  · cases back with
    | nil =>
      rw [List.append_nil] at hcs
      subst hcs
      exact h' [] c after hback.symm
    | cons b back =>
      cases hback
      exact h before c back hcs

theorem Records.none (h : w'.process.lastActive = w.process.lastActive) : Records w w' [] where
  along before c after heq := by simp at heq
  behind := h

theorem Records.append (h : Records w w' cs) (h' : Records w' w'' ds) :
    Records w w'' (cs ++ ds) where
  along := h.along.append (h.behind ▸ h'.along)
  behind := by rw [lastNoted_append, ← h.behind, h'.behind]

/-- A call in front of those that it makes once it has written the record itself. -/
theorem Records.cons {c : Call} (h : Records w w' cs)
    (hc : w.process.lastActive = lastNoted c.world.process.lastActive [c]) :
    Records c.world w' (c :: cs) := by
  have hfirst : Records c.world w [c] := by
    refine ⟨fun before d after heq => ?_, hc⟩
    obtain ⟨rfl, rfl, rfl⟩ : before = [] ∧ c = d ∧ after = [] := by
      cases before <;> simp_all
    rfl
  exact hfirst.append h

theorem lastNoted_of_none {c : Call} (hc : c.noted? = Option.none) : lastNoted last [c] = last := by
  simp [lastNoted, hc]

theorem lastNoted_of_noted {c : Call} {r : FrameRef} (hc : c.noted? = some r) :
    lastNoted last [c] = some r := by
  simp [lastNoted, hc]

end Records

section Plans

variable {α : Type} {run : ∀ {α : Type}, Task α → Run α} {w : World}

/-- A plan whose steps settle writes the record by its tasks only. -/
theorem Plan.All.records {below : ∀ {α : Type}, Task α → World → List Call} {p : Plan α}
    (hp : p.All Settles fun _ => True)
    (hasks : p.Asks run (fun t u => Records u (reached (run t u)) (below t u)) w) :
    Records w (reached (p.carry run w)) (p.calls run below w) := by
  induction p generalizing w with
  | step event x => exact .none (hp w).active
  | task t => exact hasks
  | bind p k ihp ihk =>
    have hfirst := ihp hp.1 hasks.1
    rw [carry, calls, bind_apply]
    cases hx : p.carry run w with
    | error e w' =>
      rw [hx] at hfirst
      rw [List.append_nil]
      exact hfirst
    | ok a w' =>
      rw [hx] at hfirst
      exact hfirst.append (ihk a (hp.2 a) (hasks.2 a w' hx))
  | attempt p ih =>
    rw [carry, reached_attempt]
    exact ih hp hasks
  | atLine line p ih =>
    rw [carry, reached_atLine]
    exact ih hp hasks
  | inRun p ih => exact ih hp hasks

/-- What a plan reaches is what one of its steps reaches, or where it begins. -/
theorem Plan.reached_mem {below : ∀ {α : Type}, Task α → World → List Moment}
    (htasks : ∀ {α : Type} (t : Task α) u,
      reached (run t u) = u ∨ ∃ m ∈ below t u, m.world = reached (run t u)) (p : Plan α) :
    reached (p.carry run w) = w ∨
      ∃ m ∈ p.course run below w, m.world = reached (p.carry run w) := by
  induction p generalizing w with
  | step event x => exact .inr ⟨_, List.mem_cons_self, rfl⟩
  | task t => exact htasks t w
  | bind p k ihp ihk =>
    have hfirst := ihp (w := w)
    rw [carry, bind_apply]
    simp only [mem_course_bind]
    cases hx : p.carry run w with
    | error e w' =>
      rw [hx] at hfirst
      exact hfirst.imp_right (Exists.imp fun _ => And.imp_left .inl)
    | ok a w' =>
      rw [hx] at hfirst
      rcases ihk a (w := w') with hsame | ⟨m, hm, hreached⟩
      · dsimp only
        rw [hsame]
        exact hfirst.imp_right (Exists.imp fun _ => And.imp_left .inl)
      · exact .inr ⟨m, .inr ⟨a, w', rfl, hm⟩, hreached⟩
  | attempt p ih =>
    rw [carry, reached_attempt]
    exact ih
  | atLine line p ih =>
    rw [carry, reached_atLine]
    exact ih
  | inRun p ih =>
    rcases ih with hsame | ⟨m, hm, hreached⟩
    · exact .inl hsame
    · exact .inr ⟨m.within, List.mem_map_of_mem hm, hreached⟩

theorem Task.reached_mem (n : Nat) (t : Task α) (w : World) :
    reached (t.run n w) = w ∨ ∃ m ∈ t.course n w, m.world = reached (t.run n w) := by
  induction n generalizing α w with
  | zero =>
    rw [Task.run_zero]
    exact .inl rfl
  | succ n ih =>
    rw [Task.run_succ]
    exact Plan.reached_mem ih t.plan

variable {n : Nat}

/-- If a run is under way behind all steps of a plan, it is when each of its tasks begins. -/
theorem Plan.asks_pending {p : Plan α} (hw : w.process.isPending = true)
    (h : ∀ m ∈ p.course (Task.run n) (Task.course n) w, m.world.process.isPending = true) :
    p.Asks (Task.run n) (fun _ u => u.process.isPending = true) w := by
  induction p generalizing w with
  | step event x => trivial
  | task t => exact hw
  | bind p k ihp ihk =>
    have hfirst : ∀ m ∈ p.course (Task.run n) (Task.course n) w,
        m.world.process.isPending = true := fun m hm => h m (mem_course_bind.2 (.inl hm))
    refine ⟨ihp hw hfirst, fun a w' hw' => ?_⟩
    refine ihk a ?_ fun m hm => h m (mem_course_bind.2 (.inr ⟨a, w', hw', hm⟩))
    rcases p.reached_mem (w := w) (Task.reached_mem n) with hsame | ⟨m, hm, hreached⟩
    · rw [hw'] at hsame
      obtain rfl : w' = w := hsame
      exact hw
    · rw [hw'] at hreached
      obtain rfl : m.world = w' := hreached
      exact hfirst m hm
  | attempt p ih => exact ih hw h
  | atLine line p ih => exact ih hw h
  | inRun p ih => exact ih hw fun m hm => h m.within (List.mem_map_of_mem hm)

variable {t : Task α}

/-- A run that is under way is so when each task begins that is called for. -/
theorem Task.Placed.asks_pending (h : t.Placed w) (hpending : w.process.isPending = true) :
    t.plan.Asks (Task.run n) (fun s u => s.Placed u ∧ u.process.isPending = true) w := by
  refine h.asks.and (Plan.asks_pending hpending fun m hm => ?_)
  have hrunning := (trusted (n + 1) t h.1 h.2).inRun m hm
  rwa [hpending, Bool.true_or] at hrunning

/-- A statement that is noted writes the record. -/
theorem beginStatement_records {position : Position} {site : Site} {r : FrameRef}
    (h : (Task.beginStatement position site).noted? w = some r)
    (hasks : (Task.beginStatement position site).plan.Asks (Task.run n)
      (fun s u => Records u (reached (s.run n u)) (s.calls n u)) w) :
    Records w (reached ((Task.beginStatement position site).run (n + 1) w))
      ((Task.beginStatement position site).calls (n + 1) w) := by
  obtain ⟨hordinary, rfl⟩ : w.isOrdinary site.frame = true ∧ site.frame = r := by
    simpa [Task.noted?] using h
  obtain ⟨f, hf, hinjected⟩ : ∃ f, w.frame? site.frame = some f ∧ f.isInjected = false := by
    simpa [World.isOrdinary, Option.any_eq_true] using hordinary
  obtain ⟨w', hnote, hactive⟩ : ∃ w', noteStatement position site.frame w = .ok () w' ∧
      w'.process.lastActive = some site.frame := ⟨_, rfl, rfl⟩
  have hasks := hasks.2 w w rfl
  rw [Task.run_succ, Task.calls, Task.plan, Plan.carry_get, Plan.calls_get]
  simp only [hf, hinjected, Bool.false_eq_true, if_false] at hasks ⊢
  rw [Plan.carry_step hnote, Plan.calls_step hnote]
  have hsettles : (Plan.plain get >>= fun u : World => if u.debugger.isArmed then
      .task (.pauseAt position site) else pure () : Plan Unit).All Settles fun _ => True := by
    refine ⟨Settles.get, fun u => ?_⟩
    dsimp only
    split
    · trivial
    · exact Settles.pure ()
  have hnoted : (⟨.beginStatement position site, n + 1, w⟩ : Call).noted? = some site.frame := h
  exact (hsettles.records (hasks.2 () w' hnote)).cons
    (hactive.trans (lastNoted_of_noted hnoted).symm)

/-- The record of a run that is under way names the frame of the statement noted last. -/
theorem Task.records (n : Nat) (t : Task α) (w : World) (h : t.Placed w)
    (hpending : w.process.isPending = true) : Records w (reached (t.run n w)) (t.calls n w) := by
  induction n generalizing α w with
  | zero =>
    rw [Task.run_zero]
    exact .none rfl
  | succ n ih =>
    have hasks : t.plan.Asks (Task.run n)
        (fun s u => Records u (reached (s.run n u)) (s.calls n u)) w :=
      (h.asks_pending hpending).mono fun s u hs => ih s u hs.1 hs.2
    have hsettled : (⟨t, n + 1, w⟩ : Call).noted? = none →
        t.plan.All Settles (fun s => s.isPause = false) →
        Records w (reached (t.run (n + 1) w)) (t.calls (n + 1) w) := by
      intro hnoted hp
      rw [Task.run_succ]
      exact ((hp.mono (fun _ hx => hx) fun _ _ => trivial).records hasks).cons
        (lastNoted_of_none hnoted).symm
    have hnothing : (⟨t, n + 1, w⟩ : Call).noted? = none →
        (reached (t.run (n + 1) w) = w ∧ (∀ m ∈ t.course (n + 1) w, m.world = w) ∧
          t.calls (n + 1) w = [⟨t, n + 1, w⟩]) →
        Records w (reached (t.run (n + 1) w)) (t.calls (n + 1) w) := by
      rintro hnoted ⟨hreached, -, hcalls⟩
      rw [hreached, hcalls]
      exact (Records.none rfl).cons (lastNoted_of_none hnoted).symm
    cases hgoes : t.goesOn with
    | true =>
      refine hsettled ?_ (t.plan_from hgoes).all
      cases t <;> first | rfl | cases hgoes
    | false =>
      cases t with
      | beginStatement position site =>
        cases hnoted : (Task.beginStatement position site).noted? w with
        | none => exact hnothing hnoted (beginStatement_unnoted hnoted)
        | some r => exact beginStatement_records hnoted hasks
      | injectInto code frame site => exact hsettled rfl (injectInto_all site code frame)
      | runProgram operation site =>
        exact hnothing rfl (runProgram_refused (by simp [Task.beginsRun, hpending]))
      | _ => cases hgoes

/-- In a run that is under way every task is called while it is. -/
theorem Task.pending_of_call (h : t.Placed w) (hpending : w.process.isPending = true) {c : Call}
    (hc : c ∈ t.calls n w) : c.world.process.isPending = true :=
  (Task.calls_of (D := fun _ t w => t.Placed w ∧ w.process.isPending = true)
    (fun _ _ _ h => h.1.asks_pending h.2) n t w ⟨h, hpending⟩ c hc).2

end Plans

section Statements

/-- The statement that a task begins with, and where it runs. -/
def Task.statement? {α : Type} : Task α → Option (Statement × Site)
  | .runBlock (s :: _) site => some (s, site)
  | _ => none

/-- Whether code is injected where the run is taken to be. -/
def Task.isInjectLast {α : Type} : Task α → Bool
  | .injectLast _ _ => true
  | _ => false

/-- The frame that code is injected into where the run is taken to be, if that is still there. -/
def Task.kept? {α : Type} (w : World) : Task α → Option FrameRef
  | .injectLast _ site => w.lastActive? site.things
  | _ => none

/-- How a statement is run: it is begun, and its operation is evaluated. -/
def Plan.statement : Statement → Site → Plan Value
  | .mk operation position, site => do
    .task (.beginStatement position site)
    .atLine position.line (.task (.eval operation site))

/-- The calls of the first statement of a block. -/
def Call.statementCalls (x : Call) : List Call :=
  match x.task.statement? with
  | some (s, site) =>
    (Plan.statement s site).calls (Task.run (x.bound - 1)) (Task.calls (x.bound - 1)) x.world
  | none => []

/-- Code that a call injects is run, in a new frame behind a given one. -/
def Call.RunsBehind (e : Call) (code : String) (d : FrameRef) : Prop :=
  ∀ operation v, compile code e.world = .ok (.ok operation) v →
    ∃ site i u f, ⟨.eval operation site, i, u⟩ ∈ e.calls ∧ u.frame? site.frame = some f ∧
      f.previous = some d ∧ f.isInjected = true

variable {w : World} {n : Nat}

section Prefix

variable {α β γ : Type} {run : ∀ {α : Type}, Task α → Run α}
  {below : ∀ {α : Type}, Task α → World → List Call} {p : Plan α}

theorem Plan.calls_prefix_bind (k : α → Plan β) :
    p.calls run below w <+: (p.bind k).calls run below w := by
  rw [calls]
  exact List.prefix_append _ _

theorem Plan.calls_bind_prefix (p : Plan α) (k : α → Plan β) (l : α → Plan γ)
    (h : ∀ a u, (k a).calls run below u <+: (l a).calls run below u) :
    (p.bind k).calls run below w <+: (p.bind l).calls run below w := by
  rw [calls, calls]
  cases p.carry run w with
  | ok a w' => exact (List.prefix_append_right_inj _).2 (h a w')
  | error e w' => exact List.prefix_refl _

end Prefix

/-- The calls of a statement are first those of its beginning. -/
theorem beginStatement_calls (operation : Operation) (position : Position) (site : Site) (n : Nat)
    (w : World) : (Task.beginStatement position site).calls n w <+:
      (Plan.statement (.mk operation position) site).calls (Task.run n) (Task.calls n) w := by
  have hbegin : (Plan.task (.beginStatement position site)).calls (Task.run n) (Task.calls n) w <+:
      ((Plan.task (.beginStatement position site)).bind fun _ =>
        (Plan.task (.eval operation site)).atLine position.line).calls (Task.run n) (Task.calls n)
        w := Plan.calls_prefix_bind _
  exact hbegin

/-- The calls of a block are first those of its first statement. -/
theorem runBlock_calls (s : Statement) (rest : List Statement) (site : Site) :
    (Plan.statement s site).calls (Task.run n) (Task.calls n) w <+:
      (Task.runBlock (s :: rest) site).plan.calls (Task.run n) (Task.calls n) w := by
  cases s with
  | mk operation position =>
    obtain ⟨k, hk⟩ : ∃ k : Value → Plan Unit, (Task.runBlock (.mk operation position :: rest)
        site).plan = (Plan.task (.beginStatement position site)).bind fun _ =>
          ((Plan.task (.eval operation site)).atLine position.line).bind k := ⟨_, rfl⟩
    have heval : ∀ (_ : Unit) u, ((Plan.task (.eval operation site)).atLine position.line).calls
        (Task.run n) (Task.calls n) u <+: (((Plan.task (.eval operation site)).atLine
          position.line).bind k).calls (Task.run n) (Task.calls n) u :=
      fun _ _ => Plan.calls_prefix_bind k
    rw [hk]
    exact Plan.calls_bind_prefix (.task (.beginStatement position site))
      (fun _ => (Plan.task (.eval operation site)).atLine position.line)
      (fun _ => ((Plan.task (.eval operation site)).atLine position.line).bind k) heval

variable {x : Call}

/-- What can be a call with calls of a first statement: one of a block. -/
theorem Call.exists_block (h : x.statementCalls ≠ []) (hbound : ∃ k, x.bound = k + 1) :
    ∃ s rest site k w, x = ⟨.runBlock (s :: rest) site, k + 1, w⟩ := by
  obtain ⟨k, hk⟩ := hbound
  obtain ⟨task, bound, world⟩ := x
  cases hk
  cases task with
  | runBlock body site =>
    cases body with
    | nil => exact absurd rfl h
    | cons s rest => exact ⟨s, rest, site, k, world, rfl⟩
  | _ => exact absurd rfl h

theorem Call.exists_injectLast (h : x.task.isInjectLast = true) (hbound : ∃ k, x.bound = k + 1) :
    ∃ code site k w, x = ⟨.injectLast code site, k + 1, w⟩ := by
  obtain ⟨k, hk⟩ := hbound
  obtain ⟨task, bound, world⟩ := x
  cases hk
  cases task with
  | injectLast code site => exact ⟨code, site, k, world, rfl⟩
  | _ => cases h

theorem Call.statementCalls_prefix (hbound : ∃ k, x.bound = k + 1) :
    x :: x.statementCalls <+: x.calls := by
  by_cases hnone : x.statementCalls = []
  · obtain ⟨k, hk⟩ := hbound
    obtain ⟨task, bound, world⟩ := x
    cases hk
    rw [hnone]
    exact ⟨_, rfl⟩
  · obtain ⟨s, rest, site, k, w, rfl⟩ := exists_block hnone hbound
    exact (List.prefix_cons_inj _).2 (runBlock_calls s rest site)

/-- The first call of a statement notes that it begins, if its frame does not run injected code. -/
theorem Call.statementCalls_first {b : Call} {bs : List Call} {c : FrameRef}
    (h : x.statementCalls = b :: bs) (hbound : ∃ k, x.bound = k + 1)
    (hc : x.task.frame? = some c) (hordinary : x.world.isOrdinary c = true) :
    b.noted? = some c ∧ b.task.isInjectLast = false := by
  obtain ⟨s, rest, site, k, w, rfl⟩ := exists_block (by simp [h]) hbound
  cases hc
  cases s with
  | mk operation position =>
    cases k with
    | zero => cases h
    | succ k =>
      have hbegin := beginStatement_calls operation position site (k + 1) w
      have hcalls : (Plan.statement (.mk operation position) site).calls (Task.run (k + 1))
          (Task.calls (k + 1)) w = b :: bs := h
      rw [hcalls, Task.calls] at hbegin
      obtain ⟨rfl, -⟩ := List.cons_prefix_cons.1 hbegin
      exact ⟨by simp [noted?, Task.noted?, hordinary], rfl⟩

/-- During a statement the record is written by the statements noted below it, its own first. -/
theorem Call.statementCalls_traced (hbound : ∃ k, x.bound = k + 1)
    (hplaced : x.task.Placed x.world) (hpending : x.world.process.isPending = true) :
    Traced x.world.process.lastActive x.statementCalls := by
  by_cases hnone : x.statementCalls = []
  · rw [hnone]
    intro before c after h
    simp at h
  · obtain ⟨s, rest, site, k, w, rfl⟩ := exists_block hnone hbound
    cases s with
    | mk operation position =>
      have hasks := (hplaced.asks_pending (n := k) hpending).mono fun s u hs =>
        s.records k u hs.1 hs.2
      have hstatement : (Plan.statement (.mk operation position) site).All Settles
          fun _ => True := ⟨trivial, fun _ => trivial⟩
      have hfirst : (Plan.statement (.mk operation position) site).Asks (Task.run k)
          (fun s u => Records u (reached (s.run k u)) (s.calls k u)) w :=
        ⟨hasks.1, fun a w' hw' => (hasks.2 a w' hw').1⟩
      exact (hstatement.records hfirst).along

end Statements

section Injecting

variable {w : World} {n : Nat} {code : String} {d : FrameRef} {site : Site}

/-- The recorded frame is there as long as the code around the injection has it in use. -/
theorem lastActive?_of_mem (hd : w.process.lastActive = some d) {inUse : List Thing}
    (hmem : .frame d ∈ inUse) : w.lastActive? inUse = some d := by
  have hkeeps : w.keeps (inUse ++ w.configured) w.things.length [.frame d] = true := by
    unfold World.keeps
    split <;> simp [hmem]
  simp [World.lastActive?, hd, hkeeps]

/-- Code that is injected where the run is taken to be runs behind the recorded frame, as long as
that is there. -/
theorem injectLast_kept (hpending : w.process.isPending = true)
    (hkept : w.lastActive? site.things = some d) :
    (Task.injectLast code site).run (n + 1) w = (Task.injectInto code d site).run n w ∧
      (Task.injectLast code site).calls (n + 1) w =
        ⟨.injectLast code site, n + 1, w⟩ :: (Task.injectInto code d site).calls n w := by
  rw [Task.run_succ, Task.calls, Task.plan, Plan.carry_get, Plan.calls_get]
  simp only [hkept, hpending, if_true]
  exact ⟨rfl, rfl⟩

/-- Nothing can be injected where the run is taken to be once the recorded frame is gone. -/
theorem injectLast_gone (hgone : w.lastActive? site.things = none) :
    (Task.injectLast code site).run (n + 1) w = .ok (.error (.run (.of .cannotInject))) w := by
  rw [Task.run_succ, Task.plan, Plan.carry_get]
  simp only [hgone]
  rfl

/-- The frame for injected code is behind the one that the code is injected into. -/
theorem exists_frame_of_injected (hd : ∃ f, w.frame? d = some f) {child : FrameRef} {u : World}
    (hfork : w.fork d .call true none (some true) = (child, u)) :
    ∃ f, u.frame? child = some f ∧ f.previous = some d ∧ f.isInjected = true := by
  obtain ⟨p, hp⟩ := hd
  unfold World.fork at hfork
  rw [hp] at hfork
  cases hfork
  exact ⟨_, Heap.get?_push_size _ _, rfl, rfl⟩

/-- Injected code runs in a new frame behind the one that it is injected into. -/
theorem injectInto_runsBehind (hd : ∃ f, w.frame? d = some f)
    (hdone : ∀ u, (Task.injectInto code d site).run (n + 1) w ≠ .error .exhausted u) :
    (⟨.injectInto code d site, n + 1, w⟩ : Call).RunsBehind code d := by
  intro operation v hcompile
  have hv : ∃ f, v.frame? d = some f := by
    obtain ⟨f, hf⟩ := hd
    have hmarks := (Settles.compile code).marks w
    have hrun : compile code w = .ok (.ok operation) v := hcompile
    rw [hrun] at hmarks
    obtain ⟨f', hf', -⟩ := hmarks d f hf
    exact ⟨f', hf'⟩
  obtain ⟨child, u, hfork⟩ : ∃ child u, v.fork d .call true none (some true) = (child, u) :=
    ⟨_, _, rfl⟩
  obtain ⟨f, hf, hprevious, hinjected⟩ := exists_frame_of_injected hv hfork
  have hproduce : produce (fun w => w.fork d .call true none (some true)) v = .ok child u := by
    rw [produce, hfork]
  rw [Task.run_succ] at hdone
  have heval := (((Plan.asks_done hdone).2 _ v hcompile).2 child u hproduce).1
  refine ⟨(site.enter d).enter child, n, u, f, ?_, hf, hprevious, hinjected⟩
  cases n with
  | zero => exact absurd (congrFun (Task.run_zero _) u) (heval u)
  | succ n =>
    refine List.mem_cons_of_mem _ (Plan.mem_calls_bind.2 (.inr ⟨_, v, hcompile, ?_⟩))
    refine Plan.mem_calls_bind.2 (.inr ⟨child, u, hproduce, ?_⟩)
    exact Plan.mem_calls_bind.2 (.inl List.mem_cons_self)

end Injecting

end Run

variable {s : Setup} {definitions : List (String × Description)} {earlier : List Moment} {w : World}

/-- Where a run is taken to be during a statement, in any session. The statement begins in a frame
that does not run injected code, and the record names that frame. At every call that the statement
makes afterwards, native ones included, the run is still under way and the record names the frame of
the statement that was noted last: the same frame if no statement was noted elsewhere, and else
another one, even if the function that it was made for has returned. Code that is injected where the
run is taken to be runs in a new frame behind the recorded one if that is still there, as it is
while the code around it has it in use. Else nothing is injected, although the run is under way. -/
theorem Session.record_follows_statements (h : Session s definitions earlier w) (n : Nat)
    (r : Request) {x : Call} (hx : x ∈ (Task.perform r w.hostSite).calls n w)
    (hpending : x.world.process.isPending = true) {c : FrameRef} (hc : x.task.frame? = some c)
    (hordinary : x.world.isOrdinary c = true) :
    x :: x.statementCalls <+: x.calls ∧
    (∀ before e after, x.statementCalls = before ++ e :: after → before ≠ [] →
      e.world.process.isPending = true ∧
      (before.filterMap Call.noted?).head? = some c ∧
      e.world.process.lastActive = (before.filterMap Call.noted?).getLast? ∧
      ((∀ b ∈ before, ∀ d, b.noted? = some d → d = c) → e.world.process.lastActive = some c)) ∧
    ∀ code site k v, ⟨.injectLast code site, k + 1, v⟩ ∈ x.statementCalls →
      v.process.isPending = true ∧ ∃ d, v.process.lastActive = some d ∧
        (.frame d ∈ site.things → v.lastActive? site.things = some d) ∧
        (v.lastActive? site.things = some d →
          (Task.injectLast code site).run (k + 1) v = (Task.injectInto code d site).run k v ∧
          ((⟨.injectLast code site, k + 1, v⟩ : Call).isDone = true →
            (⟨.injectLast code site, k + 1, v⟩ : Call).RunsBehind code d)) ∧
        (v.lastActive? site.things = none →
          (Task.injectLast code site).run (k + 1) v =
            .ok (.error (.run (.of .cannotInject))) v) := by
  have hhost : (Task.perform r w.hostSite).Placed w := by
    refine ⟨?_, trivial⟩
    rw [h.sealed.isPending]
    exact h.sealed
  have hplaced := Task.placed_of_call hhost hx
  have hbound := Task.bound_of_call hx
  have hleading := Call.statementCalls_prefix hbound
  have hsub : x.statementCalls ⊆ x.calls :=
    fun e he => hleading.subset (List.mem_cons_of_mem _ he)
  have hrecord : ∀ before e after, x.statementCalls = before ++ e :: after → before ≠ [] →
      (before.filterMap Call.noted?).head? = some c ∧
        e.world.process.lastActive = (before.filterMap Call.noted?).getLast? := by
    intro before e after heq hne
    obtain ⟨b, bs, rfl⟩ := List.exists_cons_of_ne_nil hne
    obtain ⟨hb, -⟩ := Call.statementCalls_first heq hbound hc hordinary
    have htraced := Call.statementCalls_traced hbound hplaced hpending _ e after heq
    have hnoted : (b :: bs).filterMap Call.noted? = c :: bs.filterMap Call.noted? := by
      rw [List.filterMap_cons, hb]
    rw [htraced, lastNoted, hnoted]
    simp [List.getLast?_cons]
  have hrunning : ∀ e ∈ x.statementCalls, e.world.process.isPending = true :=
    fun e he => Task.pending_of_call hplaced hpending (hsub he)
  refine ⟨hleading, ?record, ?injected⟩
  case record =>
    intro before e after heq hne
    obtain ⟨hfirst, hlast⟩ := hrecord before e after heq hne
    refine ⟨hrunning e (by simp [heq]), hfirst, hlast, fun hsame => ?_⟩
    -- the record names a frame, and all frames that it can name are the same
    cases hd : (before.filterMap Call.noted?).getLast? with
    | none =>
      rw [List.getLast?_eq_none_iff.1 hd] at hfirst
      cases hfirst
    | some d =>
      obtain ⟨b, hb, hnoted⟩ := List.mem_filterMap.1 (List.mem_of_getLast? hd)
      rw [hlast, hd, hsame b hb d hnoted]
  case injected =>
    intro code site k v hmem
    obtain ⟨before, after, heq⟩ := List.append_of_mem hmem
    have hne : before ≠ [] := by
      rintro rfl
      cases (Call.statementCalls_first heq hbound hc hordinary).2
    obtain ⟨hfirst, hlast⟩ := hrecord before _ after heq hne
    have hsome : (before.filterMap Call.noted?) ≠ [] := by
      intro hnil
      rw [hnil] at hfirst
      cases hfirst
    obtain ⟨d, hd⟩ := Option.isSome_iff_exists.1 (List.getLast?_isSome.2 hsome)
    have hactive : v.process.lastActive = some d := hlast.trans hd
    have hv : (Task.injectLast code site).Placed v := Task.placed_of_call hplaced (hsub hmem)
    refine ⟨hrunning _ hmem, d, hactive, lastActive?_of_mem hactive, fun hkept => ?_,
      injectLast_gone⟩
    obtain ⟨hrun, hcalls⟩ := injectLast_kept (hrunning _ hmem) hkept
    refine ⟨hrun, fun hdone operation v' hcompile => ?_⟩
    have hinto : ∀ u, (Task.injectInto code d site).run k v ≠ .error .exhausted u := by
      rw [← hrun]
      exact Call.isDone_iff.1 hdone
    obtain ⟨f, hf, -⟩ := hv.1.active d hactive
    cases k with
    | zero => exact absurd (congrFun (Task.run_zero _) v) (hinto v)
    | succ k =>
      obtain ⟨inner, i, u, g, heval, hg⟩ :=
        injectInto_runsBehind ⟨f, hf⟩ hinto operation v' hcompile
      refine ⟨inner, i, u, g, ?_, hg⟩
      change _ ∈ (Task.injectLast code site).calls (k + 2) v
      rw [hcalls]
      exact List.mem_cons_of_mem _ heval

/-- A run that declares a function, and in its last statement injects code, calls the function, and
injects code again. -/
def injectAroundCall : Request :=
  .run ("f=function()\nx=1\nend function\n" ++
    "l=[sys(\"inject_last\",\"x=2\"),f(),sys(\"inject_last\",\"x=3\")]")

/-- The block of that statement, as one in the first run of a session. -/
def injectAroundCallBlocks : List Call :=
  ((Task.perform injectAroundCall (World.initial injecting callbacks).hostSite).calls 20
    (World.initial injecting callbacks)).filter fun x =>
      match x.task.statement? with
      | some (.mk _ position, _) => position == ⟨4, 1⟩
      | none => false

/-- The run is where the record says at the first injection. At the second, the record names the
frame of the function, which is gone, and the injection is refused in the middle of the run. -/
theorem Session.record_follows_statements_injectAroundCall :
    ∃ x ∈ injectAroundCallBlocks, ∃ c code site k v code' site' k' v',
      x.task.frame? = some c ∧
      ⟨.injectLast code site, k + 1, v⟩ ∈ x.statementCalls ∧ v.process.lastActive = some c ∧
      (⟨.injectLast code site, k + 1, v⟩ : Call).RunsBehind code c ∧
      ⟨.injectLast code' site', k' + 1, v'⟩ ∈ x.statementCalls ∧ v'.process.isPending = true ∧
      v'.process.lastActive ≠ some c ∧ (Task.injectLast code' site').run (k' + 1) v' =
        .ok (.error (.run (.of .cannotInject))) v' := by
  have hblocks : injectAroundCallBlocks.map (fun x =>
      (x.world.process.isPending && x.task.frame?.any x.world.isOrdinary, x.task.frame?)) =
        [(true, some ⟨1⟩)] := by decide +kernel
  have hinjections : injectAroundCallBlocks.map (fun x =>
      (x.statementCalls.filter fun e => e.task.isInjectLast).map fun e =>
        (e.isDone, e.world.process.lastActive, e.task.kept? e.world)) =
          [[(true, some ⟨1⟩, some ⟨1⟩), (true, some ⟨3⟩, none)]] := by decide +kernel
  obtain ⟨x, hlist⟩ : ∃ x, injectAroundCallBlocks = [x] :=
    List.length_eq_one_iff.1 (by simpa using congrArg List.length hblocks)
  have hx : x ∈ injectAroundCallBlocks := by simp [hlist]
  rw [hlist] at hblocks hinjections
  obtain ⟨⟨hpending, hordinary⟩, hframe⟩ : (x.world.process.isPending = true ∧
      x.task.frame?.any x.world.isOrdinary = true) ∧ x.task.frame? = some ⟨1⟩ := by
    simpa using hblocks
  rw [hframe, Option.any_some] at hordinary
  obtain ⟨hleading, -, hinjected⟩ := Session.record_follows_statements .start 20 injectAroundCall
    (List.mem_filter.1 hx).1 hpending hframe hordinary
  obtain ⟨first, second, hfilter⟩ : ∃ first second,
      (x.statementCalls.filter fun e => e.task.isInjectLast) = [first, second] :=
    List.length_eq_two.1 (by simpa using congrArg List.length (List.cons.inj hinjections).1)
  have hsub : ∀ e ∈ [first, second], e ∈ x.statementCalls ∧
      ∃ code site k v, e = ⟨.injectLast code site, k + 1, v⟩ := by
    intro e he
    rw [← hfilter] at he
    obtain ⟨hmem, hkind⟩ := List.mem_filter.1 he
    have hcall : e ∈ x.calls := hleading.subset (List.mem_cons_of_mem _ hmem)
    exact ⟨hmem, Call.exists_injectLast hkind (Task.bound_of_call hcall)⟩
  obtain ⟨hfirst, code, site, k, v, rfl⟩ := hsub first (by simp)
  obtain ⟨hsecond, code', site', k', v', rfl⟩ := hsub second (by simp)
  obtain ⟨⟨hdone, hactive, hkept⟩, -, hactive', hgone⟩ : (_ ∧ v.process.lastActive = some ⟨1⟩ ∧
      v.lastActive? site.things = some ⟨1⟩) ∧ _ ∧ v'.process.lastActive = some ⟨3⟩ ∧
      v'.lastActive? site'.things = none := by
    simpa [hfilter, Task.kept?] using hinjections
  obtain ⟨-, d, hd, -, hkeeps, -⟩ := hinjected code site k v hfirst
  obtain ⟨hrunning, -, -, -, -, hrefused⟩ := hinjected code' site' k' v' hsecond
  obtain rfl : (⟨1⟩ : FrameRef) = d := Option.some.inj (hactive.symm.trans hd)
  refine ⟨x, hx, ⟨1⟩, code, site, k, v, code', site', k', v', hframe, hfirst, hactive,
    (hkeeps hkept).2 hdone, hsecond, hrunning, ?_, hrefused hgone⟩
  rw [hactive']
  decide

end LineScript
