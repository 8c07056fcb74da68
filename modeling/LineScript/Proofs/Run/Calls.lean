import LineScript.Proofs.Run.Course

/-!
# The calls of a run

The course of a task lists its single steps. Its calls are the tasks that are carried out on the
way, each with the world that it begins in. What a plan asks of one task is passed on to all calls
below it. Main statements: from a sealed world every task is called with frames in which code runs
and with values that scripts may hold; and what all single steps of a plan keep is kept by the plan,
if the tasks in it keep it.
-/

namespace LineScript

namespace Run

/-- A task that is carried out from a world, with the bound on its nested steps. -/
structure Call where
  {α : Type}
  task : Task α
  bound : Nat
  world : World

/-- The calls of a plan from a world, given what its tasks do and call for. -/
def Plan.calls (run : ∀ {α : Type}, Task α → Run α)
    (below : ∀ {α : Type}, Task α → World → List Call) : {α : Type} → Plan α → World → List Call
  | _, .step _ _, _ => []
  | _, .task t, w => below t w
  | _, .bind p k, w =>
    p.calls run below w ++
      match p.carry run w with
      | .ok a w' => (k a).calls run below w'
      | .error _ _ => []
  | _, .attempt p, w => p.calls run below w
  | _, .atLine _ p, w => p.calls run below w
  | _, .inRun p, w => p.calls run below w

/-- The calls of a task from a world, of which it is the first. A task with a bound of zero is not
carried out. -/
def Task.calls : Nat → {α : Type} → Task α → World → List Call
  | 0, _, _, _ => []
  | n + 1, _, t, w => ⟨t, n + 1, w⟩ :: t.plan.calls (Task.run n) (Task.calls n) w

namespace Call

/-- The calls below a call, of which it is the first. -/
def calls (c : Call) : List Call := c.task.calls c.bound c.world

/-- The steps of a call. -/
def course (c : Call) : List Moment := c.task.course c.bound c.world

/-- Whether the bound of a call was enough. -/
def isDone (c : Call) : Bool :=
  match c.task.run c.bound c.world with
  | .error .exhausted _ => false
  | _ => true

theorem isDone_iff {c : Call} :
    c.isDone = true ↔ ∀ w, c.task.run c.bound c.world ≠ .error .exhausted w := by
  unfold isDone
  split
  next w hrun => simp [hrun]
  next hrun => simpa using hrun

end Call

/-- All tasks that a plan calls for itself are such, in the worlds that they begin in. -/
def Plan.Asks (run : ∀ {α : Type}, Task α → Run α) (D : ∀ {α : Type}, Task α → World → Prop) :
    {α : Type} → Plan α → World → Prop
  | _, .step _ _, _ => True
  | _, .task t, w => D t w
  | _, .bind p k, w =>
    p.Asks run D w ∧ ∀ a w', p.carry run w = .ok a w' → (k a).Asks run D w'
  | _, .attempt p, w => p.Asks run D w
  | _, .atLine _ p, w => p.Asks run D w
  | _, .inRun p, w => p.Asks run D w

/-- All single steps and all tasks of a plan are such, whatever is given to what follows them. -/
def Plan.All (S : ∀ {α : Type}, Run α → Prop) (T : ∀ {α : Type}, Task α → Prop) :
    {α : Type} → Plan α → Prop
  | _, .step _ x => S x
  | _, .task t => T t
  | _, .bind p k => p.All S T ∧ ∀ a, (k a).All S T
  | _, .attempt p => p.All S T
  | _, .atLine _ p => p.All S T
  | _, .inRun p => p.All S T

namespace Plan

variable {α β : Type} {run : ∀ {α : Type}, Task α → Run α} {p : Plan α} {w : World}

theorem course_pure {below : ∀ {α : Type}, Task α → World → List Moment} {a : α} :
    (pure a : Plan α).course run below w = [⟨none, false, w⟩] := rfl

theorem course_get {below : ∀ {α : Type}, Task α → World → List Moment} {k : World → Plan β} :
    (plain get >>= k).course run below w = ⟨none, false, w⟩ :: (k w).course run below w := rfl

theorem calls_get {below : ∀ {α : Type}, Task α → World → List Call} {k : World → Plan β} :
    (plain get >>= k).calls run below w = (k w).calls run below w := rfl

theorem calls_step {below : ∀ {α : Type}, Task α → World → List Call} {x : Run α} {k : α → Plan β}
    {a : α} {w' : World} (hx : x w = .ok a w') :
    (plain x >>= k).calls run below w = (k a).calls run below w' := by
  have hcarry : (plain x).carry run w = .ok a w' := hx
  change ((plain x).bind k).calls run below w = _
  rw [calls, hcarry]
  rfl

theorem mem_course_bind {below : ∀ {α : Type}, Task α → World → List Moment} {k : α → Plan β}
    {m : Moment} : m ∈ (p.bind k).course run below w ↔ m ∈ p.course run below w ∨
      ∃ a w', p.carry run w = .ok a w' ∧ m ∈ (k a).course run below w' := by
  rw [course, List.mem_append]
  cases p.carry run w <;> simp

theorem mem_calls_bind {below : ∀ {α : Type}, Task α → World → List Call} {k : α → Plan β}
    {c : Call} : c ∈ (p.bind k).calls run below w ↔ c ∈ p.calls run below w ∨
      ∃ a w', p.carry run w = .ok a w' ∧ c ∈ (k a).calls run below w' := by
  rw [calls, List.mem_append]
  cases p.carry run w <;> simp

section Asking

variable {D E : ∀ {α : Type}, Task α → World → Prop}

theorem Asks.mono (h : p.Asks run D w)
    (himp : ∀ {α : Type} (t : Task α) u, D t u → E t u) : p.Asks run E w := by
  induction p generalizing w with
  | step event x => trivial
  | task t => exact himp t w h
  | bind p k hp hk => exact ⟨hp h.1, fun a w' hw' => hk a (h.2 a w' hw')⟩
  | attempt p hp => exact hp h
  | atLine line p hp => exact hp h
  | inRun p hp => exact hp h

theorem asks_true : p.Asks run (fun _ _ => True) w := by
  induction p generalizing w with
  | bind p k hp hk => exact ⟨hp, fun a _ _ => hk a⟩
  | attempt p hp => exact hp
  | atLine line p hp => exact hp
  | inRun p hp => exact hp
  | _ => trivial

theorem Asks.and (h : p.Asks run D w) (h' : p.Asks run E w) :
    p.Asks run (fun t u => D t u ∧ E t u) w := by
  induction p generalizing w with
  | step event x => trivial
  | task t => exact ⟨h, h'⟩
  | bind p k hp hk => exact ⟨hp h.1 h'.1, fun a w' hw' => hk a (h.2 a w' hw') (h'.2 a w' hw')⟩
  | attempt p hp => exact hp h h'
  | atLine line p hp => exact hp h h'
  | inRun p hp => exact hp h h'

/-- What is true of all calls of a plan is true of the calls of each task in it. -/
theorem asks_of_calls {below : ∀ {α : Type}, Task α → World → List Call} {P : Call → Prop}
    (h : ∀ c ∈ p.calls run below w, P c) :
    p.Asks run (fun t u => ∀ c ∈ below t u, P c) w := by
  induction p generalizing w with
  | step event x => trivial
  | task t => exact h
  | bind p k hp hk =>
    refine ⟨hp fun c hc => h c (mem_calls_bind.2 (.inl hc)), ?_⟩
    intro a w' hw'
    exact hk a fun c hc => h c (mem_calls_bind.2 (.inr ⟨a, w', hw', hc⟩))
  | attempt p hp => exact hp h
  | atLine line p hp => exact hp h
  | inRun p hp => exact hp h

theorem Asks.calls {below : ∀ {α : Type}, Task α → World → List Call} {P : Call → Prop}
    (h : p.Asks run (fun t u => ∀ c ∈ below t u, P c) w) : ∀ c ∈ p.calls run below w, P c := by
  induction p generalizing w with
  | step event x =>
    intro c hc
    cases hc
  | task t => exact h
  | bind p k hp hk =>
    intro c hc
    rcases mem_calls_bind.1 hc with hc | ⟨a, w', hw', hc⟩
    · exact hp h.1 c hc
    · exact hk a (h.2 a w' hw') c hc
  | attempt p hp => exact hp h
  | atLine line p hp => exact hp h
  | inRun p hp => exact hp h

/-- A plan whose bound was enough calls for no task whose bound was not. -/
theorem asks_done (h : ∀ u, p.carry run w ≠ .error .exhausted u) :
    p.Asks run (fun t u => ∀ v, run t u ≠ .error .exhausted v) w := by
  induction p generalizing w with
  | step event x => trivial
  | task t => exact h
  | bind p k hp hk =>
    have hbind : ∀ u, (p.carry run >>= fun a => (k a).carry run) w ≠ .error .exhausted u := h
    rw [bind_apply] at hbind
    constructor
    · apply hp
      intro u hu
      rw [hu] at hbind
      exact hbind u rfl
    · intro a w' hw'
      rw [hw'] at hbind
      exact hk a hbind
  | attempt p hp =>
    apply hp
    intro u hu
    apply h u
    rw [carry, Run.attempt, hu]
  | atLine line p hp =>
    apply hp
    intro u hu
    apply h u
    rw [carry, Run.atLine, hu]
  | inRun p hp => exact hp h

/-- The worlds that the tasks of a plan go through, the plan goes through. -/
theorem asks_course {below : ∀ {α : Type}, Task α → World → List Moment} :
    p.Asks run (fun t u => ∀ m ∈ below t u, ∃ m' ∈ p.course run below w, m'.world = m.world) w := by
  induction p generalizing w with
  | step event x => trivial
  | task t => exact fun m hm => ⟨m, hm, rfl⟩
  | bind p k hp hk =>
    constructor
    · refine hp.mono fun t u ht m hm => ?_
      obtain ⟨m', hm', heq⟩ := ht m hm
      exact ⟨m', mem_course_bind.2 (.inl hm'), heq⟩
    · intro a w' hw'
      refine (hk a (w := w')).mono fun t u ht m hm => ?_
      obtain ⟨m', hm', heq⟩ := ht m hm
      exact ⟨m', mem_course_bind.2 (.inr ⟨a, w', hw', hm'⟩), heq⟩
  | attempt p hp => exact hp
  | atLine line p hp => exact hp
  | inRun p hp =>
    refine (hp (w := w)).mono fun t u ht m hm => ?_
    obtain ⟨m', hm', heq⟩ := ht m hm
    exact ⟨m'.within, List.mem_map_of_mem hm', heq⟩

end Asking

section Keeping

variable {S : ∀ {α : Type}, Run α → Prop} {T T' : ∀ {α : Type}, Task α → Prop}

theorem All.mono {S' : ∀ {α : Type}, Run α → Prop} (h : p.All S T)
    (hS : ∀ {α : Type} (x : Run α), S x → S' x) (hT : ∀ {α : Type} (t : Task α), T t → T' t) :
    p.All S' T' := by
  induction p with
  | step event x => exact hS x h
  | task t => exact hT t h
  | bind p k hp hk => exact ⟨hp h.1, fun a => hk a (h.2 a)⟩
  | attempt p hp => exact hp h
  | atLine line p hp => exact hp h
  | inRun p hp => exact hp h

variable {R : World → World → Prop} {X : ∀ {α : Type}, Task α → World → Prop}
  {below : ∀ {α : Type}, Task α → World → List Moment}

/-- What the single steps of a plan keep, and the tasks in it, is kept all along the plan. Of each
task it may be used that it is kept up to the world in which the task begins. -/
theorem All.along (hrefl : ∀ w, R w w) (htrans : ∀ {u v w}, R u v → R v w → R u w)
    (hsteps : ∀ {α : Type} (x : Run α), S x → ∀ w, R w (reached (x w))) (hp : p.All S T)
    (hX : p.Asks run X w)
    (htasks : ∀ {α : Type} (t : Task α) u, T t → R w u → X t u →
      R u (reached (run t u)) ∧ ∀ m ∈ below t u, R u m.world) :
    R w (reached (p.carry run w)) ∧ (∀ m ∈ p.course run below w, R w m.world) ∧
      p.Asks run (fun t u => T t ∧ R w u) w := by
  induction p generalizing w with
  | step event x =>
    refine ⟨hsteps x hp w, ?_, trivial⟩
    intro m hm
    obtain rfl := List.mem_singleton.1 hm
    exact hsteps x hp w
  | task t =>
    obtain ⟨hreached, hmoments⟩ := htasks t w hp (hrefl w) hX
    exact ⟨hreached, hmoments, hp, hrefl w⟩
  | bind p k ihp ihk =>
    obtain ⟨hreached, hmoments, hasks⟩ := ihp hp.1 hX.1 htasks
    rw [carry, course, bind_apply]
    cases hx : p.carry run w with
    | error e w' =>
      rw [hx] at hreached
      refine ⟨hreached, by simpa using hmoments, hasks, ?_⟩
      intro a w'' hw''
      rw [hx] at hw''
      cases hw''
    | ok a w' =>
      rw [hx] at hreached
      have hreached : R w w' := hreached
      obtain ⟨hlast, hrest, hcalls⟩ := ihk a (hp.2 a) (hX.2 a w' hx)
        fun t u ht hu => htasks t u ht (htrans hreached hu)
      refine ⟨htrans hreached hlast, ?_, hasks, ?_⟩
      · intro m hm
        rcases List.mem_append.1 hm with hm | hm
        · exact hmoments m hm
        · exact htrans hreached (hrest m hm)
      · intro b w'' hw''
        rw [hx] at hw''
        cases hw''
        exact hcalls.mono fun t u ht => ⟨ht.1, htrans hreached ht.2⟩
  | attempt p ih =>
    rw [carry, reached_attempt]
    exact ih hp hX htasks
  | atLine line p ih =>
    rw [carry, reached_atLine]
    exact ih hp hX htasks
  | inRun p ih =>
    obtain ⟨hreached, hmoments, hasks⟩ := ih hp hX htasks
    refine ⟨hreached, ?_, hasks⟩
    intro m hm
    obtain ⟨m', hm', rfl⟩ := List.mem_map.1 hm
    exact hmoments m' hm'

end Keeping

end Plan

section Calls

variable {α : Type} {D : ∀ {α : Type}, Nat → Task α → World → Prop}

/-- What every plan passes on to the tasks that it calls for is true of all calls. -/
theorem Task.calls_of (hplan : ∀ {α : Type} (n : Nat) (t : Task α) (w : World), D (n + 1) t w →
      t.plan.Asks (Task.run n) (D n) w) (n : Nat) (t : Task α) (w : World) (h : D n t w) :
    ∀ c ∈ t.calls n w, D c.bound c.task c.world := by
  induction n generalizing α w with
  | zero =>
    intro c hc
    cases hc
  | succ n ih =>
    intro c hc
    rcases List.mem_cons.1 hc with rfl | hc
    · exact h
    · exact ((hplan n t w h).mono fun t u ht => ih t u ht).calls c hc

variable {n : Nat} {t : Task α} {w : World} {c : Call}

theorem Task.bound_of_call (hc : c ∈ t.calls n w) : ∃ k, c.bound = k + 1 := by
  induction n generalizing α w c with
  | zero => cases hc
  | succ n ih =>
    rcases List.mem_cons.1 hc with rfl | hc
    · exact ⟨n, rfl⟩
    · have hbelow : t.plan.Asks (Task.run n)
          (fun s u => ∀ c ∈ s.calls n u, ∃ k, c.bound = k + 1) w :=
        Plan.asks_true.mono fun _ _ _ _ hc => ih hc
      exact hbelow.calls c hc

/-- The calls below a call are calls of what it is called from. -/
theorem Task.calls_of_call {d : Call} (hc : c ∈ t.calls n w) (hd : d ∈ c.calls) :
    d ∈ t.calls n w := by
  induction n generalizing α w c with
  | zero => cases hc
  | succ n ih =>
    rcases List.mem_cons.1 hc with rfl | hc
    · exact hd
    · have hasks : t.plan.Asks (Task.run n) (fun s u => ∀ e ∈ s.calls n u,
          e ∈ t.plan.calls (Task.run n) (Task.calls n) w) w := Plan.asks_of_calls fun _ he => he
      have hbelow : t.plan.Asks (Task.run n) (fun s u => ∀ c ∈ s.calls n u, d ∈ c.calls →
          d ∈ t.plan.calls (Task.run n) (Task.calls n) w) w :=
        hasks.mono fun s u hs c hc hd => hs d (ih hc hd)
      exact List.mem_cons_of_mem _ (hbelow.calls c hc hd)

/-- Below a call whose bound was enough there is none whose bound was not. -/
theorem Task.isDone_of_call (h : ∀ u, t.run n w ≠ .error .exhausted u) (hc : c ∈ t.calls n w) :
    c.isDone = true := by
  refine Call.isDone_iff.2 (Task.calls_of (D := fun n t w => ∀ u, t.run n w ≠ .error .exhausted u)
    (fun n t w h => ?_) n t w h c hc)
  apply Plan.asks_done
  rw [← Task.run_succ]
  exact h

/-- The worlds that a call goes through, all that it is called from goes through. -/
theorem Task.course_of_call (hc : c ∈ t.calls n w) {m : Moment} (hm : m ∈ c.course) :
    ∃ m' ∈ t.course n w, m'.world = m.world := by
  induction n generalizing α w c m with
  | zero => cases hc
  | succ n ih =>
    rcases List.mem_cons.1 hc with rfl | hc
    · exact ⟨m, hm, rfl⟩
    · have hasks : t.plan.Asks (Task.run n) (fun s u => ∀ m ∈ s.course n u,
          ∃ m' ∈ t.plan.course (Task.run n) (Task.course n) w, m'.world = m.world) w :=
        Plan.asks_course
      have hcalls : t.plan.Asks (Task.run n) (fun s u => ∀ c ∈ s.calls n u, ∀ m ∈ c.course,
          ∃ m' ∈ t.course (n + 1) w, m'.world = m.world) w := by
        refine hasks.mono fun s u hs c hc m hm => ?_
        obtain ⟨m', hm', heq⟩ := ih hc hm
        obtain ⟨m'', hm'', heq'⟩ := hs m' hm'
        exact ⟨m'', hm'', heq'.trans heq⟩
      exact hcalls.calls c hc m hm

end Calls

section Sealed

/-- The world is sealed, and the task is given what it may be given there. -/
def Task.Placed {α : Type} (t : Task α) (w : World) : Prop :=
  w.Sealed w.process.isPending ∧ t.Fits w

-- `Task.plan_safe` holds whatever is told of the tasks below, as long as it is right for those
-- that are placed. Something impossible is told of the others, and so a safe plan calls for none of
-- them.

/-- Moments that no plan goes through: a run is under way in one of them, and not in the other. -/
def impossible (w : World) : List Moment :=
  [⟨none, false, { w with process := { w.process with isPending := true } }⟩,
    ⟨none, false, { w with process := { w.process with isPending := false } }⟩]

open Classical in
/-- The steps of a task if it is placed, else what is impossible. -/
noncomputable def courseIfPlaced (n : Nat) {α : Type} (t : Task α) (w : World) : List Moment :=
  if t.Placed w then t.course n w else impossible w

theorem trusted_courseIfPlaced (n : Nat) : Trusted (Task.run n) (courseIfPlaced n) := by
  intro α t pending w hw hfits
  have hplaced : t.Placed w := ⟨by rw [hw.isPending]; exact hw, hfits⟩
  obtain ⟨haccount, hlands, hinRun⟩ := trusted n t hw hfits
  have hcourse : (Plan.task t).course (Task.run n) (courseIfPlaced n) w = t.course n w :=
    if_pos hplaced
  exact ⟨by rw [hcourse]; exact haccount, hlands, by rw [hcourse]; exact hinRun⟩

variable {α : Type} {n : Nat} {w : World}

/-- A plan that goes through nothing impossible calls for tasks that are placed. -/
theorem Plan.asks_placed {p : Plan α} {before : Bool}
    (h : ∀ m ∈ p.course (Task.run n) (courseIfPlaced n) w,
      m.world.process.isPending = (before || m.inRun)) :
    p.Asks (Task.run n) (fun t u => t.Placed u) w := by
  induction p generalizing w before with
  | step event x => trivial
  | task t =>
    by_contra hplaced
    have hcourse : (Plan.task t).course (Task.run n) (courseIfPlaced n) w = impossible w :=
      if_neg hplaced
    rw [hcourse] at h
    have htrue : true = (before || false) := h _ List.mem_cons_self
    have hfalse : false = (before || false) := h _ (List.mem_cons_of_mem _ List.mem_cons_self)
    exact Bool.noConfusion (htrue.trans hfalse.symm)
  | bind p k hp hk =>
    constructor
    · exact hp fun m hm => h m (mem_course_bind.2 (.inl hm))
    · intro a w' hw'
      exact hk a fun m hm => h m (mem_course_bind.2 (.inr ⟨a, w', hw', hm⟩))
  | attempt p hp => exact hp h
  | atLine line p hp => exact hp h
  | inRun p hp =>
    have hrunning : ∀ m ∈ p.course (Task.run n) (courseIfPlaced n) w,
        m.world.process.isPending = (true || m.inRun) := by
      intro m hm
      have hwithin : m.world.process.isPending = (before || true) :=
        h m.within (List.mem_map_of_mem hm)
      rw [hwithin, Bool.or_true, Bool.true_or]
    exact hp hrunning

theorem Task.Placed.asks {t : Task α} (h : t.Placed w) :
    t.plan.Asks (Task.run n) (fun s u => s.Placed u) w :=
  Plan.asks_placed (Task.plan_safe (trusted_courseIfPlaced n) h.1 t h.2).inRun

/-- From a sealed world every task is called from a sealed world, and given what it may be given
there. -/
theorem Task.placed_of_call {t : Task α} (h : t.Placed w) {c : Call} (hc : c ∈ t.calls n w) :
    c.task.Placed c.world :=
  Task.calls_of (D := fun _ t w => t.Placed w) (fun _ _ _ h => h.asks) n t w h c hc

end Sealed

end Run

end LineScript
