import LineScript.Proofs.Run.Plan
import Mathlib

/-!
# How runs end

A run that was exhausted says nothing of the program: under a larger bound it may go on. Main
statement: a run that ended under some bound ends in the same way under every larger one, so that a
task, and every plan, ends in one way at most, whatever the bound; and a task ends as its plan does.
Plans that end in the same ways may stand for each other.
-/

namespace LineScript

namespace Run

variable {α β : Type}

/-- The end of a run that was not exhausted: with a result or with a fault, and in a world. -/
def ended : Except Fault α → World → EStateM.Result Stop World α
  | .ok a, w => .ok a w
  | .error f, w => .error (.fault f) w

theorem ended_inj {r s : Except Fault α} {w v : World} (h : ended r w = ended s v) :
    r = s ∧ w = v := by
  cases r <;> cases s <;> cases h <;> exact ⟨rfl, rfl⟩

/-- A task ends with a result or a fault, in a world, if it does so under some bound. -/
def Task.Ends (t : Task α) (w : World) (r : Except Fault α) (w' : World) : Prop :=
  ∃ n, t.run n w = ended r w'

theorem ended_or_exhausted (s : EStateM.Result Stop World α) :
    (∃ r w, s = ended r w) ∨ ∃ w, s = .error .exhausted w := by
  cases s with
  | ok a w => exact .inl ⟨.ok a, w, rfl⟩
  | error e w =>
    cases e with
    | fault f => exact .inl ⟨.error f, w, rfl⟩
    | exhausted => exact .inr ⟨w, rfl⟩

theorem exhausted_ne_ended {r : Except Fault α} {w w' : World} :
    (.error .exhausted w : EStateM.Result Stop World α) ≠ ended r w' := by
  cases r <;> exact nofun

/-- Something in two parts ends with a fault of the first, or as the second does where the first
has ended. -/
theorem bind_ended {x : Run α} {k : α → Run β} {w w' : World} {r : Except Fault β} :
    (x >>= k) w = ended r w' ↔
      (∃ f, x w = ended (.error f) w' ∧ r = .error f) ∨
        ∃ a w₁, x w = ended (.ok a) w₁ ∧ k a w₁ = ended r w' := by
  change EStateM.bind x k w = _ ↔ _
  unfold EStateM.bind
  constructor
  · intro h
    obtain ⟨f | a, w₁, hx⟩ | ⟨w₁, hx⟩ := ended_or_exhausted (x w)
    · rw [hx] at h
      obtain ⟨rfl, rfl⟩ := ended_inj (r := .error f) (w := w₁) h
      exact .inl ⟨f, hx, rfl⟩
    · rw [hx] at h
      exact .inr ⟨a, w₁, hx, h⟩
    · rw [hx] at h
      exact absurd h exhausted_ne_ended
  · rintro (⟨f, hx, rfl⟩ | ⟨a, w₁, hx, hk⟩)
    · rw [hx]
      rfl
    · rw [hx]
      exact hk

/-- Something ends like another thing wherever the other ends. -/
def Extends (x y : Run α) : Prop := ∀ w r w', y w = ended r w' → x w = ended r w'

/-- What is made of how two things end extends as they do, if it does not end where they are
exhausted. -/
theorem Extends.of_same {x y : Run α} {x' y' : Run β} (h : Extends x y)
    (hsame : ∀ w, x w = y w → x' w = y' w)
    (hexhausted : ∀ w w₁ r w', y w = .error .exhausted w₁ → y' w ≠ ended r w') :
    Extends x' y' := by
  intro w r w' hw
  obtain ⟨r₁, w₁, hy⟩ | ⟨w₁, hy⟩ := ended_or_exhausted (y w)
  · rw [hsame w ((h w r₁ w₁ hy).trans hy.symm), hw]
  · exact absurd hw (hexhausted w w₁ r w' hy)

namespace Plan

variable {run deeper : ∀ {α : Type}, Task α → Run α}

/-- A plan ends in the same way if its tasks do. -/
theorem carry_extends (h : ∀ {α : Type} (t : Task α), Extends (deeper t) (run t)) (p : Plan α) :
    Extends (p.carry deeper) (p.carry run) := by
  induction p with
  | step event x => exact fun _ _ _ hx => hx
  | task t => exact h t
  | bind p k hp hk =>
    intro w r w' hw
    refine bind_ended.2 ((bind_ended.1 hw).imp ?_ ?_)
    · rintro ⟨f, hf, rfl⟩
      exact ⟨f, hp w _ w' hf, rfl⟩
    · rintro ⟨a, w₁, ha, hka⟩
      exact ⟨a, w₁, hp w _ w₁ ha, hk a w₁ r w' hka⟩
  | attempt p hp =>
    refine hp.of_same (fun w hw => ?_) fun w w₁ r w' hw h => ?_
    · simp only [carry, Run.attempt, hw]
    · simp only [carry, Run.attempt, hw] at h
      exact exhausted_ne_ended h
  | atLine line p hp =>
    refine hp.of_same (fun w hw => ?_) fun w w₁ r w' hw h => ?_
    · simp only [carry, Run.atLine, hw]
    · simp only [carry, Run.atLine, hw] at h
      exact exhausted_ne_ended h
  | inRun p hp => exact hp

end Plan

namespace Task

/-- One more nested step changes nothing where the bound was not reached. -/
theorem run_extends_succ (n : Nat) (t : Task α) : Extends (t.run (n + 1)) (t.run n) := by
  induction n generalizing α with
  | zero =>
    intro w r w' h
    rw [run_zero] at h
    exact absurd h exhausted_ne_ended
  | succ n ih =>
    rw [run_succ, run_succ n]
    exact Plan.carry_extends (fun t => ih t) t.plan

/-- A larger bound changes nothing where the bound was not reached. -/
theorem run_extends {n m : Nat} (h : n ≤ m) (t : Task α) : Extends (t.run m) (t.run n) := by
  induction h with
  | refl => exact fun _ _ _ hx => hx
  | step _ ih => exact fun w r w' hx => run_extends_succ _ t w r w' (ih w r w' hx)

end Task

namespace Plan

variable {p q : Plan α} {w w' : World} {r : Except Fault α}

/-- A plan ends with a result or a fault, in a world, if it does so under some bound. -/
def Ends (p : Plan α) (w : World) (r : Except Fault α) (w' : World) : Prop :=
  ∃ n, p.carry (Task.run n) w = ended r w'

theorem carry_deeper {n m : Nat} (h : n ≤ m) (p : Plan α) :
    Extends (p.carry (Task.run m)) (p.carry (Task.run n)) :=
  carry_extends (fun t => t.run_extends h) p

/-- A plan ends in one way at most. -/
theorem Ends.unique {s : Except Fault α} {v : World} (h : p.Ends w r w') (h' : p.Ends w s v) :
    r = s ∧ w' = v := by
  obtain ⟨n, hn⟩ := h
  obtain ⟨m, hm⟩ := h'
  have hdeep := carry_deeper (Nat.le_max_left n m) p w r w' hn
  rw [carry_deeper (Nat.le_max_right n m) p w s v hm] at hdeep
  obtain ⟨rfl, rfl⟩ := ended_inj hdeep
  exact ⟨rfl, rfl⟩

theorem carry_seq (k : α → Plan β) :
    (p >>= k).carry run = p.carry run >>= fun a => (k a).carry run := rfl

theorem carry_return (a : α) : (pure a : Plan α).carry run = pure a := rfl

theorem carry_if {c : Prop} [Decidable c] :
    (if c then p else q).carry run = if c then p.carry run else q.carry run := by
  split <;> rfl

theorem ends_task {t : Task α} : (Plan.task t).Ends w r w' ↔ t.Ends w r w' := Iff.rfl

theorem ends_plain {x : Run α} : (plain x).Ends w r w' ↔ x w = ended r w' :=
  ⟨fun ⟨_, h⟩ => h, fun h => ⟨0, h⟩⟩

theorem ends_pure {a : α} : (pure a : Plan α).Ends w r w' ↔ r = .ok a ∧ w' = w := by
  constructor
  · rintro ⟨_, h⟩
    obtain ⟨rfl, rfl⟩ := ended_inj (r := .ok a) (w := w) h
    exact ⟨rfl, rfl⟩
  · rintro ⟨rfl, rfl⟩
    exact ⟨0, rfl⟩

theorem ends_read {f : World → Except Fault α} :
    (plain (read f)).Ends w r w' ↔ r = f w ∧ w' = w := by
  have h : read f w = ended (f w) w := by
    cases hf : f w <;> simp only [read, hf, ended]
  rw [ends_plain, h]
  constructor
  · intro hended
    obtain ⟨rfl, rfl⟩ := ended_inj hended
    exact ⟨rfl, rfl⟩
  · rintro ⟨rfl, rfl⟩
    rfl

theorem ends_produce {f : World → α × World} :
    (plain (produce f)).Ends w r w' ↔ r = .ok (f w).1 ∧ w' = (f w).2 := by
  rw [ends_plain]
  constructor
  · intro h
    obtain ⟨rfl, rfl⟩ := ended_inj (r := .ok (f w).1) (w := (f w).2) h
    exact ⟨rfl, rfl⟩
  · rintro ⟨rfl, rfl⟩
    rfl

/-- What comes first stops with a fault, or ends with a result and what is behind it goes on. -/
theorem ends_bind {k : α → Plan β} {r : Except Fault β} : (p >>= k).Ends w r w' ↔
    (∃ f, p.Ends w (.error f) w' ∧ r = .error f) ∨
      ∃ a w₁, p.Ends w (.ok a) w₁ ∧ (k a).Ends w₁ r w' := by
  constructor
  · rintro ⟨n, h⟩
    refine (bind_ended.1 h).imp ?_ ?_
    · rintro ⟨f, hf, rfl⟩
      exact ⟨f, ⟨n, hf⟩, rfl⟩
    · rintro ⟨a, w₁, ha, hka⟩
      exact ⟨a, w₁, ⟨n, ha⟩, n, hka⟩
  · rintro (⟨f, ⟨n, hp⟩, rfl⟩ | ⟨a, w₁, ⟨n, hp⟩, m, hk⟩)
    · exact ⟨n, bind_ended.2 (.inl ⟨f, hp, rfl⟩)⟩
    · -- Both parts end under the greater of the two bounds.
      have hfirst := carry_deeper (Nat.le_max_left n m) p w (.ok a) w₁ hp
      have hthen := carry_deeper (Nat.le_max_right n m) (k a) w₁ r w' hk
      exact ⟨max n m, bind_ended.2 (.inr ⟨a, w₁, hfirst, hthen⟩)⟩

theorem ends_bind_ok {k : α → Plan β} {b : β} : (p >>= k).Ends w (.ok b) w' ↔
    ∃ a w₁, p.Ends w (.ok a) w₁ ∧ (k a).Ends w₁ (.ok b) w' := by
  rw [ends_bind]
  constructor
  · rintro (⟨f, -, hf⟩ | h)
    · cases hf
    · exact h
  · exact .inr

theorem ends_get {k : World → Plan α} : (plain get >>= k).Ends w r w' ↔ (k w).Ends w r w' :=
  Iff.rfl

/-- What only makes something of a result leaves faults as they are. -/
theorem ends_map {g : α → β} {r : Except Fault β} :
    (p >>= fun a => pure (g a)).Ends w r w' ↔ ∃ out, p.Ends w out w' ∧ r = out.map g := by
  rw [ends_bind]
  constructor
  · rintro (⟨f, h, rfl⟩ | ⟨a, w₁, h, hmade⟩)
    · exact ⟨.error f, h, rfl⟩
    · obtain ⟨rfl, rfl⟩ := ends_pure.1 hmade
      exact ⟨.ok a, h, rfl⟩
  · rintro ⟨f | a, h, rfl⟩
    · exact .inl ⟨f, h, rfl⟩
    · exact .inr ⟨a, w', h, ends_pure.2 ⟨rfl, rfl⟩⟩

/-- What is made of a result may depend on the world then. -/
theorem ends_map_get {g : α → World → β} {r : Except Fault β} :
    (p >>= fun a => plain get >>= fun w => pure (g a w)).Ends w r w' ↔
      ∃ out, p.Ends w out w' ∧ r = out.map (g · w') := by
  rw [← ends_map, ends_bind, ends_bind]
  refine or_congr Iff.rfl (exists_congr fun a => exists_congr fun w₁ => and_congr_right fun _ => ?_)
  rw [ends_get, ends_pure, ends_pure]
  constructor
  all_goals
    rintro ⟨rfl, rfl⟩
    exact ⟨rfl, rfl⟩

/-- Behind a single step with a result, only what follows it is left. -/
theorem ends_step {x : Run α} {a : α} {w₁ : World} {k : α → Plan β} {r : Except Fault β}
    (h : x w = .ok a w₁) : (plain x >>= k).Ends w r w' ↔ (k a).Ends w₁ r w' := by
  refine exists_congr fun n => ?_
  change EStateM.bind x (fun a => (k a).carry (Task.run n)) w = _ ↔ _
  unfold EStateM.bind
  rw [h]

/-- Plans are equivalent that, from every world, end in the same ways. -/
def Equivalent (p q : Plan α) : Prop := ∀ w r w', p.Ends w r w' ↔ q.Ends w r w'

namespace Equivalent

theorem refl (p : Plan α) : Equivalent p p := fun _ _ _ => Iff.rfl

theorem symm (h : Equivalent p q) : Equivalent q p := fun w r w' => (h w r w').symm

theorem trans {s : Plan α} (h : Equivalent p q) (h' : Equivalent q s) : Equivalent p s :=
  fun w r w' => (h w r w').trans (h' w r w')

theorem bind {k l : α → Plan β} (h : Equivalent p q) (hk : ∀ a, Equivalent (k a) (l a)) :
    Equivalent (p >>= k) (q >>= l) := by
  intro w r w'
  rw [ends_bind, ends_bind]
  apply or_congr
  · exact exists_congr fun f => and_congr_left fun _ => h w _ w'
  · exact exists_congr fun a => exists_congr fun w₁ => and_congr (h w _ w₁) (hk a w₁ r w')

theorem of_carry (h : ∀ n, p.carry (Task.run n) = q.carry (Task.run n)) : Equivalent p q :=
  fun w r w' => exists_congr fun n => by rw [h]

theorem bind_left {k : α → Plan β} (h : Equivalent p q) : Equivalent (p >>= k) (q >>= k) :=
  h.bind fun _ => .refl _

theorem bind_assoc {γ : Type} (p : Plan α) (k : α → Plan β) (l : β → Plan γ) :
    Equivalent (p >>= k >>= l) (p >>= fun a => k a >>= l) :=
  of_carry fun n => LawfulMonad.bind_assoc (p.carry (Task.run n)) _ _

theorem pure_bind (a : α) (k : α → Plan β) : Equivalent (pure a >>= k) (k a) :=
  of_carry fun _ => LawfulMonad.pure_bind a _

/-- A task is equivalent to its plan. -/
theorem task (t : Task α) : Equivalent (.task t) t.plan := by
  intro w r w'
  constructor
  · rintro ⟨n, h⟩
    have hdeep := t.run_extends_succ n w r w' h
    rw [Task.run_succ] at hdeep
    exact ⟨n, hdeep⟩
  · rintro ⟨n, h⟩
    refine ⟨n + 1, ?_⟩
    change t.run (n + 1) w = _
    rw [Task.run_succ]
    exact h

end Equivalent

end Plan

end Run

end LineScript
