import LineScript.Proofs.Run.Plan
import LineScript.Proofs.World.Proper

/-!
# Accounting for the steps of a run

Whether a run is under way or was asked to end, and what is in the table of global functions,
changes only in steps that are noted, and for each in one way only. A plan is safe if that is so all
along its course and it ends in a sealed world. Main statements: single steps that leave tables
alone are safe, and plans made of safe parts are safe.
-/

namespace LineScript

namespace Run

open World (Inert Proper Standing)

/-- What becomes of the standing of a session in a step, by what the step is noted for. -/
def Moment.after (m : Moment) (s : Standing) : Standing :=
  match m.event with
  | some .began => ⟨true, false, s.table.extend (World.globalTable ++ m.world.configuration.table)⟩
  | some .ended => { s with isPending := false }
  | some .exited => { s with isExit := true }
  | some .rebuilt => { s with table := .empty }
  | _ => s

/-- When a step can be noted for something: a run begins and frames are replaced only while none is
under way, and what ends or is asked to end is a run. -/
def Event.Allowed (s : Standing) : Option Event → Prop
  | some .began => s.isPending = false
  | some .rebuilt => s.isPending = false
  | some .ended => s.isPending = true
  | some .exited => s.isPending = true
  | _ => True

/-- Moments that lead from one standing of a session to another, each by what it is noted for. -/
inductive Account : Standing → List Moment → Standing → Prop where
  | nil (s : Standing) : Account s [] s
  | cons {s s' : Standing} {m : Moment} {ms : List Moment} (allowed : Event.Allowed s m.event)
      (here : m.world.standing = m.after s) (rest : Account m.world.standing ms s') :
      Account s (m :: ms) s'

namespace Account

variable {s s' s'' : Standing} {ms ns : List Moment}

theorem append (h : Account s ms s') (h' : Account s' ns s'') : Account s (ms ++ ns) s'' := by
  induction h with
  | nil => exact h'
  | cons allowed here _ ih => exact .cons allowed here (ih h')

/-- What leads to the middle of an account, and what leads on from there. -/
theorem split (h : Account s (ms ++ ns) s'') : ∃ s', Account s ms s' ∧ Account s' ns s'' := by
  induction ms generalizing s with
  | nil => exact ⟨s, .nil s, h⟩
  | cons m ms ih =>
    cases h with
    | cons allowed here rest =>
      obtain ⟨s', hms, hns⟩ := ih rest
      exact ⟨s', .cons allowed here hms, hns⟩

theorem within (h : Account s ms s') : Account s (ms.map Moment.within) s' := by
  induction h with
  | nil => exact .nil _
  | cons allowed here _ ih => exact .cons allowed here ih

/-- Where an account leads to can be told from what its moments are noted for. -/
theorem last_eq (h : Account s ms s') : s' = ms.foldl (fun s m => m.after s) s := by
  induction h with
  | nil => rfl
  | cons _ here _ ih => rw [ih, List.foldl_cons, here]

end Account

variable {α β : Type} {pending : Bool}

/-- A step ends in a sealed world, and what it gives may be held there. -/
def Lands (pending : Bool) (w : World) (held : α → World → Prop) :
    EStateM.Result Stop World α → Prop
  | .ok a w' => w'.Sealed pending ∧ w.Later w' ∧ held a w'
  | .error (.fault _) w' => w'.Sealed pending ∧ w.Later w'
  | .error .exhausted _ => True

/-- A step that leaves tables alone. -/
def Harmless (pending : Bool) (held : α → World → Prop) (x : Run α) (w : World) : Prop :=
  match x w with
  | .ok a w' => Inert pending w w' ∧ held a w'
  | .error _ w' => Inert pending w w'

/-- All changes to the standing of a session are accounted for, and the plan ends in a sealed world,
while a run is under way or not. On the way a run is under way in the steps of a program, and in the
others if it is so around the plan. -/
structure Plan.Safe (run : ∀ {α : Type}, Task α → Run α)
    (below : ∀ {α : Type}, Task α → World → List Moment) (around pending : Bool)
    (held : α → World → Prop) (p : Plan α) (w : World) : Prop where
  account : Account w.standing (p.course run below w) (reached (p.carry run w)).standing
  lands : Lands pending w held (p.carry run w)
  inRun : ∀ m ∈ p.course run below w, m.world.process.isPending = (around || m.inRun)

theorem Lands.mono {w : World} {held held' : α → World → Prop}
    {x : EStateM.Result Stop World α} (h : Lands pending w held x)
    (himp : ∀ a w', w'.Sealed pending → held a w' → held' a w') : Lands pending w held' x := by
  cases x with
  | ok a w' => exact ⟨h.1, h.2.1, himp a w' h.1 h.2.2⟩
  | error e w' => cases e <;> exact h

theorem Lands.after {w w' : World} {held : α → World → Prop} {x : EStateM.Result Stop World α}
    (hlater : w.Later w') (h : Lands pending w' held x) : Lands pending w held x := by
  cases x with
  | ok a w'' => exact ⟨h.1, hlater.trans h.2.1, h.2.2⟩
  | error e w'' =>
    cases e with
    | fault f => exact ⟨h.1, hlater.trans h.2⟩
    | exhausted => trivial

namespace Plan.Safe

variable {run : ∀ {α : Type}, Task α → Run α} {below : ∀ {α : Type}, Task α → World → List Moment}
  {w : World} {held : α → World → Prop} {around before : Bool}

theorem step {event : World → Option Event} {x : Run α}
    (hallowed : Event.Allowed w.standing (event w))
    (hmoves : (reached (x w)).standing = Moment.after ⟨event w, false, reached (x w)⟩ w.standing)
    (hlands : Lands pending w held (x w))
    (hpending : (reached (x w)).process.isPending = around) :
    Safe run below around pending held (.step event x) w where
  account := .cons hallowed hmoves (.nil _)
  lands := hlands
  inRun m hm := by
    obtain rfl := List.mem_singleton.1 hm
    rw [Bool.or_false]
    exact hpending

/-- A step that is noted for nothing and leaves tables alone. -/
theorem harmless {event : World → Option Event} {x : Run α} (hevent : event w = none)
    (h : Harmless pending held x w) : Safe run below pending pending held (.step event x) w := by
  have hallowed : Event.Allowed w.standing (event w) := by
    rw [hevent]
    trivial
  unfold Harmless at h
  cases hx : x w with
  | ok a w' =>
    rw [hx] at h
    apply step hallowed
    · rw [hx, hevent]
      exact h.1.standing
    · rw [hx]
      exact ⟨h.1.isSealed, h.1.later, h.2⟩
    · rw [hx]
      exact h.1.isSealed.isPending
  | error e w' =>
    rw [hx] at h
    apply step hallowed
    · rw [hx, hevent]
      exact h.standing
    · rw [hx]
      cases e with
      | fault f => exact ⟨h.isSealed, h.later⟩
      | exhausted => trivial
    · rw [hx]
      exact h.isSealed.isPending

theorem mono {p : Plan α} {held' : α → World → Prop}
    (hp : Safe run below around pending held p w)
    (himp : ∀ a w', w'.Sealed pending → held a w' → held' a w') :
    Safe run below around pending held' p w :=
  ⟨hp.account, hp.lands.mono himp, hp.inRun⟩

theorem plain {x : Run α} (h : Harmless pending held x w) :
    Safe run below pending pending held (plain x) w := harmless rfl h

theorem pure (hw : w.Sealed pending) {a : α} (ha : held a w) :
    Safe run below pending pending held (Pure.pure a) w :=
  plain ⟨.refl hw, ha⟩

/-- What follows goes by what is held behind the first part. A part that begins or ends a run does
not stop with a fault. -/
theorem bindChanging {p : Plan α} {k : α → Plan β} {held' : β → World → Prop}
    (hp : Safe run below around before held p w)
    (hstop : before = pending ∨ ∀ f w', p.carry run w ≠ .error (.fault f) w')
    (hk : ∀ a w', w'.Sealed before → w.Later w' → held a w' →
      Safe run below around pending held' (k a) w') :
    Safe run below around pending held' (p >>= k) w := by
  change Safe run below around pending held' (.bind p k) w
  have hlands := hp.lands
  have haccount := hp.account
  cases hx : p.carry run w with
  | ok a w' =>
    rw [hx] at hlands haccount
    have hrest := hk a w' hlands.1 hlands.2.1 hlands.2.2
    constructor
    · rw [course, carry, bind_apply, hx]
      exact haccount.append hrest.account
    · rw [carry, bind_apply, hx]
      exact hrest.lands.after hlands.2.1
    · intro m hm
      rw [course, hx] at hm
      rcases List.mem_append.1 hm with hm | hm
      · exact hp.inRun m hm
      · exact hrest.inRun m hm
  | error e w' =>
    rw [hx] at hlands haccount hstop
    constructor
    · rw [course, carry, bind_apply, hx]
      exact haccount.append (.nil _)
    · rw [carry, bind_apply, hx]
      cases e with
      | exhausted => trivial
      | fault f =>
        rcases hstop with rfl | hstop
        · exact hlands
        · exact absurd rfl (hstop f w')
    · intro m hm
      rw [course, hx, List.append_nil] at hm
      exact hp.inRun m hm

theorem bind {p : Plan α} {k : α → Plan β} {held' : β → World → Prop}
    (hp : Safe run below around pending held p w)
    (hk : ∀ a w', w'.Sealed pending → w.Later w' → held a w' →
      Safe run below around pending held' (k a) w') :
    Safe run below around pending held' (p >>= k) w :=
  hp.bindChanging (.inl rfl) hk

theorem map {p : Plan α} {f : α → β} {held' : β → World → Prop}
    (hp : Safe run below pending pending held p w)
    (hf : ∀ a w', w'.Sealed pending → held a w' → held' (f a) w') :
    Safe run below pending pending held' (f <$> p) w :=
  hp.bind fun a w' hw' _ ha => pure hw' (hf a w' hw' ha)

/-- Reading the world. -/
theorem get {k : World → Plan β} {held' : β → World → Prop} (hw : w.Sealed around)
    (hk : Safe run below around pending held' (k w) w) :
    Safe run below around pending held' (Plan.plain MonadState.get >>= k) w := by
  have hget : Safe run below around around (fun a w' => a = w ∧ w' = w)
      (Plan.plain MonadState.get) w := plain ⟨.refl hw, rfl, rfl⟩
  apply hget.bindChanging
  · right
    intro f w' hstop
    cases hstop
  · rintro a w' _ _ ⟨rfl, rfl⟩
    exact hk

theorem attempt {p : Plan α} (hp : Safe run below around pending held p w) :
    Safe run below around pending (fun r w' => ∀ a, r = .ok a → held a w') (.attempt p) w where
  account := by
    rw [course, carry, reached_attempt]
    exact hp.account
  lands := by
    have hlands := hp.lands
    rw [carry, Run.attempt]
    cases hx : p.carry run w with
    | ok a w' =>
      rw [hx] at hlands
      refine ⟨hlands.1, hlands.2.1, ?_⟩
      intro b hb
      cases hb
      exact hlands.2.2
    | error e w' =>
      rw [hx] at hlands
      cases e with
      | exhausted => trivial
      | fault f =>
        refine ⟨hlands.1, hlands.2, ?_⟩
        intro a ha
        cases ha
  inRun := hp.inRun

theorem atLine {p : Plan α} (line : Nat) (hp : Safe run below around pending held p w) :
    Safe run below around pending held (.atLine line p) w where
  account := by
    rw [course, carry, reached_atLine]
    exact hp.account
  lands := by
    have hlands := hp.lands
    rw [carry, Run.atLine]
    cases hx : p.carry run w with
    | ok a w' =>
      rw [hx] at hlands
      exact hlands
    | error e w' =>
      rw [hx] at hlands
      cases e <;> exact hlands
  inRun := hp.inRun

/-- In the steps of a program a run is under way, whatever is so around it. -/
theorem inProgram {p : Plan α} (hp : Safe run below true pending held p w) :
    Safe run below around pending held (.inRun p) w where
  account := hp.account.within
  lands := hp.lands
  inRun m hm := by
    obtain ⟨m', hm', rfl⟩ := List.mem_map.1 hm
    have hrunning := hp.inRun m' hm'
    rw [Bool.true_or] at hrunning
    change m'.world.process.isPending = (around || true)
    rw [hrunning, Bool.or_true]

end Plan.Safe

end Run

end LineScript
