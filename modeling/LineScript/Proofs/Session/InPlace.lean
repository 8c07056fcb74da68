import LineScript.Proofs.Run.Abreast
import LineScript.Proofs.Session.History

/-!
# Imported code and code in place

Imported code runs in a temporary frame behind the one that imports it. Main statement: compared
with a run of the same code in the importing frame itself, the same is done step by step and with
the same outcome exactly if no statement of the imported code begins late. A late statement stands
behind a `return`, a `break` or a `continue` that ends the importing block: a block on the detour
does not heed them.
-/

namespace LineScript

namespace World

variable {w : World} {pending : Bool}

/-- The frames that hold the variables of a frame were made before it. -/
theorem Linked.holders_le {r : FrameRef} {f : Frame} {frames : List (FrameRef × Frame)}
    (h : w.Linked r f frames) :
    (∀ g, f.globals = some g → g.index ≤ r.index) ∧
      ∀ l, f.locals = some l → l.index ≤ r.index := by
  induction h with
  | root _ _ _ _ _ globals locals =>
    rw [globals, locals]
    constructor <;> nofun
  | @fork r p f g outer _ _ _ earlier _ _ globals locals _ ih =>
    obtain ⟨ihglobals, ihlocals⟩ := ih
    constructor
    · intro s hs
      rw [globals] at hs
      split at hs
      · cases hs
        exact Nat.le_refl _
      · exact Nat.le_trans (ihglobals s hs) (Nat.le_of_lt earlier)
    · intro l hl
      rw [locals] at hl
      split at hl
      · cases hl
        exact Nat.le_refl _
      · exact Nat.le_trans (ihlocals l hl) (Nat.le_of_lt earlier)

/-- The detour that imported code takes around a frame. -/
def importDetour (w : World) (r : FrameRef) (target : String) : Detour :=
  ⟨r, (w.fork r .external true (some target) none).1⟩

/-- The world in which imported code runs that is imported in a frame. -/
def importWorld (w : World) (r : FrameRef) (target : String) : World :=
  (w.fork r .external true (some target) none).2

theorem WellLinked.descends (h : w.WellLinked) {d : Detour} (hfork : d.fork.index = w.frames.size)
    {r : FrameRef} {f : Frame} (hf : w.frame? r = some f) : f.Descends d r := by
  have hlt : r.index < w.frames.size := Heap.lt_size_of_get? hf
  have hne : ∀ s : FrameRef, s.index ≤ r.index → s ≠ d.fork := by
    rintro s hle rfl
    omega
  obtain ⟨frames, hlinked⟩ := h.linked r f hf
  obtain ⟨hglobals, hlocals⟩ := hlinked.holders_le
  refine ⟨?_, fun g hg => ⟨hglobals g hg, hne g (hglobals g hg)⟩,
    fun l hl => ⟨hlocals l hl, hne l (hlocals l hl)⟩⟩
  intro p hp
  cases hlinked with
  | root _ _ previous =>
    rw [previous] at hp
    cases hp
  | fork _ _ previous earlier =>
    cases previous.symm.trans hp
    exact earlier

/-- A world is like itself if nothing refers to the fork of the detour. -/
theorem Alike.self {d : Detour} {f g : Frame} (hopen : d.Open w f g)
    (hclosures : ∀ i declaration r, w.functions.get? i = some (.closure declaration r) → r ≠ d.fork)
    (hconfigured : w.configuration.api ≠ d.fork ∧ w.configuration.global ≠ d.fork)
    (hprevious : ∀ r k p, w.frame? r = some k → k.previous = some p → p ≠ d.fork)
    (hactive : ∀ r, w.process.lastActive = some r → r ≠ d.fork)
    (hdescends : ∀ r k, w.frame? r = some k → k.Descends d r) : w.Alike d w := by
  have hmap : ∀ r? : Option FrameRef, (∀ r, r? = some r → r ≠ d.fork) → r? = r?.map d.home := by
    intro r? hr
    cases r? with
    | none => rfl
    | some r => rw [Option.map_some, Detour.home_of_ne (hr r rfl)]
  have hfunctions : w.functions = w.functions.map (·.recapture d.home) := by
    apply Heap.ext_get?
    intro i
    rw [Heap.get?_map]
    cases hi : w.functions.get? i with
    | none => rfl
    | some k =>
      cases k with
      | closure declaration r =>
        rw [Option.map_some, FunctionObject.recapture, Detour.home_of_ne (hclosures i _ r hi)]
      | host name parameters action => rfl
  refine ⟨?_, rfl, rfl, hconfigured, rfl, ?_, ?_, ?_, hdescends, f, g, hopen⟩
  · unfold against backdrop
    rw [← hfunctions]
  · intro r
    cases hr : w.frame? r with
    | none => exact .none
    | some k =>
      refine .some ⟨rfl, rfl, rfl, rfl, ?_, rfl, rfl, rfl, rfl, rfl, rfl, rfl, rfl, rfl⟩
      exact hmap _ fun p hp => hprevious r k p hr hp
  · exact ⟨rfl, rfl, hmap _ hactive⟩
  · exact ⟨rfl, rfl, rfl, List.forall₂_same.2 fun p _ => ⟨rfl, rfl, rfl⟩⟩

/-- The frame that is made for imported code. -/
theorem fork_external {r : FrameRef} {f : Frame} (hf : w.frame? r = some f) (target : String) :
    ∃ g : Frame, w.fork r .external true (some target) none = (⟨w.frames.size⟩, w.withFrame g) ∧
      f.Serves g ∧ g.kind = .external ∧ g.isTemporary = true ∧ g.previous = some r := by
  unfold World.fork
  rw [hf]
  exact ⟨_, rfl, ⟨rfl, rfl, rfl, rfl, rfl, rfl⟩, rfl, rfl, rfl⟩

/-- At first nothing has been done on the detour. -/
theorem Sealed.alike_importWorld (hw : w.Sealed pending) {r : FrameRef} (hr : w.IsSite r)
    (target : String) :
    (w.importWorld r target).Alike (w.importDetour r target) (w.importWorld r target) := by
  obtain ⟨f, hf, hlocals⟩ := hr
  obtain ⟨g, hfork, hserves, hkind, htemporary, hprevious⟩ := fork_external hf target
  unfold importWorld importDetour
  rw [hfork]
  have hlt : r.index < w.frames.size := Heap.lt_size_of_get? hf
  have hmade : ∀ {s : FrameRef} {k : Frame}, w.frame? s = some k → s ≠ ⟨w.frames.size⟩ := by
    rintro s k hk rfl
    exact Nat.lt_irrefl _ (Heap.lt_size_of_get? hk)
  have hdescends : ∀ s k, (w.withFrame g).frame? s = some k →
      k.Descends ⟨r, ⟨w.frames.size⟩⟩ s := by
    intro s k hk
    rw [frame?_withFrame] at hk
    split at hk
    next hs =>
      cases hk
      obtain ⟨-, hglobals, hlocals⟩ := hw.linked.descends (d := ⟨r, ⟨w.frames.size⟩⟩) rfl hf
      refine ⟨?_, ?_, ?_⟩
      · intro p hp
        cases hprevious.symm.trans hp
        omega
      · intro p hp
        obtain ⟨hle, hne⟩ := hglobals p (hserves.globals.trans hp)
        exact ⟨by omega, hne⟩
      · intro p hp
        obtain ⟨hle, hne⟩ := hlocals p (hserves.locals.trans hp)
        exact ⟨by omega, hne⟩
    · exact hw.linked.descends rfl hk
  have hopen : Detour.Open ⟨r, ⟨w.frames.size⟩⟩ (w.withFrame g) f g := by
    refine ⟨hserves, ?_, ?_, hlt, hkind, htemporary, hprevious, hserves.locals ▸ hlocals⟩
    · rw [frame?_withFrame, if_neg (Nat.ne_of_lt hlt)]
      exact hf
    · rw [frame?_withFrame, if_pos rfl]
  refine Alike.self hopen ?_ ?_ ?_ ?_ hdescends
  · intro i declaration s hs
    obtain ⟨k, hk, -⟩ := hw.closures i declaration s hs
    exact hmade hk
  · obtain ⟨a, ha, -⟩ := hw.api
    obtain ⟨k, hk, -⟩ := hw.global
    exact ⟨hmade ha, hmade hk⟩
  · rintro s k p hk hp rfl
    have hearlier : w.frames.size < s.index := (hdescends s k hk).previous _ hp
    have hsize : s.index < (w.frames.push g).size := Heap.lt_size_of_get? hk
    rw [Heap.size_push] at hsize
    omega
  · intro s hs
    obtain ⟨k, hk, -⟩ := hw.active s hs
    exact hmade hk

end World

namespace Run

/-- Two notes behind each other stand for two notes behind each other. -/
theorem Together.adjacent {d : Detour} {first before after : List Note} {a b : Note}
    (h : List.Forall₂ (Note.Beside d) first (before ++ a :: b :: after)) :
    ∃ before' after' a' b', first = before' ++ a' :: b' :: after' ∧ Note.Beside d a' a ∧
      Note.Beside d b' b := by
  induction before generalizing first with
  | nil =>
    cases h with
    | @cons a' _ _ _ ha h =>
      cases h with
      | @cons b' _ rest _ hb h => exact ⟨[], rest, a', b', rfl, ha, hb⟩
  | cons note before ih =>
    cases h with
    | @cons note' _ _ _ _ h =>
      obtain ⟨before', after', a', b', rfl, ha, hb⟩ := ih h
      exact ⟨note' :: before', after', a', b', rfl, ha, hb⟩

/-- In place a block does not go on once it was left. -/
theorem Heeding.goesOn {before after : List Note} {m : Moment} {r : FrameRef} {s : Statement}
    (h : Heeding (before ++ .moment m :: .begun r s :: after)) :
    m.world.isInterrupted r = false := by
  cases h.fromMoment with
  | step _ rest => cases rest
  | goOn goes _ _ => exact goes

/-- What is told together with a run in place is on time. -/
theorem onTime_of_heeding {d : Detour} {first second : List Note} (h : Heeding first)
    (hnotes : List.Forall₂ (Note.Beside d) first second) : OnTime d second := by
  apply List.isChain_iff_forall_rel_of_append_cons_cons.2
  rintro a b before after rfl
  obtain ⟨before', after', a', b', rfl, ha, hb⟩ := Together.adjacent hnotes
  cases ha with
  | @moment m k _ _ worlds =>
    cases hb with
    | begun r statement =>
      change (r = d.fork && k.world.isInterrupted d.frame) = false
      by_cases hr : r = d.fork
      · have hgoes := h.goesOn
        rw [hr, Detour.home_fork, worlds.isInterrupted_eq] at hgoes
        rw [hgoes, Bool.and_false]
      · rw [decide_eq_false hr, Bool.false_and]
    | _ => rfl
  | _ => rfl

end Run

open Run

/-- Imported code does what it would do in place, as long as the host does not look at frames and
exactly if no statement is late. -/
theorem imported_inPlace_iff {pending : Bool} {w : World} (hw : w.Sealed pending) {site : Site}
    (hsite : w.IsSite site.frame) (target : String) (chunk : Operation) (n : Nat) :
    let d := w.importDetour site.frame target
    let made := w.importWorld site.frame target
    let log := (Task.eval chunk (site.enter d.fork)).log n made
    eval (n + 1) (.imported target chunk) site w = eval n chunk (site.enter d.fork) made ∧
    (Unseen log →
      (Together d ((Task.eval chunk site).log n made) log (eval n chunk site made)
        (eval n chunk (site.enter d.fork) made) ↔ OnTime d log)) := by
  intro d made log
  refine ⟨rfl, fun hunseen => ⟨fun h => ?_, fun hon => ?_⟩⟩
  · exact onTime_of_heeding (Task.log_heeding n (.eval chunk site) made) h.notes
  · have hbeside : site.Beside d (site.enter d.fork) := d.home_fork.symm
    exact abreast d n (hw.alike_importWorld hsite target) hbeside (.eval chunk) ⟨hunseen, hon⟩

/-- The frame of a call, in a session that has just begun. -/
def firstCall : FrameRef × World :=
  (World.initial .plain []).fork (World.initial .plain []).configuration.global .function false none
    none

/-- A file that returns and goes on. -/
def returnAndGoOn : Operation :=
  .chunk [.mk (.returnFrom none) .origin, .mk (.constant true) .origin]

/-- Imported into a function, the file goes on behind its `return`. -/
theorem imported_inPlace_iff_returnAndGoOn :
    let w := firstCall.2
    let site : Site := ⟨firstCall.1, []⟩
    let d := w.importDetour site.frame "file"
    let made := w.importWorld site.frame "file"
    let log := (Task.eval returnAndGoOn (site.enter d.fork)).log 6 made
    w.Sealed false ∧ w.IsSite site.frame ∧ Unseen log ∧ ¬ OnTime d log ∧
      ¬ Together d ((Task.eval returnAndGoOn site).log 6 made) log (eval 6 returnAndGoOn site made)
        (eval 6 returnAndGoOn (site.enter d.fork) made) := by
  intro w site d made log
  have hfirst := (World.initial_sealed .plain []).1
  obtain ⟨hinert, hsite⟩ : World.Inert false (World.initial .plain []) w ∧ w.IsSite site.frame :=
    World.Inert.fork hfirst none none hfirst.global_site rfl
  have hunseen : Unseen log := by decide +kernel
  have hlate : ¬ OnTime d log := by decide +kernel
  obtain ⟨-, hiff⟩ := imported_inPlace_iff hinert.isSealed hsite "file" returnAndGoOn 6
  exact ⟨hinert.isSealed, hsite, hunseen, hlate, mt (hiff hunseen).1 hlate⟩

end LineScript
