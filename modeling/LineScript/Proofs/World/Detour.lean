import LineScript.Proofs.World.Backdrop
import LineScript.Proofs.World.Scoping
import LineScript.Run.Steps
import Mathlib.Data.List.Forall2

/-!
# A frame and a detour around it

Code may run in a frame, or in a temporary frame behind it that leaves its variables, its loop and
its call to the frame. Two worlds are alike if they differ in nothing but that. Main statements: in
alike worlds variables are read and written in the same places, and changes of all kinds keep the
worlds alike.
-/

namespace LineScript

/-- A frame, and a temporary one behind it in which code may run in its place. -/
structure Detour where
  frame : FrameRef
  fork : FrameRef

namespace Detour

/-- The frame in whose place a frame stands. -/
def home (d : Detour) (r : FrameRef) : FrameRef := if r = d.fork then d.frame else r

@[simp] theorem home_fork (d : Detour) : d.home d.fork = d.frame := if_pos rfl

theorem home_of_ne {d : Detour} {r : FrameRef} (h : r ≠ d.fork) : d.home r = r := if_neg h

end Detour

/-- The same frame before and behind the detour. Where it runs is not compared. -/
structure Frame.Alike (d : Detour) (f g : Frame) : Prop where
  kind : f.kind = g.kind
  isTemporary : f.isTemporary = g.isTemporary
  isInjected : f.isInjected = g.isInjected
  scope : f.scope = g.scope
  previous : f.previous = g.previous.map d.home
  api : f.api = g.api
  globals : f.globals = g.globals
  locals : f.locals = g.locals
  loop : f.loop = g.loop
  call : f.call = g.call
  isBroken : f.isBroken = g.isBroken
  isContinued : f.isContinued = g.isContinued
  isReturned : f.isReturned = g.isReturned
  result : f.result = g.result

/-- The parts of a frame that are settled when it is made, its target and its variables apart. -/
structure Frame.SameMake (f g : Frame) : Prop where
  kind : f.kind = g.kind
  isTemporary : f.isTemporary = g.isTemporary
  isInjected : f.isInjected = g.isInjected
  previous : f.previous = g.previous
  api : f.api = g.api
  globals : f.globals = g.globals
  locals : f.locals = g.locals
  loop : f.loop = g.loop
  call : f.call = g.call

theorem Frame.SameMake.refl (f : Frame) : f.SameMake f :=
  ⟨rfl, rfl, rfl, rfl, rfl, rfl, rfl, rfl, rfl⟩

/-- The frames that a frame refers to were made before it, and no variables are looked for in the
fork of a detour. -/
structure Frame.Descends (d : Detour) (r : FrameRef) (f : Frame) : Prop where
  previous : ∀ p, f.previous = some p → p.index < r.index
  globals : ∀ g, f.globals = some g → g.index ≤ r.index ∧ g ≠ d.fork
  locals : ∀ l, f.locals = some l → l.index ≤ r.index ∧ l ≠ d.fork

/-- What code finds in its frame that runs there or on the detour. -/
structure Frame.Serves (f g : Frame) : Prop where
  isInjected : f.isInjected = g.isInjected
  api : f.api = g.api
  globals : f.globals = g.globals
  locals : f.locals = g.locals
  loop : f.loop = g.loop
  call : f.call = g.call

/-- The fork of a detour leaves all to its frame. -/
structure Detour.Open (d : Detour) (w : World) (f g : Frame) : Prop extends f.Serves g where
  frame : w.frame? d.frame = some f
  fork : w.frame? d.fork = some g
  earlier : d.frame.index < d.fork.index
  kind : g.kind = .external
  isTemporary : g.isTemporary = true
  previous : g.previous = some d.frame
  hasLocals : g.locals.isSome = true

/-- The same state of the run. Where the one has the frame of the detour, the other may have its
fork. -/
structure Process.Alike (d : Detour) (p q : Process) : Prop where
  isExit : p.isExit = q.isExit
  isPending : p.isPending = q.isPending
  lastActive : p.lastActive = q.lastActive.map d.home

/-- The same pause. In which frame it was is not compared. -/
structure Pause.Alike (p q : Pause) : Prop where
  position : p.position = q.position
  injected : p.injected = q.injected
  exit : p.exit = q.exit

/-- The same debugger, and the same pauses in the same order. -/
structure Debugger.Alike (a b : Debugger) : Prop where
  isArmed : a.isArmed = b.isArmed
  mayStep : a.mayStep = b.mayStep
  hook : a.hook = b.hook
  pauses : List.Forall₂ Pause.Alike a.pauses b.pauses

namespace World

/-- Two worlds that differ in nothing but the detour: where the one has its frame, the other may
have its fork. Which file runs in a frame and at which statement is not compared. -/
structure Alike (d : Detour) (v w : World) : Prop where
  rest : v = w.against { v.backdrop with captured := d.home }
  api : v.configuration.api = w.configuration.api
  global : v.configuration.global = w.configuration.global
  configured : w.configuration.api ≠ d.fork ∧ w.configuration.global ≠ d.fork
  size : v.frames.size = w.frames.size
  frames : ∀ r, Option.Rel (Frame.Alike d) (v.frame? r) (w.frame? r)
  process : v.process.Alike d w.process
  debugger : v.debugger.Alike w.debugger
  descends : ∀ r g, w.frame? r = some g → g.Descends d r
  opened : ∃ f g, d.Open w f g

/-- A path that does not begin with the name of a scope. -/
def Plain (path : Path) : Prop :=
  (∀ rest, path ≠ "locals" :: rest) ∧ ∀ rest, path ≠ "globals" :: rest

section Plain

variable {w : World} {r : FrameRef} {f : Frame} {path : Path} (hf : w.frame? r = some f)
  (hplain : Plain path) (n : Nat)

include hf hplain

theorem getFrom_plain :
    w.getFrom (n + 1) r path =
      if f.isTemporary then
        match f.previous with
        | some p => w.getFrom n p path
        | none => .ok .nil
      else
        match w.frame? (f.locals.getD r) with
        | none => .error (.of (.cannotGetPath (Path.text path)))
        | some l =>
          if path.isEmpty then .ok (scopeOf l)
          else
            match w.findInFrame l path with
            | some found => found
            | none =>
              match bareMethod? path with
              | some m => .ok m
              | none =>
                match l.previous with
                | some p => w.getFrom n p path
                | none => .error (.of (.cannotGetPath (Path.text path))) := by
  rw [getFrom, hf]
  dsimp only
  split
  · exact absurd rfl (hplain.1 _)
  · exact absurd rfl (hplain.2 _)
  · rfl

theorem slotFrom_plain :
    w.slotFrom (n + 1) r path =
      if f.isTemporary then
        match f.previous with
        | some p => w.slotFrom n p path
        | none => .error (.of (.cannotSetPath (Path.text path)))
      else
        match w.frame? (f.locals.getD r) with
        | none => .error (.of (.cannotSetPath (Path.text path)))
        | some l => w.slot (scopeOf l) path := by
  rw [slotFrom, hf]
  dsimp only
  split
  · exact absurd rfl (hplain.1 _)
  · exact absurd rfl (hplain.2 _)
  · rfl

end Plain

namespace Alike

variable {d : Detour} {v w : World} {α : Type}

theorem fork_lt (h : v.Alike d w) : d.fork.index < w.frames.size := by
  obtain ⟨f, g, hopen⟩ := h.opened
  exact Heap.lt_size_of_get? hopen.fork

theorem frame (h : v.Alike d w) {r : FrameRef} {g : Frame} (hg : w.frame? r = some g) :
    ∃ f, v.frame? r = some f ∧ f.Alike d g := by
  have hrel := h.frames r
  rw [hg] at hrel
  cases hf : v.frame? r with
  | none =>
    rw [hf] at hrel
    cases hrel
  | some f =>
    rw [hf] at hrel
    cases hrel with
    | some halike => exact ⟨f, rfl, halike⟩

theorem frame_none (h : v.Alike d w) {r : FrameRef} (hr : w.frame? r = none) :
    v.frame? r = none := by
  have hrel := h.frames r
  rw [hr] at hrel
  cases hf : v.frame? r with
  | none => rfl
  | some f =>
    rw [hf] at hrel
    cases hrel

/-- What code finds in its frame is the same on the detour. -/
theorem serves (h : v.Alike d w) (r : FrameRef) :
    Option.Rel Frame.Serves (v.frame? (d.home r)) (w.frame? r) := by
  by_cases hr : r = d.fork
  · obtain ⟨f, g, hopen⟩ := h.opened
    obtain ⟨f', hf', halike⟩ := h.frame hopen.frame
    rw [hr, Detour.home_fork, hf', hopen.fork]
    refine .some ⟨?_, ?_, ?_, ?_, ?_, ?_⟩
    · exact halike.isInjected.trans hopen.isInjected
    · exact halike.api.trans hopen.api
    · exact halike.globals.trans hopen.globals
    · exact halike.locals.trans hopen.locals
    · exact halike.loop.trans hopen.loop
    · exact halike.call.trans hopen.call
  · rw [Detour.home_of_ne hr]
    cases hg : w.frame? r with
    | none =>
      rw [h.frame_none hg]
      exact .none
    | some g =>
      obtain ⟨f, hf, halike⟩ := h.frame hg
      rw [hf]
      exact .some ⟨halike.isInjected, halike.api, halike.globals, halike.locals, halike.loop,
        halike.call⟩

/-- What is read from values alone is the same. -/
theorem reads (h : v.Alike d w) {f : World → α} (hf : ∀ w b, f (w.against b) = f w) :
    f v = f w := by
  rw [h.rest]
  exact hf w _

/-- Worlds stay alike if their frames, the run and the breakpoint are left alone. -/
theorem of_backdrop (h : v.Alike d w) {w' : World} (hw' : w'.backdrop = w.backdrop) :
    (w'.against { v.backdrop with captured := d.home }).Alike d w' := by
  have hframes : w'.frames = w.frames := congrArg Backdrop.frames hw'
  have hapi : w'.configuration.api = w.configuration.api := congrArg Backdrop.api hw'
  have hglobal : w'.configuration.global = w.configuration.global := congrArg Backdrop.global hw'
  have hframe : ∀ r, w'.frame? r = w.frame? r := by
    intro r
    rw [frame?, hframes]
    rfl
  obtain ⟨f, g, hopen⟩ := h.opened
  refine ⟨rfl, ?_, ?_, ?_, ?_, ?_, ?_, ?_, ?_, f, g, ?_⟩
  · exact h.api.trans hapi.symm
  · exact h.global.trans hglobal.symm
  · rw [hapi, hglobal]
    exact h.configured
  · exact h.size.trans (congrArg Heap.size hframes).symm
  · intro r
    rw [hframe]
    exact h.frames r
  · have hprocess : w'.process = w.process := congrArg Backdrop.process hw'
    rw [hprocess]
    exact h.process
  · have hdebugger : w'.debugger = w.debugger := congrArg Backdrop.debugger hw'
    rw [hdebugger]
    exact h.debugger
  · intro r g hg
    rw [hframe] at hg
    exact h.descends r g hg
  · exact { hopen with frame := (hframe _).trans hopen.frame, fork := (hframe _).trans hopen.fork }

/-- A change that does not look at the backdrop gives the same. -/
theorem change (h : v.Alike d w) {g : World → α × World}
    (hblind : ∀ w b, g (w.against b) = ((g w).1, (g w).2.against b)) :
    (g v).1 = (g w).1 ∧ (g v).2.Alike d (g w).2 := by
  have hbackdrop : (g w).2.backdrop = w.backdrop := by
    have hself := hblind w w.backdrop
    rw [against_backdrop] at hself
    rw [hself]
    rfl
  have hv : g v = ((g w).1, (g w).2.against { v.backdrop with captured := d.home }) :=
    (congrArg g h.rest).trans (hblind w _)
  rw [hv]
  exact ⟨rfl, h.of_backdrop hbackdrop⟩

theorem aloof (h : v.Alike d w) {g : World → α × World} (hg : Aloof g) :
    (g v).1 = (g w).1 ∧ (g v).2.Alike d (g w).2 := h.change hg.blind

theorem maps_eq (h : v.Alike d w) : v.maps = w.maps := h.reads fun _ _ => rfl

section Variables

theorem findInFrame_eq (h : v.Alike d w) {f g : Frame} (hscope : f.scope = g.scope)
    (hapi : f.api = g.api) (path : Path) : v.findInFrame f path = w.findInFrame g path := by
  have hlookup : ∀ x, v.lookup? x path = w.lookup? x path := fun x =>
    h.reads (f := fun w => w.lookup? x path) fun w b => lookup?_against w b x path
  have hget : ∀ x, v.get x path = w.get x path := fun x =>
    h.reads (f := fun w => w.get x path) fun w b => get_against w b x path
  have hown : scopeOf f = scopeOf g := congrArg Value.map hscope
  simp only [findInFrame, hown, hapi, hlookup, hget]
  cases g.api with
  | none => rfl
  | some a =>
    rw [Option.bind_some, Option.bind_some]
    cases ha : w.frame? a with
    | none => rw [h.frame_none ha]
    | some k =>
      obtain ⟨k', hk', halike⟩ := h.frame ha
      have hscope : scopeOf k' = scopeOf k := congrArg Value.map halike.scope
      rw [hk']
      simp only [hscope]

theorem home_le (h : v.Alike d w) (r : FrameRef) : (d.home r).index ≤ r.index := by
  obtain ⟨f, g, hopen⟩ := h.opened
  unfold Detour.home
  split
  next hr =>
    rw [hr]
    exact Nat.le_of_lt hopen.earlier
  · exact Nat.le_refl _

theorem home_frame (h : v.Alike d w) : d.home d.frame = d.frame := by
  obtain ⟨f, g, hopen⟩ := h.opened
  apply Detour.home_of_ne
  intro hsame
  have hlt := hopen.earlier
  rw [hsame] at hlt
  exact Nat.lt_irrefl _ hlt

theorem descends_left (h : v.Alike d w) {r : FrameRef} {f : Frame} (hf : v.frame? r = some f) :
    f.Descends d r := by
  have hrel := h.frames r
  generalize hg : w.frame? r = g? at hrel
  rw [hf] at hrel
  cases hrel with
  | @some _ g halike =>
    have hg := h.descends r g hg
    refine ⟨?_, halike.globals ▸ hg.globals, halike.locals ▸ hg.locals⟩
    intro p hp
    rw [halike.previous] at hp
    obtain ⟨q, hq, rfl⟩ := Option.map_eq_some_iff.1 hp
    exact Nat.lt_of_le_of_lt (h.home_le q) (hg.previous q hq)

/-- The frame in which variables are looked for. -/
theorem holder (h : v.Alike d w) {r : FrameRef} {f g : Frame} (hf : v.frame? (d.home r) = some f)
    (hg : w.frame? r = some g) (hlocals : f.locals = g.locals) :
    f.locals.getD (d.home r) = d.home (g.locals.getD r) ∧
      (f.locals.getD (d.home r)).index ≤ (d.home r).index ∧
      (g.locals.getD r).index ≤ r.index := by
  cases hl : g.locals with
  | none =>
    rw [hlocals, hl]
    exact ⟨rfl, Nat.le_refl _, Nat.le_refl _⟩
  | some l =>
    rw [hl] at hlocals
    obtain ⟨hle, hne⟩ := (h.descends r g hg).locals l hl
    rw [hlocals]
    exact ⟨(Detour.home_of_ne hne).symm, ((h.descends_left hf).locals l hlocals).1, hle⟩

/-- A walk along the frames from a frame and from its fork, with enough steps for both: each step
goes to an earlier frame or uses up a key, and the fork takes one step more. -/
theorem walk_induction (h : v.Alike d w) {P : Nat → Nat → FrameRef → Path → Prop}
    (absent : ∀ m n r path, v.frame? (d.home r) = none → w.frame? r = none →
      P (m + 1) (n + 1) r path)
    (locals : ∀ m n r f g rest, v.frame? (d.home r) = some f → w.frame? r = some g →
      f.locals.getD (d.home r) = d.home (g.locals.getD r) → P m n (g.locals.getD r) rest →
      P (m + 1) (n + 1) r ("locals" :: rest))
    (globals : ∀ m n r f g rest, v.frame? (d.home r) = some f → w.frame? r = some g →
      f.globals = g.globals → (∀ s, g.globals = some s → d.home s = s ∧ P m n s rest) →
      P (m + 1) (n + 1) r ("globals" :: rest))
    (fork : ∀ m n g path, Plain path → w.frame? d.fork = some g → g.isTemporary = true →
      g.previous = some d.frame → P m n d.frame path → P m (n + 1) d.fork path)
    (plain : ∀ m n r f g path, Plain path → v.frame? r = some f → w.frame? r = some g →
      d.home r = r → f.Alike d g → (∀ p, g.previous = some p → P m n p path) →
      (∀ l p, w.frame? (g.locals.getD r) = some l → l.previous = some p → P m n p path) →
      P (m + 1) (n + 1) r path)
    {m n : Nat} {r : FrameRef} {path : Path} (hm : (d.home r).index + path.length < m)
    (hn : r.index + path.length < n) : P m n r path := by
  induction n generalizing m r path with
  | zero => omega
  | succ n ih =>
    obtain ⟨k, rfl⟩ : ∃ k, m = k + 1 := ⟨m - 1, by omega⟩
    have hserves := h.serves r
    generalize hf : v.frame? (d.home r) = f?, hg : w.frame? r = g? at hserves
    cases hserves with
    | none => exact absent k n r path hf hg
    | @some f g hserves =>
      obtain ⟨hholder, hleft, hright⟩ := h.holder hf hg hserves.locals
      by_cases hlocals : ∃ rest, path = "locals" :: rest
      · obtain ⟨rest, rfl⟩ := hlocals
        rw [List.length_cons] at hm hn
        rw [hholder] at hleft
        exact locals k n r f g rest hf hg hholder (ih (by omega) (by omega))
      by_cases hglobals : ∃ rest, path = "globals" :: rest
      · obtain ⟨rest, rfl⟩ := hglobals
        rw [List.length_cons] at hm hn
        refine globals k n r f g rest hf hg hserves.globals fun s hs => ?_
        obtain ⟨hle, hne⟩ := (h.descends r g hg).globals s hs
        obtain ⟨hle', -⟩ := (h.descends_left hf).globals s (hserves.globals.trans hs)
        have hhome := Detour.home_of_ne hne
        exact ⟨hhome, ih (by rw [hhome]; omega) (by omega)⟩
      have hplain : Plain path := ⟨not_exists.1 hlocals, not_exists.1 hglobals⟩
      by_cases hr : r = d.fork
      · obtain ⟨f₀, g₀, hopen⟩ := h.opened
        subst hr
        rw [Detour.home_fork] at hm
        have hearlier := hopen.earlier
        exact fork (k + 1) n g₀ path hplain hopen.fork hopen.isTemporary hopen.previous
          (ih (by rw [h.home_frame]; exact hm) (by omega))
      · have hhome := Detour.home_of_ne hr
        obtain ⟨f', hf', halike⟩ := h.frame hg
        rw [hhome] at hm
        refine plain k n r f' g path hplain hf' hg hhome halike (fun p hp => ?_) fun l p hl hp => ?_
        · have hlt := (h.descends r g hg).previous p hp
          have hle := h.home_le p
          exact ih (by omega) (by omega)
        · have hlt := (h.descends _ l hl).previous p hp
          have hle := h.home_le p
          exact ih (by omega) (by omega)

/-- Variables are read in the same places. -/
theorem getFrom_eq (h : v.Alike d w) {m n : Nat} {r : FrameRef} {path : Path}
    (hm : (d.home r).index + path.length < m) (hn : r.index + path.length < n) :
    v.getFrom m (d.home r) path = w.getFrom n r path := by
  refine h.walk_induction (P := fun m n r path => v.getFrom m (d.home r) path = w.getFrom n r path)
    ?_ ?_ ?_ ?_ ?_ hm hn
  · intro m n r path hf hg
    rw [getFrom, getFrom, hf, hg]
  · intro m n r f g rest hf hg hholder ih
    rw [getFrom_locals hf, getFrom_locals hg, hholder, ih]
  · intro m n r f g rest hf hg hsame ih
    cases hglobal : g.globals with
    | none => simp [getFrom, hf, hg, hsame, hglobal]
    | some s =>
      obtain ⟨hhome, hstep⟩ := ih s hglobal
      rw [getFrom_globals hf m rest (hsame.trans hglobal), getFrom_globals hg n rest hglobal,
        ← hstep, hhome]
  · intro m n g path hplain hg htemporary hprevious ih
    rw [h.home_frame] at ih
    rw [Detour.home_fork, getFrom_plain hg hplain, htemporary, hprevious, ih]
    rfl
  · intro m n r f g path hplain hf hg hhome halike hprevious hfurther
    rw [hhome, getFrom_plain hf hplain, getFrom_plain hg hplain, halike.isTemporary,
      halike.previous, halike.locals]
    cases g.isTemporary with
    | true =>
      cases hp : g.previous with
      | none => rfl
      | some p => exact hprevious p hp
    | false =>
      have hheld := h.frames (g.locals.getD r)
      generalize v.frame? (g.locals.getD r) = l'?, hl : w.frame? (g.locals.getD r) = l? at hheld
      cases hheld with
      | none => rfl
      | @some l' l hheld =>
        have hscope : scopeOf l' = scopeOf l := congrArg Value.map hheld.scope
        have hfind := h.findInFrame_eq hheld.scope hheld.api path
        simp only [Bool.false_eq_true, if_false, hscope, hfind, hheld.previous]
        cases hp : l.previous with
        | none => rfl
        | some p => simp only [Option.map_some, hfurther l p hl hp]

/-- Variables are written in the same places. -/
theorem slotFrom_eq (h : v.Alike d w) {m n : Nat} {r : FrameRef} {path : Path}
    (hm : (d.home r).index + path.length < m) (hn : r.index + path.length < n) :
    v.slotFrom m (d.home r) path = w.slotFrom n r path := by
  refine h.walk_induction
    (P := fun m n r path => v.slotFrom m (d.home r) path = w.slotFrom n r path)
    ?_ ?_ ?_ ?_ ?_ hm hn
  · intro m n r path hf hg
    rw [slotFrom, slotFrom, hf, hg]
  · intro m n r f g rest hf hg hholder ih
    rw [slotFrom_locals hf, slotFrom_locals hg, hholder, ih]
  · intro m n r f g rest hf hg hsame ih
    cases hglobal : g.globals with
    | none => simp [slotFrom, hf, hg, hsame, hglobal]
    | some s =>
      obtain ⟨hhome, hstep⟩ := ih s hglobal
      rw [slotFrom_globals hf m rest (hsame.trans hglobal), slotFrom_globals hg n rest hglobal,
        ← hstep, hhome]
  · intro m n g path hplain hg htemporary hprevious ih
    rw [h.home_frame] at ih
    rw [Detour.home_fork, slotFrom_plain hg hplain, htemporary, hprevious, ih]
    rfl
  · intro m n r f g path hplain hf hg hhome halike hprevious _
    rw [hhome, slotFrom_plain hf hplain, slotFrom_plain hg hplain, halike.isTemporary,
      halike.previous, halike.locals]
    cases g.isTemporary with
    | true =>
      cases hp : g.previous with
      | none => rfl
      | some p => exact hprevious p hp
    | false =>
      have hheld := h.frames (g.locals.getD r)
      generalize v.frame? (g.locals.getD r) = l'?, w.frame? (g.locals.getD r) = l? at hheld
      cases hheld with
      | none => rfl
      | @some l' l hheld =>
        have hscope : scopeOf l' = scopeOf l := congrArg Value.map hheld.scope
        simp only [hscope]
        exact h.reads (f := fun w => w.slot (scopeOf l) path) fun w b =>
          slot_against w b (scopeOf l) path

theorem getVariable_eq (h : v.Alike d w) (r : FrameRef) (path : Path) :
    v.getVariable (d.home r) path = w.getVariable r path :=
  h.getFrom_eq (Nat.lt_succ_self _) (Nat.lt_succ_self _)

theorem variableSlot_eq (h : v.Alike d w) (r : FrameRef) (path : Path) :
    v.variableSlot (d.home r) path = w.variableSlot r path :=
  h.slotFrom_eq (Nat.lt_succ_self _) (Nat.lt_succ_self _)

end Variables

section Binding

/-- Entries are bound in the same variables. -/
theorem bindingFrame_scope (h : v.Alike d w) {m n : Nat} {r : FrameRef}
    (hm : (d.home r).index < m) (hn : r.index < n) :
    (v.frame? (v.bindingFrame m (d.home r))).map Frame.scope =
      (w.frame? (w.bindingFrame n r)).map Frame.scope := by
  induction n generalizing m r with
  | zero => omega
  | succ n ih =>
    cases hg : w.frame? r with
    | none =>
      have hne : r ≠ d.fork := by
        rintro rfl
        obtain ⟨f, g, hopen⟩ := h.opened
        cases hg.symm.trans hopen.fork
      have hf := h.frame_none hg
      obtain ⟨k, rfl⟩ : ∃ k, m = k + 1 := ⟨m - 1, by omega⟩
      rw [Detour.home_of_ne hne, bindingFrame, bindingFrame, hf, hg]
      dsimp only
      rw [hf, hg]
    | some g =>
      by_cases hr : r = d.fork
      · obtain ⟨f₀, g₀, hopen⟩ := h.opened
        subst hr
        have hearlier := hopen.earlier
        have hhome := h.home_frame
        rw [Detour.home_fork] at hm ⊢
        have hstep := ih (m := m) (r := d.frame) (by rw [hhome]; exact hm) (by omega)
        rw [hhome] at hstep
        rw [bindingFrame, hopen.fork]
        dsimp only
        rw [hopen.isTemporary, if_pos rfl, hopen.previous]
        exact hstep
      · obtain ⟨f, hf, halike⟩ := h.frame hg
        obtain ⟨k, rfl⟩ : ∃ k, m = k + 1 := ⟨m - 1, by omega⟩
        have hscope : (v.frame? r).map Frame.scope = (w.frame? r).map Frame.scope := by
          rw [hf, hg, Option.map_some, Option.map_some, halike.scope]
        have hhome := Detour.home_of_ne hr
        rw [hhome] at hm ⊢
        rw [bindingFrame, bindingFrame, hf, hg]
        dsimp only
        rw [halike.isTemporary, halike.previous]
        cases g.isTemporary with
        | false => exact hscope
        | true =>
          cases hp : g.previous with
          | none => exact hscope
          | some p =>
            have hlt := (h.descends r g hg).previous p hp
            have hle := h.home_le p
            exact ih (by omega) (by omega)

theorem bindAll (h : v.Alike d w) {r : FrameRef} (hr : r ≠ d.fork)
    (entries : List (String × Value)) : (v.bindAll r entries).Alike d (w.bindAll r entries) := by
  have hscope := h.bindingFrame_scope (r := r) (Nat.lt_succ_self _) (Nat.lt_succ_self _)
  rw [Detour.home_of_ne hr] at hscope
  unfold World.bindAll
  generalize v.frame? _ = f?, w.frame? _ = g? at hscope
  cases f? with
  | none =>
    cases g? with
    | none => exact h
    | some g => cases hscope
  | some f =>
    cases g? with
    | none => cases hscope
    | some g =>
      have hsame : f.scope = g.scope := Option.some.inj hscope
      dsimp only
      rw [hsame]
      exact (h.aloof (.modifyMap () g.scope fun m => m.extend entries)).2

end Binding

section Frames

/-- A new frame with new variables. -/
theorem push (h : v.Alike d w) {f g : Frame} (hfg : f.Alike d g)
    (hdescends : g.Descends d ⟨w.frames.size⟩) (m : MapObject) :
    World.Alike d { v with frames := v.frames.push f, maps := v.maps.push m }
      { w with frames := w.frames.push g, maps := w.maps.push m } := by
  have hmaps := h.maps_eq
  have hold : ∀ r k, w.frame? r = some k → (w.frames.push g).get? r.index = some k := by
    intro r k hk
    have hlt := Heap.lt_size_of_get? hk
    rw [Heap.get?_push, if_neg (by omega)]
    exact hk
  obtain ⟨f₀, g₀, hopen⟩ := h.opened
  refine ⟨?_, h.api, h.global, h.configured, ?_, ?_, h.process, h.debugger, ?_, f₀, g₀, ?_⟩
  · have hrest := h.rest
    unfold against backdrop at hrest ⊢
    rw [hmaps]
    rw [hrest]
  · simp [h.size]
  · intro r
    simp only [frame?, Heap.get?_push, h.size]
    split
    · exact .some hfg
    · exact h.frames r
  · intro r k hk
    simp only [frame?, Heap.get?_push] at hk
    split at hk
    next hr =>
      cases hk
      obtain ⟨i⟩ := r
      obtain rfl : i = w.frames.size := hr
      exact hdescends
    · exact h.descends r k hk
  · exact { hopen with frame := hold _ _ hopen.frame, fork := hold _ _ hopen.fork }

theorem newFrame (h : v.Alike d w) : (⟨v.frames.size⟩ : FrameRef) = ⟨w.frames.size⟩ :=
  congrArg FrameRef.mk h.size

theorem newScope (h : v.Alike d w) : (⟨v.maps.size⟩ : MapRef) = ⟨w.maps.size⟩ :=
  congrArg (fun maps => MapRef.mk (Heap.size maps)) h.maps_eq

theorem rootFrame (h : v.Alike d w) (target : String) :
    (v.rootFrame target).1 = (w.rootFrame target).1 ∧
      d.fork.index < (w.rootFrame target).1.index ∧
      (v.rootFrame target).2.Alike d (w.rootFrame target).2 := by
  refine ⟨h.newFrame, h.fork_lt, h.push ?_ ?_ _⟩
  · exact ⟨rfl, rfl, rfl, h.newScope, rfl, congrArg some h.newFrame, rfl, rfl, rfl, rfl, rfl, rfl,
      rfl, rfl⟩
  · constructor <;> (intro p hp; cases hp)

/-- A fork of the frame, or of its fork. -/
theorem fork (h : v.Alike d w) (r : FrameRef) (kind : FrameKind) (isTemporary : Bool)
    (target : Option String) (isInjected : Option Bool) :
    (v.fork (d.home r) kind isTemporary target isInjected).1 =
        (w.fork r kind isTemporary target isInjected).1 ∧
      d.fork.index < (w.fork r kind isTemporary target isInjected).1.index ∧
      (v.fork (d.home r) kind isTemporary target isInjected).2.Alike d
        (w.fork r kind isTemporary target isInjected).2 := by
  have hsize := h.fork_lt
  have hserves := h.serves r
  unfold World.fork
  generalize hf : v.frame? (d.home r) = f?, hg : w.frame? r = g? at hserves
  cases hserves with
  | none =>
    have hlate : w.frames.size ≤ r.index := by
      by_contra hlt
      rw [frame?, Heap.get?, Array.getElem?_eq_none_iff] at hg
      exact hlt hg
    have hne : r ≠ d.fork := by
      rintro rfl
      omega
    exact ⟨Detour.home_of_ne hne, Nat.lt_of_lt_of_le hsize hlate, h⟩
  | @some f g hserves =>
    have hlt : r.index < w.frames.size := Heap.lt_size_of_get? hg
    have hself : (⟨w.frames.size⟩ : FrameRef).index ≤ w.frames.size ∧
        (⟨w.frames.size⟩ : FrameRef) ≠ d.fork := by
      refine ⟨Nat.le_refl _, ?_⟩
      intro heq
      rw [← heq] at hsize
      exact Nat.lt_irrefl _ hsize
    have hdescends := h.descends r g hg
    refine ⟨h.newFrame, hsize, h.push ?_ ?_ _⟩
    · refine ⟨rfl, rfl, ?_, h.newScope, rfl, ?_, ?_, ?_, ?_, ?_, rfl, rfl, rfl, rfl⟩ <;> dsimp only
      · rw [hserves.isInjected]
      · rw [hserves.api, h.newFrame]
      · rw [hserves.globals, h.newFrame]
      · rw [hserves.locals, h.newFrame]
      · rw [hserves.loop, h.newFrame]
      · rw [hserves.call, h.newFrame]
    · constructor
      · intro p hp
        cases hp
        exact hlt
      · intro s hs
        dsimp only at hs
        split at hs
        · cases hs
          exact hself
        · obtain ⟨hle, hne⟩ := hdescends.globals s hs
          exact ⟨Nat.le_trans hle (Nat.le_of_lt hlt), hne⟩
      · intro l hl
        dsimp only at hl
        split at hl
        · cases hl
          exact hself
        · obtain ⟨hle, hne⟩ := hdescends.locals l hl
          exact ⟨Nat.le_trans hle (Nat.le_of_lt hlt), hne⟩

/-- Other notes in the frames that were made. -/
theorem setFrames (h : v.Alike d w) {hv hw : Heap Frame} (hsize : hv.size = hw.size)
    (hframes : ∀ r : FrameRef, Option.Rel (Frame.Alike d) (hv.get? r.index) (hw.get? r.index))
    (hmake : ∀ r : FrameRef, Option.Rel Frame.SameMake (w.frame? r) (hw.get? r.index)) :
    World.Alike d { v with frames := hv } { w with frames := hw } := by
  have hlater : ∀ r g, w.frame? r = some g → ∃ g', hw.get? r.index = some g' ∧ g.SameMake g' := by
    intro r g hg
    have hrel := hmake r
    generalize hw.get? r.index = g'? at hrel
    rw [hg] at hrel
    cases hrel with
    | some hsame => exact ⟨_, rfl, hsame⟩
  obtain ⟨f₀, g₀, hopen⟩ := h.opened
  obtain ⟨f', hf', hf⟩ := hlater _ _ hopen.frame
  obtain ⟨g', hg', hg⟩ := hlater _ _ hopen.fork
  refine ⟨?_, h.api, h.global, h.configured, hsize, hframes, h.process, h.debugger, ?_, f', g', ?_⟩
  · have hrest := h.rest
    unfold against backdrop at hrest ⊢
    rw [hrest]
  · intro r g hgr
    have hrel := hmake r
    generalize hbefore : w.frame? r = g? at hrel
    change hw.get? r.index = some g at hgr
    rw [hgr] at hrel
    cases hrel with
    | some hsame =>
      have hdescends := h.descends r _ hbefore
      exact ⟨hsame.previous ▸ hdescends.previous, hsame.globals ▸ hdescends.globals,
        hsame.locals ▸ hdescends.locals⟩
  · refine ⟨⟨?_, ?_, ?_, ?_, ?_, ?_⟩, hf', hg', hopen.earlier, hg.kind.symm.trans hopen.kind,
      hg.isTemporary.symm.trans hopen.isTemporary, hg.previous.symm.trans hopen.previous,
      hg.locals ▸ hopen.hasLocals⟩
    · rw [← hf.isInjected, hopen.isInjected, hg.isInjected]
    · rw [← hf.api, hopen.api, hg.api]
    · rw [← hf.globals, hopen.globals, hg.globals]
    · rw [← hf.locals, hopen.locals, hg.locals]
    · rw [← hf.loop, hopen.loop, hg.loop]
    · rw [← hf.call, hopen.call, hg.call]

/-- A note in the same frame. -/
theorem modifyFrame (h : v.Alike d w) (r : FrameRef) {k : Frame → Frame}
    (halike : ∀ f g : Frame, f.Alike d g → (k f).Alike d (k g))
    (hmake : ∀ g : Frame, g.SameMake (k g)) :
    (v.modifyFrame r k).Alike d (w.modifyFrame r k) := by
  refine h.setFrames ?_ (fun s => ?_) fun s => ?_
  · rw [Heap.size_modify, Heap.size_modify]
    exact h.size
  · change Option.Rel _ ((v.modifyFrame r k).frame? s) ((w.modifyFrame r k).frame? s)
    have hrel := h.frames s
    rw [frame?_modifyFrame, frame?_modifyFrame]
    generalize v.frame? s = f?, w.frame? s = g? at hrel
    split
    · cases hrel with
      | none => exact .none
      | some hfg => exact .some (halike _ _ hfg)
    · exact hrel
  · change Option.Rel _ _ ((w.modifyFrame r k).frame? s)
    rw [frame?_modifyFrame]
    cases w.frame? s with
    | none => split <;> exact .none
    | some g =>
      split
      · exact .some (hmake g)
      · exact .some (.refl g)

/-- Where the statements of frames begin is not compared. -/
theorem setPositions (h : v.Alike d w) (r s : FrameRef) (position : Position) :
    (v.modifyFrame r fun f => { f with position := position }).Alike d
      (w.modifyFrame s fun f => { f with position := position }) := by
  refine h.setFrames ?_ (fun t => ?_) fun t => ?_
  · rw [Heap.size_modify, Heap.size_modify]
    exact h.size
  · change Option.Rel _ ((v.modifyFrame r _).frame? t) ((w.modifyFrame s _).frame? t)
    have hrel := h.frames t
    rw [frame?_modifyFrame, frame?_modifyFrame]
    generalize v.frame? t = f?, w.frame? t = g? at hrel
    cases hrel with
    | none => split <;> split <;> exact .none
    | some hfg => split <;> split <;> exact .some { hfg with }
  · change Option.Rel _ _ ((w.modifyFrame s _).frame? t)
    rw [frame?_modifyFrame]
    cases w.frame? t with
    | none => split <;> exact .none
    | some g => split <;> exact .some { Frame.SameMake.refl g with }

end Frames

section State

theorem setProcess (h : v.Alike d w) {p q : Process} (hpq : p.Alike d q) :
    World.Alike d { v with process := p } { w with process := q } := by
  obtain ⟨f, g, hopen⟩ := h.opened
  refine ⟨?_, h.api, h.global, h.configured, h.size, h.frames, hpq, h.debugger, h.descends, f, g,
    { hopen with }⟩
  have hrest := h.rest
  unfold against backdrop at hrest ⊢
  rw [hrest]

theorem setDebugger (h : v.Alike d w) {a b : Debugger} (hab : a.Alike b) :
    World.Alike d { v with debugger := a } { w with debugger := b } := by
  obtain ⟨f, g, hopen⟩ := h.opened
  refine ⟨?_, h.api, h.global, h.configured, h.size, h.frames, h.process, hab, h.descends, f, g,
    { hopen with }⟩
  have hrest := h.rest
  unfold against backdrop at hrest ⊢
  rw [hrest]

/-- Programs run in other frames. -/
theorem setConfigured (h : v.Alike d w) (target : String) {api global : FrameRef}
    (hne : api ≠ d.fork ∧ global ≠ d.fork) :
    World.Alike d
      { v with
        configuration := { v.configuration with target := target, api := api, global := global } }
      { w with
        configuration :=
          { w.configuration with target := target, api := api, global := global } } := by
  obtain ⟨f, g, hopen⟩ := h.opened
  refine ⟨?_, rfl, rfl, hne, h.size, h.frames, h.process, h.debugger, h.descends, f, g,
    { hopen with }⟩
  have hrest := h.rest
  unfold against backdrop at hrest ⊢
  rw [hrest]

/-- A closure over the frame, or over its fork. -/
theorem newClosure (h : v.Alike d w) (declaration : FunctionDeclaration) (r : FrameRef) :
    (v.newFunction (.closure declaration (d.home r))).1 =
        (w.newFunction (.closure declaration r)).1 ∧
      (v.newFunction (.closure declaration (d.home r))).2.Alike d
        (w.newFunction (.closure declaration r)).2 := by
  let b := { v.backdrop with captured := d.home }
  have hmade := newFunction_against w b (.closure declaration r)
  have hv : v.newFunction (.closure declaration (d.home r)) =
      ((w.newFunction (.closure declaration r)).1,
        (w.newFunction (.closure declaration r)).2.against b) :=
    (congrArg (·.newFunction (.closure declaration (d.home r))) h.rest).trans hmade
  rw [hv]
  exact ⟨rfl, h.of_backdrop rfl⟩

theorem function_eq (h : v.Alike d w) (i : Nat) :
    v.functions.get? i = (w.functions.get? i).map (·.recapture d.home) := by
  have hfunctions := congrArg (fun w : World => w.functions.get? i) h.rest
  exact hfunctions.trans (Heap.get?_map _ _ _)

end State

section Flow

variable (h : v.Alike d w)

include h

/-- Notes of control flow are the same. -/
theorem any_eq {p : Frame → Bool} (hp : ∀ f g : Frame, f.Alike d g → p f = p g)
    (r : Option FrameRef) : (r.bind v.frame?).any p = (r.bind w.frame?).any p := by
  cases r with
  | none => rfl
  | some r =>
    have hrel := h.frames r
    rw [Option.bind_some, Option.bind_some]
    generalize v.frame? r = f?, w.frame? r = g? at hrel
    cases hrel with
    | none => rfl
    | some hfg => exact hp _ _ hfg

theorem leavesLoop_eq (r : FrameRef) : v.leavesLoop (d.home r) = w.leavesLoop r := by
  have hserves := h.serves r
  unfold leavesLoop
  generalize v.frame? (d.home r) = f?, w.frame? r = g? at hserves
  cases hserves with
  | none => rfl
  | some hfg =>
    have hbroken := h.any_eq (p := fun l => l.isBroken) fun _ _ hl => hl.isBroken
    have hreturned := h.any_eq (p := fun c => c.isReturned) fun _ _ hc => hc.isReturned
    simp only [hfg.loop, hfg.call, hbroken, hreturned, h.process.isExit]

/-- A block that runs in the same frame is left alike. -/
theorem isInterrupted_eq (r : FrameRef) : v.isInterrupted r = w.isInterrupted r := by
  have hrel := h.frames r
  unfold isInterrupted
  generalize v.frame? r = f?, w.frame? r = g? at hrel
  cases hrel with
  | none => exact h.process.isExit
  | some hfg =>
    have hleft := h.any_eq (p := fun l => l.isBroken || l.isContinued) fun _ _ hl => by
      rw [hl.isBroken, hl.isContinued]
    have hreturned := h.any_eq (p := fun c => c.isReturned) fun _ _ hc => hc.isReturned
    simp only [hfg.loop, hfg.call, hfg.kind, hleft, hreturned, h.process.isExit]

/-- A block that runs on the detour is left only if the run was asked to end. -/
theorem isInterrupted_fork : w.isInterrupted d.fork = w.process.isExit := by
  obtain ⟨f, g, hopen⟩ := h.opened
  unfold isInterrupted
  rw [hopen.fork]
  simp only [hopen.kind, Bool.or_false]

end Flow

end Alike

end World

end LineScript
