import LineScript.Builtin.Methods
import LineScript.Proofs.World.Scoping

/-!
# Tables out of reach

The variables of an outermost frame are the table of global functions. A world is closed if no value
in it refers to a table and all code in it runs in frames with variables. Main statement: from a
closed world, scripts read no value that refers to a table and find no place in one.
-/

namespace LineScript

theorem Frame.SameLinks.trans {f g h : Frame} (hfg : f.SameLinks g) (hgh : g.SameLinks h) :
    f.SameLinks h where
  kind := hfg.kind.trans hgh.kind
  isTemporary := hfg.isTemporary.trans hgh.isTemporary
  scope := hfg.scope.trans hgh.scope
  previous := hfg.previous.trans hgh.previous
  api := hfg.api.trans hgh.api
  globals := hfg.globals.trans hgh.globals
  locals := hfg.locals.trans hgh.locals

namespace World

/-- A map is the table of an outermost frame. -/
def IsTable (w : World) (r : MapRef) : Prop :=
  ∃ s f, w.frame? s = some f ∧ f.kind = .api ∧ f.scope = r

/-- A value that a script may hold: if it is a map, one that was made and is no table. -/
def Admits (w : World) : Value → Prop
  | .map r => r.index < w.maps.size ∧ ¬ w.IsTable r
  | _ => True

/-- All of some values are such that a script may hold them. -/
def AdmitsAll (w : World) (vs : List Value) : Prop := ∀ v ∈ vs, w.Admits v

/-- A frame in which code runs: one that has variables to write to. -/
def IsSite (w : World) (r : FrameRef) : Prop :=
  ∃ f, w.frame? r = some f ∧ f.locals.isSome = true

/-- The values that are kept anywhere in a world. -/
inductive Stores (w : World) : Value → Prop where
  | element {r : ListRef} {v : Value} (h : v ∈ w.elements r) : Stores w v
  | entry {r : MapRef} {v : Value} (h : v ∈ (w.contents r).entries.values) : Stores w v
  | default {i : Nat} {name : String} {parameters : List (String × Value)} {action : HostAction}
      {v : Value} (h : w.functions.get? i = some (.host name parameters action))
      (hv : v ∈ parameters.map (·.2)) : Stores w v
  | member {i : Nat} {o : InterfaceObject} {v : Value} (h : w.interfaces.get? i = some o)
      (hv : v ∈ o.functions.values) : Stores w v
  | result {r : FrameRef} {f : Frame} (h : w.frame? r = some f) : Stores w f.result
  | table {v : Value} (h : v ∈ w.configuration.table.map (·.2)) : Stores w v

/-- Nothing that is kept refers to a table, and all code runs in frames with variables. -/
structure Closed (w : World) : Prop where
  linked : WellLinked w
  stored : ∀ v, w.Stores v → w.Admits v
  closures : ∀ i d r, w.functions.get? i = some (.closure d r) → w.IsSite r
  active : ∀ r, w.process.lastActive = some r → w.IsSite r

/-- A world that comes later: frames are still there and linked as they were, and what was made has
variables of its own. -/
structure Later (w w' : World) : Prop where
  frames : ∀ r f, w.frame? r = some f → ∃ f', w'.frame? r = some f' ∧ f.SameLinks f'
  fresh : ∀ r f', w'.frame? r = some f' →
    (∃ f, w.frame? r = some f) ∨ w.maps.size ≤ f'.scope.index
  maps : w.maps.size ≤ w'.maps.size

namespace Later

variable {w w' w'' : World}

theorem of_keepsLinks (h : w.KeepsLinks w') : w.Later w' where
  frames _ _ hf := h.frame hf
  fresh _ _ hf' := by
    obtain ⟨f, hf, _⟩ := h.frame_before hf'
    exact .inl ⟨f, hf⟩
  maps := h.maps

theorem refl (w : World) : w.Later w where
  frames _ f hf := ⟨f, hf, .refl f⟩
  fresh _ f' hf' := .inl ⟨f', hf'⟩
  maps := Nat.le_refl _

theorem trans (h : w.Later w') (h' : w'.Later w'') : w.Later w'' where
  frames r f hf := by
    obtain ⟨f', hf', hsame⟩ := h.frames r f hf
    obtain ⟨f'', hf'', hsame'⟩ := h'.frames r f' hf'
    exact ⟨f'', hf'', hsame.trans hsame'⟩
  fresh r f'' hf'' := by
    rcases h'.fresh r f'' hf'' with ⟨f', hf'⟩ | hle
    · rcases h.fresh r f' hf' with hold | hle
      · exact .inl hold
      · obtain ⟨g, hg, hsame⟩ := h'.frames r f' hf'
        rw [hf''] at hg
        cases hg
        exact .inr (hsame.scope ▸ hle)
    · exact .inr (Nat.le_trans h.maps hle)
  maps := Nat.le_trans h.maps h'.maps

end Later

section Monotone

variable {w w' : World}

theorem Admits.mono {v : Value} (hv : w.Admits v) (h : w.Later w') : w'.Admits v := by
  cases v with
  | map r =>
    obtain ⟨hmade, htable⟩ := hv
    refine ⟨Nat.lt_of_lt_of_le hmade h.maps, ?_⟩
    rintro ⟨s, f', hf', hkind, rfl⟩
    rcases h.fresh s f' hf' with ⟨f, hf⟩ | hle
    · obtain ⟨g, hg, hsame⟩ := h.frames s f hf
      rw [hf'] at hg
      cases hg
      exact htable ⟨s, f, hf, hsame.kind.trans hkind, hsame.scope⟩
    · omega
  | _ => trivial

theorem AdmitsAll.mono {vs : List Value} (hvs : w.AdmitsAll vs) (h : w.Later w') :
    w'.AdmitsAll vs := fun v hv => (hvs v hv).mono h

theorem IsSite.mono {r : FrameRef} (hr : w.IsSite r) (h : w.Later w') : w'.IsSite r := by
  obtain ⟨f, hf, hlocals⟩ := hr
  obtain ⟨f', hf', hsame⟩ := h.frames r f hf
  exact ⟨f', hf', hsame.locals ▸ hlocals⟩

end Monotone

section Links

variable {w : World} {r l g p : FrameRef} {f : Frame}

/-- The frame that holds the variables of code is its own. -/
theorem Linked.locals_holds {frames : List (FrameRef × Frame)} (h : w.Linked r f frames)
    (hl : f.locals = some l) : ∃ k, w.frame? l = some k ∧ k.locals.isSome = true := by
  induction h with
  | root _ _ _ _ _ _ locals =>
    rw [locals] at hl
    cases hl
  | @fork r p f g outer made kind previous earlier isTemporary api globals locals parent ih =>
    cases hkind : f.kind.holdsLocals with
    | true =>
      rw [locals, if_pos hkind] at hl
      cases hl
      exact ⟨f, made, by simp [locals, hkind]⟩
    | false =>
      rw [locals, if_neg (by simp [hkind])] at hl
      exact ih hl

theorem Linked.globals_holds {frames : List (FrameRef × Frame)} (h : w.Linked r f frames)
    (hg : f.globals = some g) :
    ∃ k, w.frame? g = some k ∧ k.locals.isSome = true := by
  induction h with
  | root _ _ _ _ _ globals =>
    rw [globals] at hg
    cases hg
  | @fork r p f k outer made kind previous earlier isTemporary api globals locals parent ih =>
    by_cases hkind : f.kind = .global
    · rw [globals, hkind] at hg
      cases hg
      exact ⟨f, made, by simp [locals, hkind, FrameKind.holdsLocals]⟩
    · rw [globals, if_neg (by simp [hkind])] at hg
      exact ih hg

namespace WellLinked

/-- The frame of the variables of code is a frame in which code runs. -/
theorem holder_site (h : WellLinked w) (hf : w.frame? r = some f) (hl : f.locals = some l) :
    w.IsSite l := by
  obtain ⟨frames, hlinked⟩ := h.linked r f hf
  exact hlinked.locals_holds hl

theorem global_site (h : WellLinked w) (hf : w.frame? r = some f) (hg : f.globals = some g) :
    w.IsSite g := by
  obtain ⟨frames, hlinked⟩ := h.linked r f hf
  exact hlinked.globals_holds hg

theorem site_of_global (h : WellLinked w) (hf : w.frame? r = some f) (hkind : f.kind = .global) :
    w.IsSite r := by
  obtain ⟨frames, hlinked⟩ := h.linked r f hf
  cases hlinked with
  | root _ kind =>
    rw [hkind] at kind
    cases kind
  | fork made kind previous earlier isTemporary api globals locals parent =>
    exact ⟨f, hf, by simp [locals, hkind, FrameKind.holdsLocals]⟩

/-- A temporary frame has its variables from the frame before. -/
theorem site_previous (h : WellLinked w) (hr : w.IsSite r) (hf : w.frame? r = some f)
    (htemporary : f.isTemporary = true) (hp : f.previous = some p) : w.IsSite p := by
  obtain ⟨k, hk, hlocals⟩ := hr
  rw [hf] at hk
  cases hk
  obtain ⟨frames, hlinked⟩ := h.linked r f hf
  cases hlinked with
  | root _ _ previous =>
    rw [previous] at hp
    cases hp
  | @fork _ q _ g outer made kind previous earlier isTemporary api globals locals parent =>
    rw [previous] at hp
    cases hp
    have hkind : f.kind.holdsLocals = false := by simpa [htemporary] using isTemporary
    rw [locals, if_neg (by simp [hkind])] at hlocals
    exact ⟨g, parent.made, hlocals⟩

/-- The variables of a frame in which code runs are no table. -/
theorem admits_scope (h : WellLinked w) (hf : w.frame? r = some f)
    (hlocals : f.locals.isSome = true) : w.Admits (scopeOf f) := by
  refine ⟨h.scope r f hf, ?_⟩
  rintro ⟨s, k, hk, hapi, hscope⟩
  obtain rfl := h.distinct s r k f hk hf hscope
  rw [hf] at hk
  cases hk
  obtain ⟨frames, hlinked⟩ := h.linked s f hf
  cases hlinked with
  | root _ _ _ _ _ _ locals =>
    rw [locals] at hlocals
    cases hlocals
  | fork _ kind =>
    rw [hapi] at kind
    cases kind

end WellLinked

end Links

section Reading

variable {w : World} (hw : w.Closed)

include hw

theorem Closed.elements (r : ListRef) : w.AdmitsAll (w.elements r) :=
  fun _ hv => hw.stored _ (.element hv)

theorem Closed.values (r : MapRef) : w.AdmitsAll (w.contents r).entries.values :=
  fun _ hv => hw.stored _ (.entry hv)

theorem Closed.element {r : ListRef} {k : Nat} {v : Value} (h : (w.elements r)[k]? = some v) :
    w.Admits v :=
  hw.elements r v (List.mem_of_getElem? h)

theorem Closed.entry {r : MapRef} {key : String} {v : Value}
    (h : (w.contents r).entries.get? key = some v) : w.Admits v :=
  hw.values r v (OrderedMap.mem_values_of_get? h)

theorem Closed.member {r : InterfaceRef} {key : String} {v : Value}
    (h : w.interfaceFunction? r key = some v) : w.Admits v := by
  obtain ⟨o, ho, hv⟩ := Option.bind_eq_some_iff.1 h
  exact hw.stored v (.member ho (OrderedMap.mem_values_of_get? hv))

theorem Closed.child? {v c : Value} {key : String} (h : w.child? v key = some c) :
    w.Admits c := by
  cases v with
  | string s =>
    obtain ⟨i, _, hi⟩ := Option.bind_eq_some_iff.1 h
    unfold characterAt at hi
    split at hi
    · obtain ⟨_, _, rfl⟩ := Option.map_eq_some_iff.1 hi
      trivial
    · cases hi
  | list r =>
    obtain ⟨i, _, hi⟩ := Option.bind_eq_some_iff.1 h
    obtain ⟨k, _, hk⟩ := Option.bind_eq_some_iff.1 hi
    exact hw.element hk
  | map r => exact hw.entry h
  | interface r => exact hw.member h
  | _ => cases h

theorem Closed.lookup? {v c : Value} {path : Path} (hv : w.Admits v)
    (h : w.lookup? v path = some c) : w.Admits c := by
  induction path generalizing v with
  | nil =>
    cases h
    exact hv
  | cons key rest ih =>
    rw [World.lookup?] at h
    split at h
    next child hchild => exact ih (hw.child? hchild) h
    · cases h

theorem Closed.readKey {v c : Value} {key : String} {path : Path}
    (h : w.readKey v key path = .ok (some c)) : w.Admits c := by
  cases v with
  | string s =>
    simp only [World.readKey] at h
    split at h
    next i _ =>
      split at h
      next character hcharacter =>
        unfold characterAt at hcharacter
        split at hcharacter
        · obtain ⟨_, _, rfl⟩ := Option.map_eq_some_iff.1 hcharacter
          cases h
          trivial
        · cases hcharacter
      · cases h
    · cases h
  | list r =>
    simp only [World.readKey] at h
    split at h
    next i _ =>
      split at h
      next element helement =>
        cases h
        obtain ⟨k, _, hk⟩ := Option.bind_eq_some_iff.1 helement
        exact hw.element hk
      · cases h
    · cases h
  | map r =>
    cases hentry : (w.contents r).entries.get? key with
    | none =>
      rw [World.readKey, hentry] at h
      cases h
    | some v =>
      rw [World.readKey, hentry] at h
      cases h
      exact hw.entry hentry
  | interface r =>
    cases hmember : w.interfaceFunction? r key with
    | none =>
      rw [World.readKey, hmember] at h
      cases h
    | some v =>
      rw [World.readKey, hmember] at h
      cases h
      exact hw.member hmember
  | _ => cases h

omit hw in
theorem admits_method {v : Value} {key : String} : w.Admits ((method? v key).getD .nil) := by
  unfold method?
  split
  · cases Builtin.stringMethod? key <;> trivial
  · cases Builtin.listMethod? key <;> trivial
  · cases Builtin.mapMethod? key <;> trivial
  · trivial

/-- What a path leads to may be held, if the value it leads from may or there is a key on the
way. -/
theorem Closed.get {v c : Value} {path : Path} (hv : w.Admits v ∨ path ≠ [])
    (h : w.get v path = .ok c) : w.Admits c := by
  induction path generalizing v with
  | nil =>
    cases h
    exact hv.resolve_right (by simp)
  | cons key rest ih =>
    rw [World.get] at h
    split at h
    · cases h
    next child hchild => exact ih (.inl (hw.readKey hchild)) h
    · split at h
      · cases h
        exact admits_method
      · cases h
        trivial

theorem Closed.findInFrame {f : Frame} {path : Path} {c : Value} (hpath : path ≠ [])
    (h : w.findInFrame f path = some (.ok c)) : w.Admits c := by
  unfold World.findInFrame at h
  dsimp only at h
  split at h
  · exact hw.get (.inr hpath) (Option.some.inj h)
  · split at h
    · split at h
      · exact hw.get (.inr hpath) (Option.some.inj h)
      · cases h
    · cases h

omit hw in
theorem admits_bareMethod {path : Path} {v : Value} (h : bareMethod? path = some v) :
    w.Admits v := by
  unfold bareMethod? at h
  split at h
  · obtain ⟨_, _, rfl⟩ := Option.map_eq_some_iff.1 h
    trivial
  · cases h

/-- The variables around code that runs may be held as a value. -/
theorem Closed.locals {r : FrameRef} {f l : Frame} (hr : w.IsSite r) (hf : w.frame? r = some f)
    (hl : w.frame? (f.locals.getD r) = some l) : w.Admits (scopeOf l) := by
  obtain ⟨g, hg, hlocals⟩ := hr
  rw [hf] at hg
  cases hg
  obtain ⟨s, hs⟩ := Option.isSome_iff_exists.1 hlocals
  obtain ⟨k, hk, hlocals'⟩ := hw.linked.holder_site hf hs
  rw [hs, Option.getD_some, hk] at hl
  cases hl
  exact hw.linked.admits_scope hk hlocals'

/-- What a variable holds may be held. The look-up begins in a frame in which code runs, or with a
name that needs no such frame. -/
theorem Closed.getFrom {n : Nat} {r : FrameRef} {path : Path} {c : Value}
    (hr : w.IsSite r ∨ path ≠ [] ∧ path.head? ≠ some "locals" ∧ path.head? ≠ some "globals")
    (h : w.getFrom n r path = .ok c) : w.Admits c := by
  induction n generalizing r path with
  | zero => cases h
  | succ n ih =>
    rw [World.getFrom] at h
    cases hf : w.frame? r with
    | none =>
      rw [hf] at h
      cases h
    | some f =>
      rw [hf] at h
      dsimp only at h
      split at h
      next rest =>
        obtain ⟨g, hg, hlocals⟩ := hr.resolve_right (by simp)
        rw [hf] at hg
        cases hg
        obtain ⟨l, hl⟩ := Option.isSome_iff_exists.1 hlocals
        rw [hl] at h
        exact ih (.inl (hw.linked.holder_site hf hl)) h
      next rest =>
        split at h
        next g hg => exact ih (.inl (hw.linked.global_site hf hg)) h
        · cases h
      next hlocals hglobals =>
        split at h
        next htemporary =>
          split at h
          next p hp =>
            exact ih (hr.imp_left fun hr => hw.linked.site_previous hr hf htemporary hp) h
          · cases h
            trivial
        split at h
        · cases h
        next l hl =>
        split at h
        next hempty =>
          cases h
          have hnil : path = [] := by simpa using hempty
          exact hw.locals (hr.resolve_right (by simp [hnil])) hf hl
        next hnonempty =>
        have hpath : path ≠ [] := by simpa using hnonempty
        split at h
        next found hfound =>
          subst h
          exact hw.findInFrame hpath hfound
        split at h
        next m hm =>
          cases h
          exact admits_bareMethod hm
        split at h
        next p hp =>
          refine ih (.inr ⟨hpath, fun hhead => ?_, fun hhead => ?_⟩) h
          · obtain ⟨rest, rfl⟩ := List.head?_eq_some_iff.1 hhead
            exact hlocals rest rfl
          · obtain ⟨rest, rfl⟩ := List.head?_eq_some_iff.1 hhead
            exact hglobals rest rfl
        · cases h

theorem Closed.getVariable {r : FrameRef} {path : Path} {c : Value} (hr : w.IsSite r)
    (h : w.getVariable r path = .ok c) : w.Admits c := hw.getFrom (.inl hr) h

theorem Closed.items {v : Value} {is : List Item} (h : w.items v = .ok is) :
    w.AdmitsAll (is.map Item.held) := by
  intro c hc
  obtain ⟨i, hi, rfl⟩ := List.mem_map.1 hc
  cases v with
  | list r =>
    cases h
    obtain ⟨v, hv, rfl⟩ := List.mem_map.1 hi
    exact hw.elements r v hv
  | map r =>
    cases h
    obtain ⟨e, he, rfl⟩ := List.mem_map.1 hi
    exact hw.values r e.2 (List.mem_map_of_mem he)
  | string s =>
    cases h
    obtain ⟨_, _, rfl⟩ := List.mem_map.1 hi
    trivial
  | _ => cases h

end Reading

/-- A place that a script may write. -/
def AdmitsSlot (w : World) : Slot → Prop
  | .element _ _ => True
  | .entry r _ => w.Admits (.map r)

section Slots

variable {w : World} (hw : w.Closed) {s : Slot}

theorem admits_slotAt {v : Value} {key : String} (hv : w.Admits v) (h : w.slotAt v key = .ok s) :
    w.AdmitsSlot s := by
  cases v with
  | list r =>
    simp only [slotAt] at h
    split at h
    · cases h
    · split at h
      · cases h
      · cases h
        trivial
  | map r =>
    cases h
    exact hv
  | _ => cases h

include hw

theorem Closed.slot {v : Value} {path : Path} (hv : w.Admits v) (h : w.slot v path = .ok s) :
    w.AdmitsSlot s := by
  cases v with
  | list r | map r =>
    unfold World.slot at h
    dsimp only at h
    split at h
    · cases h
    · split at h
      · cases h
      next t ht => exact admits_slotAt (hw.lookup? hv ht) h
  | _ => cases h

/-- The place of a variable may be written, seen from a frame in which code runs. -/
theorem Closed.slotFrom {n : Nat} {r : FrameRef} {path : Path} (hr : w.IsSite r)
    (h : w.slotFrom n r path = .ok s) : w.AdmitsSlot s := by
  induction n generalizing r path with
  | zero => cases h
  | succ n ih =>
    obtain ⟨f, hf, hlocals⟩ := hr
    obtain ⟨l, hl⟩ := Option.isSome_iff_exists.1 hlocals
    obtain ⟨k, hk, hlocals'⟩ := hw.linked.holder_site hf hl
    rw [World.slotFrom, hf] at h
    dsimp only at h
    rw [hl] at h
    split at h
    · exact ih ⟨k, hk, hlocals'⟩ h
    · split at h
      next g hg => exact ih (hw.linked.global_site hf hg) h
      · cases h
    · split at h
      next htemporary =>
        split at h
        next p hp => exact ih (hw.linked.site_previous ⟨f, hf, hlocals⟩ hf htemporary hp) h
        · cases h
      · rw [Option.getD_some, hk] at h
        exact hw.slot (hw.linked.admits_scope hk hlocals') h

theorem Closed.variableSlot {r : FrameRef} {path : Path} (hr : w.IsSite r)
    (h : w.variableSlot r path = .ok s) : w.AdmitsSlot s := hw.slotFrom hr h

end Slots

end World

end LineScript
