import LineScript.World.Frames

/-!
# The scope of a name

Frames form chains that lead outward to the table of global functions. A chain is made by forks, and
each frame keeps references to the nearest frames of some kinds. Main statement: in every world that
forks can make, a bare name is looked for in the frames that hold variables, from the nearest
outward, with the table of global functions and the methods of maps behind the first of them; and
writing a bare name changes one place in the nearest of those frames.
-/

namespace LineScript

namespace Frame

/-- Two frames are linked to others in the same way. They may differ in their target, their flags
and where they run. -/
structure SameLinks (f g : Frame) : Prop where
  kind : f.kind = g.kind
  isTemporary : f.isTemporary = g.isTemporary
  scope : f.scope = g.scope
  previous : f.previous = g.previous
  api : f.api = g.api
  globals : f.globals = g.globals
  locals : f.locals = g.locals

theorem SameLinks.refl (f : Frame) : f.SameLinks f := ⟨rfl, rfl, rfl, rfl, rfl, rfl, rfl⟩

end Frame

/-- The kinds of frames that a fork makes. -/
def FrameKind.isForked : FrameKind → Bool
  | .global | .function | .loop | .external | .call => true
  | .api | .map => false

namespace World

/-- A change that makes no frame and leaves the links of all frames as they are. -/
structure KeepsLinks (w w' : World) : Prop where
  frames : ∀ r, Option.Rel Frame.SameLinks (w.frame? r) (w'.frame? r)
  size : w'.frames.size = w.frames.size
  maps : w.maps.size ≤ w'.maps.size

/-- The worlds that forks can make, one after the other, with any other changes in between. Frames
of global code and of functions hold variables, all other forks are temporary. -/
inductive Forked : World → Prop where
  | start {w : World} (h : w.frames.size = 0) : Forked w
  | root {w : World} (target : String) (h : Forked w) : Forked (w.rootFrame target).2
  | fork {w : World} {parent : FrameRef} {kind : FrameKind} (target : Option String)
      (isInjected : Option Bool) (h : Forked w) (made : (w.frame? parent).isSome = true)
      (forked : kind.isForked = true) :
      Forked (w.fork parent kind (!kind.holdsLocals) target isInjected).2
  | change {w w' : World} (h : Forked w) (keeps : w.KeepsLinks w') : Forked w'

/-- The frames from a frame outward. The number bounds the steps. -/
def chainFrom (w : World) : Nat → FrameRef → List (FrameRef × Frame)
  | 0, _ => []
  | n + 1, r =>
    match w.frame? r with
    | none => []
    | some f =>
      match f.previous with
      | none => [(r, f)]
      | some p => (r, f) :: w.chainFrom n p

/-- The frames from a frame outward, itself included. -/
def chain (w : World) (r : FrameRef) : List (FrameRef × Frame) := w.chainFrom (r.index + 1) r

/-- The frames that hold variables, from a frame outward. -/
def holders (w : World) (r : FrameRef) : List (FrameRef × Frame) :=
  (w.chain r).filter (·.2.kind.holdsLocals)

/-- The nearest global frame. -/
def global? (w : World) (r : FrameRef) : Option (FrameRef × Frame) :=
  (w.chain r).find? (·.2.kind == .global)

/-- The nearest frame of the table of global functions. -/
def api? (w : World) (r : FrameRef) : Option (FrameRef × Frame) :=
  (w.chain r).find? (·.2.kind == .api)

/-- What a frame itself holds under a name. -/
def held? (w : World) (f : Frame) (name : String) : Option Value :=
  (w.contents f.scope).entries.get? name

/-- What a name stands for, seen from a frame: the first hit in the nearest frame that holds
variables, in the table of global functions, among the methods of maps, and in the frames further
out. -/
def meaning? (w : World) (r : FrameRef) (name : String) : Option Value :=
  ((w.holders r).head?.bind fun h => w.held? h.2 name).or
    (((w.api? r).bind fun a => w.held? a.2 name).or
      ((bareMethod? [name]).or ((w.holders r).tail.findSome? fun h => w.held? h.2 name)))

/-- A frame with the frames from it outward, all linked as forks link them. -/
inductive Linked (w : World) : FrameRef → Frame → List (FrameRef × Frame) → Prop where
  | root {r : FrameRef} {f : Frame} (made : w.frame? r = some f) (kind : f.kind = .api)
      (previous : f.previous = none) (isTemporary : f.isTemporary = false)
      (api : f.api = some r) (globals : f.globals = none) (locals : f.locals = none) :
      Linked w r f [(r, f)]
  | fork {r p : FrameRef} {f g : Frame} {outer : List (FrameRef × Frame)}
      (made : w.frame? r = some f) (kind : f.kind.isForked = true)
      (previous : f.previous = some p) (earlier : p.index < r.index)
      (isTemporary : f.isTemporary = !f.kind.holdsLocals) (api : f.api = g.api)
      (globals : f.globals = if f.kind == .global then some r else g.globals)
      (locals : f.locals = if f.kind.holdsLocals then some r else g.locals)
      (parent : Linked w p g outer) : Linked w r f ((r, f) :: outer)

/-- All frames are linked, and each has variables of its own. -/
structure WellLinked (w : World) : Prop where
  linked : ∀ r f, w.frame? r = some f → ∃ frames, w.Linked r f frames
  scope : ∀ r f, w.frame? r = some f → f.scope.index < w.maps.size
  distinct : ∀ r s f g, w.frame? r = some f → w.frame? s = some g → f.scope = g.scope → r = s

namespace KeepsLinks

variable {w w' : World} {r : FrameRef} {f : Frame}

theorem frame (h : w.KeepsLinks w') (hf : w.frame? r = some f) :
    ∃ f', w'.frame? r = some f' ∧ f.SameLinks f' := by
  have hrel := h.frames r
  rw [hf] at hrel
  cases hf' : w'.frame? r with
  | none =>
    rw [hf'] at hrel
    cases hrel
  | some f' =>
    rw [hf'] at hrel
    cases hrel with
    | some hsame => exact ⟨f', rfl, hsame⟩

theorem frame_before (h : w.KeepsLinks w') {f' : Frame} (hf : w'.frame? r = some f') :
    ∃ f, w.frame? r = some f ∧ f.SameLinks f' := by
  have hrel := h.frames r
  rw [hf] at hrel
  cases hf' : w.frame? r with
  | none =>
    rw [hf'] at hrel
    cases hrel
  | some f =>
    rw [hf'] at hrel
    cases hrel with
    | some hsame => exact ⟨f, rfl, hsame⟩

end KeepsLinks

namespace Linked

variable {w w' : World} {r : FrameRef} {f : Frame} {frames : List (FrameRef × Frame)}

theorem made (h : w.Linked r f frames) : w.frame? r = some f := by
  cases h with
  | root made => exact made
  | fork made => exact made

/-- The frames are those found by following the links outward. -/
theorem chainFrom_eq (h : w.Linked r f frames) {n : Nat} (hn : r.index < n) :
    w.chainFrom n r = frames := by
  induction h generalizing n with
  | root made _ previous =>
    obtain ⟨m, rfl⟩ := Nat.exists_eq_succ_of_ne_zero (by omega : n ≠ 0)
    simp [chainFrom, made, previous]
  | fork made _ previous earlier _ _ _ _ _ ih =>
    obtain ⟨m, rfl⟩ := Nat.exists_eq_succ_of_ne_zero (by omega : n ≠ 0)
    have houter := ih (n := m) (by omega)
    simp [chainFrom, made, previous, houter]

theorem chain_eq (h : w.Linked r f frames) : w.chain r = frames :=
  h.chainFrom_eq (Nat.lt_succ_self _)

/-- What is made later does not change a chain. -/
theorem mono (h : w.Linked r f frames) (hw : ∀ s g, w.frame? s = some g → w'.frame? s = some g) :
    w'.Linked r f frames := by
  induction h with
  | root made kind previous isTemporary api globals locals =>
    exact .root (hw _ _ made) kind previous isTemporary api globals locals
  | fork made kind previous earlier isTemporary api globals locals _ ih =>
    exact .fork (hw _ _ made) kind previous earlier isTemporary api globals locals ih

/-- Changes that keep the links of frames keep their chains. -/
theorem change (h : w.Linked r f frames) (hw : w.KeepsLinks w') :
    ∃ f' frames', f.SameLinks f' ∧ w'.Linked r f' frames' := by
  induction h with
  | root made kind previous isTemporary api globals locals =>
    obtain ⟨f', hf', hsame⟩ := hw.frame made
    exact ⟨f', _, hsame, .root hf' (hsame.kind ▸ kind) (hsame.previous ▸ previous)
      (hsame.isTemporary ▸ isTemporary) (hsame.api ▸ api) (hsame.globals ▸ globals)
      (hsame.locals ▸ locals)⟩
  | fork made kind previous earlier isTemporary api globals locals _ ih =>
    obtain ⟨f', hf', hsame⟩ := hw.frame made
    obtain ⟨g', outer', hparent, hlinked⟩ := ih
    refine ⟨f', _, hsame, .fork hf' (hsame.kind ▸ kind) (hsame.previous ▸ previous) earlier
      ?_ ?_ ?_ ?_ hlinked⟩
    · rw [← hsame.isTemporary, ← hsame.kind, isTemporary]
    · rw [← hsame.api, api, hparent.api]
    · rw [← hsame.globals, globals, ← hsame.kind, hparent.globals]
    · rw [← hsame.locals, locals, ← hsame.kind, hparent.locals]

end Linked

namespace WellLinked

variable {w w' : World}

theorem start (h : w.frames.size = 0) : WellLinked w := by
  have hnone : ∀ r, w.frame? r = none := by
    intro r
    cases hr : w.frame? r with
    | none => rfl
    | some f =>
      have hlt := Heap.lt_size_of_get? hr
      omega
  constructor
  · intro r f hf
    simp [hnone] at hf
  · intro r f hf
    simp [hnone] at hf
  · intro r s f g hf
    simp [hnone] at hf

/-- A new frame with new variables keeps a world well linked if it is linked itself. -/
theorem push (h : WellLinked w) {f : Frame} {m : MapObject}
    (hw : w' = { w with frames := w.frames.push f, maps := w.maps.push m })
    (hscope : f.scope = ⟨w.maps.size⟩)
    (hf : (∀ s g, w.frame? s = some g → w'.frame? s = some g) →
      w'.frame? ⟨w.frames.size⟩ = some f → ∃ frames, w'.Linked ⟨w.frames.size⟩ f frames) :
    WellLinked w' := by
  have hget : ∀ s, w'.frame? s = if s.index = w.frames.size then some f else w.frame? s := by
    intro s
    rw [hw]
    exact Heap.get?_push _ _ _
  have hold : ∀ s g, w.frame? s = some g → w'.frame? s = some g := by
    intro s g hg
    have hlt := Heap.lt_size_of_get? hg
    rw [hget, if_neg (by omega)]
    exact hg
  have hmaps : w'.maps.size = w.maps.size + 1 := by
    rw [hw]
    exact Heap.size_push _ _
  -- Every frame is the new one or was there before.
  have hcases : ∀ s g, w'.frame? s = some g →
      s = ⟨w.frames.size⟩ ∧ g = f ∨ w.frame? s = some g := by
    intro s g hg
    rw [hget] at hg
    split at hg
    next hs =>
      cases hg
      exact .inl ⟨by cases s; simp_all, rfl⟩
    · exact .inr hg
  constructor
  · intro s g hg
    rcases hcases s g hg with ⟨rfl, rfl⟩ | hg'
    · exact hf hold hg
    · obtain ⟨frames, hlinked⟩ := h.linked s g hg'
      exact ⟨frames, hlinked.mono hold⟩
  · intro s g hg
    rcases hcases s g hg with ⟨rfl, rfl⟩ | hg'
    · rw [hscope, hmaps]
      exact Nat.lt_succ_self _
    · have hlt := h.scope s g hg'
      omega
  · intro s t g k hg hk hsame
    rcases hcases s g hg with ⟨rfl, rfl⟩ | hg'
    · rcases hcases t k hk with ⟨rfl, rfl⟩ | hk'
      · rfl
      · have hlt := h.scope t k hk'
        rw [← hsame, hscope] at hlt
        simp at hlt
    · rcases hcases t k hk with ⟨rfl, rfl⟩ | hk'
      · have hlt := h.scope s g hg'
        rw [hsame, hscope] at hlt
        simp at hlt
      · exact h.distinct s t g k hg' hk' hsame

theorem root (h : WellLinked w) (target : String) : WellLinked (w.rootFrame target).2 := by
  refine h.push rfl rfl ?_
  intro _ hmade
  exact ⟨_, .root hmade rfl rfl rfl rfl rfl rfl⟩

theorem fork (h : WellLinked w) {parent : FrameRef} {kind : FrameKind} (target : Option String)
    (isInjected : Option Bool) (made : (w.frame? parent).isSome = true)
    (forked : kind.isForked = true) :
    WellLinked (w.fork parent kind (!kind.holdsLocals) target isInjected).2 := by
  obtain ⟨p, hp⟩ := Option.isSome_iff_exists.1 made
  obtain ⟨outer, hlinked⟩ := h.linked parent p hp
  unfold World.fork
  rw [hp]
  refine h.push rfl rfl ?_
  intro hold hmade
  have hapi : (kind == .api) = false := by cases kind <;> simp_all [FrameKind.isForked]
  refine ⟨_, .fork hmade forked rfl (Heap.lt_size_of_get? hp) rfl ?_ rfl rfl (hlinked.mono hold)⟩
  simp [hapi]

theorem change (h : WellLinked w) (hw : w.KeepsLinks w') : WellLinked w' := by
  constructor
  · intro r f' hf'
    obtain ⟨f, hf, _⟩ := hw.frame_before hf'
    obtain ⟨frames, hlinked⟩ := h.linked r f hf
    obtain ⟨g, frames', _, hlinked'⟩ := hlinked.change hw
    have hg := hlinked'.made
    rw [hf'] at hg
    cases hg
    exact ⟨frames', hlinked'⟩
  · intro r f' hf'
    obtain ⟨f, hf, hsame⟩ := hw.frame_before hf'
    have hlt := h.scope r f hf
    have hle := hw.maps
    rw [← hsame.scope]
    omega
  · intro r s f' g' hf' hg' hscope
    obtain ⟨f, hf, hsame⟩ := hw.frame_before hf'
    obtain ⟨g, hg, hsame'⟩ := hw.frame_before hg'
    refine h.distinct r s f g hf hg ?_
    rw [hsame.scope, hsame'.scope, hscope]

end WellLinked

/-- Forks link frames well. -/
theorem Forked.wellLinked {w : World} (h : Forked w) : WellLinked w := by
  induction h with
  | start h => exact .start h
  | root target _ ih => exact ih.root target
  | fork target isInjected _ made forked ih => exact ih.fork target isInjected made forked
  | change _ keeps ih => exact ih.change keeps

namespace Linked

variable {w : World} {r : FrameRef} {f : Frame} {frames : List (FrameRef × Frame)}

theorem of_mem (h : w.Linked r f frames) {s : FrameRef} {g : Frame} (hs : (s, g) ∈ frames) :
    w.frame? s = some g ∧ s.index ≤ r.index := by
  induction h with
  | root made =>
    cases List.mem_singleton.1 hs
    exact ⟨made, Nat.le_refl _⟩
  | fork made _ _ earlier _ _ _ _ _ ih =>
    rcases List.mem_cons.1 hs with heq | hs
    · cases heq
      exact ⟨made, Nat.le_refl _⟩
    · obtain ⟨hg, hle⟩ := ih hs
      exact ⟨hg, by omega⟩

/-- The reference to the table of global functions is the one that following the links finds. -/
theorem api_eq (h : w.Linked r f frames) :
    f.api = (frames.find? (·.2.kind == .api)).map (·.1) := by
  induction h with
  | root _ kind _ _ api => simp [kind, api]
  | @fork r p f g outer _ kind _ _ _ api _ _ _ ih =>
    have hkind : (f.kind == .api) = false := by
      cases hf : f.kind <;> simp_all [FrameKind.isForked]
    simp [hkind, api, ih]

/-- The reference to the global frame is the one that following the links finds. -/
theorem globals_eq (h : w.Linked r f frames) :
    f.globals = (frames.find? (·.2.kind == .global)).map (·.1) := by
  induction h with
  | root _ kind _ _ _ globals => simp [kind, globals]
  | @fork r p f g outer _ _ _ _ _ _ globals _ _ ih =>
    rw [globals, ih]
    cases hf : f.kind == .global <;> simp [hf]

/-- The reference to the frame that holds variables is the one that following the links finds. -/
theorem locals_eq (h : w.Linked r f frames) :
    f.locals = (frames.filter (·.2.kind.holdsLocals)).head?.map (·.1) := by
  induction h with
  | root _ kind _ _ _ _ locals => simp [kind, locals, FrameKind.holdsLocals]
  | @fork r p f g outer _ _ _ _ _ _ _ locals _ ih =>
    rw [locals, ih]
    cases hf : f.kind.holdsLocals <;> simp [hf]

end Linked

theorem lookup?_name (w : World) (f : Frame) (name : String) :
    w.lookup? (scopeOf f) [name] = w.held? f name := by
  simp only [lookup?, scopeOf, child?, held?]
  cases (w.contents f.scope).entries.get? name <;> rfl

theorem get_name {w : World} {f : Frame} {name : String} {v : Value}
    (h : w.held? f name = some v) : w.get (scopeOf f) [name] = .ok v := by
  simp only [held?] at h
  simp [World.get, scopeOf, readKey, h]

theorem findInFrame_name (w : World) (f : Frame) (name : String) :
    w.findInFrame f [name] =
      ((w.held? f name).or ((f.api.bind w.frame?).bind (w.held? · name))).map .ok := by
  unfold findInFrame
  simp only [lookup?_name]
  cases hown : w.held? f name with
  | some v => simp [get_name hown]
  | none =>
    cases f.api.bind w.frame? with
    | none => simp
    | some a =>
      cases hapi : w.held? a name with
      | some v => simp [get_name hapi, hapi]
      | none => simp [hapi]

/-- What a look-up of a name gives. -/
def foundOr (name : String) : Option Value → Except Fault Value
  | some v => .ok v
  | none => .error (.of (.cannotGetPath name))

/-- What a name stands for along a chain of frames, the way it is looked for: each frame that is not
temporary looks into its own variables, into the table and among the methods. -/
def meaningAlong (w : World) (api : Option Frame) (name : String) :
    List (FrameRef × Frame) → Option Value
  | [] => none
  | h :: outer =>
    if h.2.isTemporary then w.meaningAlong api name outer
    else (w.held? h.2 name).or ((api.bind (w.held? · name)).or
      ((bareMethod? [name]).or (w.meaningAlong api name outer)))

section

variable {w : World} {name : String} (hlocals : name ≠ "locals") (hglobals : name ≠ "globals")

include hlocals hglobals

theorem getFrom_name (n : Nat) (r : FrameRef) :
    w.getFrom (n + 1) r [name] =
      match w.frame? r with
      | none => foundOr name none
      | some f =>
        if f.isTemporary then
          match f.previous with
          | some p => w.getFrom n p [name]
          | none => .ok .nil
        else
          match w.frame? (f.locals.getD r) with
          | none => foundOr name none
          | some l =>
            match ((w.held? l name).or ((l.api.bind w.frame?).bind (w.held? · name))).or
              (bareMethod? [name]) with
            | some v => .ok v
            | none =>
              match l.previous with
              | some p => w.getFrom n p [name]
              | none => foundOr name none := by
  have htext : Path.text [name] = name := by simp [Path.text]
  rw [getFrom]
  cases w.frame? r with
  | none => simp [foundOr, htext]
  | some f =>
    dsimp only
    split
    next heq =>
      cases heq
      exact absurd rfl hlocals
    next heq =>
      cases heq
      exact absurd rfl hglobals
    · split
      · rfl
      · cases w.frame? (f.locals.getD r) with
        | none => simp [foundOr, htext]
        | some l =>
          simp only [findInFrame_name, List.isEmpty_cons, Bool.false_eq_true, if_false]
          cases (w.held? l name).or ((l.api.bind w.frame?).bind (w.held? · name)) with
          | some v => rfl
          | none =>
            cases bareMethod? [name] with
            | some v => rfl
            | none => cases l.previous <;> simp [foundOr, htext]

/-- A look-up follows the links of frames. -/
theorem Linked.getFrom_eq {r : FrameRef} {f : Frame} {frames : List (FrameRef × Frame)}
    (h : w.Linked r f frames) {n : Nat} (hn : r.index < n) :
    w.getFrom n r [name] = foundOr name (w.meaningAlong (f.api.bind w.frame?) name frames) := by
  induction h generalizing n with
  | root made kind previous isTemporary api globals locals =>
    obtain ⟨m, rfl⟩ := Nat.exists_eq_succ_of_ne_zero (by omega : n ≠ 0)
    rw [getFrom_name hlocals hglobals]
    simp only [made, isTemporary, locals, previous, meaningAlong, Option.getD_none,
      ← Option.or_assoc, Bool.false_eq_true, if_false]
    cases ((w.held? _ name).or _).or (bareMethod? [name]) <;> rfl
  | fork made kind previous earlier isTemporary api globals locals _ ih =>
    obtain ⟨m, rfl⟩ := Nat.exists_eq_succ_of_ne_zero (by omega : n ≠ 0)
    have houter := ih (n := m) (by omega)
    rw [getFrom_name hlocals hglobals]
    cases hkind : FrameKind.holdsLocals _ with
    | false =>
      rw [hkind] at isTemporary
      simp only [made, isTemporary, previous, meaningAlong, houter, api, Bool.not_false, if_true]
    | true =>
      rw [hkind] at isTemporary locals
      simp only [made, isTemporary, previous, locals, meaningAlong, houter, api, Bool.not_true,
        Bool.false_eq_true, if_false, if_true, Option.getD_some, ← Option.or_assoc]
      cases ((w.held? _ name).or _).or (bareMethod? [name]) <;> rfl

theorem slotFrom_name (n : Nat) (r : FrameRef) :
    w.slotFrom (n + 1) r [name] =
      match w.frame? r with
      | none => .error (.of (.cannotSetPath name))
      | some f =>
        if f.isTemporary then
          match f.previous with
          | some p => w.slotFrom n p [name]
          | none => .error (.of (.cannotSetPath name))
        else
          match w.frame? (f.locals.getD r) with
          | none => .error (.of (.cannotSetPath name))
          | some l => .ok (.entry l.scope name) := by
  have htext : Path.text [name] = name := by simp [Path.text]
  rw [slotFrom, htext]
  cases w.frame? r with
  | none => rfl
  | some f =>
    dsimp only
    split
    next heq =>
      cases heq
      exact absurd rfl hlocals
    next heq =>
      cases heq
      exact absurd rfl hglobals
    · rfl

/-- The place of a name is in the nearest frame that holds variables. -/
theorem Linked.slotFrom_eq {r : FrameRef} {f : Frame} {frames further : List (FrameRef × Frame)}
    {holder : FrameRef × Frame} (h : w.Linked r f frames)
    (hholder : frames.filter (·.2.kind.holdsLocals) = holder :: further) {n : Nat}
    (hn : r.index < n) : w.slotFrom n r [name] = .ok (.entry holder.2.scope name) := by
  induction h generalizing n with
  | root _ kind => simp [kind, FrameKind.holdsLocals] at hholder
  | @fork r p f g outer made _ previous earlier isTemporary _ _ locals _ ih =>
    obtain ⟨m, rfl⟩ := Nat.exists_eq_succ_of_ne_zero (by omega : n ≠ 0)
    rw [slotFrom_name hlocals hglobals, made]
    cases hkind : f.kind.holdsLocals with
    | false =>
      simp only [isTemporary, hkind, Bool.not_false, if_true, previous]
      exact ih (by simpa [hkind] using hholder) (by omega)
    | true =>
      have hfirst : (r, f) = holder := by
        simp only [List.filter_cons, hkind, if_true, List.cons.injEq] at hholder
        exact hholder.1
      simp only [isTemporary, locals, hkind, Bool.not_true, Bool.false_eq_true, if_false, if_true,
        Option.getD_some, made, ← hfirst]

/-- The place of a name does not depend on the bound. -/
theorem Linked.slotFrom_settled {r : FrameRef} {f : Frame} {frames : List (FrameRef × Frame)}
    (h : w.Linked r f frames) {n m : Nat} (hn : r.index < n) (hm : r.index < m) :
    w.slotFrom n r [name] = w.slotFrom m r [name] := by
  induction h generalizing n m with
  | root made _ _ isTemporary =>
    obtain ⟨n, rfl⟩ := Nat.exists_eq_succ_of_ne_zero (by omega : n ≠ 0)
    obtain ⟨m, rfl⟩ := Nat.exists_eq_succ_of_ne_zero (by omega : m ≠ 0)
    rw [slotFrom_name hlocals hglobals, slotFrom_name hlocals hglobals]
    simp only [made, isTemporary, Bool.false_eq_true, if_false]
  | fork made _ previous earlier _ _ _ _ _ ih =>
    obtain ⟨n, rfl⟩ := Nat.exists_eq_succ_of_ne_zero (by omega : n ≠ 0)
    obtain ⟨m, rfl⟩ := Nat.exists_eq_succ_of_ne_zero (by omega : m ≠ 0)
    have houter := ih (n := n) (m := m) (by omega) (by omega)
    rw [slotFrom_name hlocals hglobals, slotFrom_name hlocals hglobals]
    simp only [made, previous, houter]

end

namespace Linked

variable {w : World} {r : FrameRef} {f : Frame} {frames : List (FrameRef × Frame)} {name : String}

/-- A name that is neither in the table nor a method is looked for in frames that hold variables
only. -/
theorem meaningAlong_of_none (h : w.Linked r f frames)
    (htable : (f.api.bind w.frame?).bind (w.held? · name) = none)
    (hmethod : bareMethod? [name] = none) :
    w.meaningAlong (f.api.bind w.frame?) name frames =
      (frames.filter (·.2.kind.holdsLocals)).findSome? fun h => w.held? h.2 name := by
  induction h with
  | root made kind _ isTemporary api =>
    -- The outermost frame is the one of the table.
    simp only [api, Option.bind_some, made] at htable
    simp [meaningAlong, isTemporary, kind, FrameKind.holdsLocals, api, made, htable, hmethod]
  | @fork r p f g outer _ _ _ _ isTemporary api _ _ _ ih =>
    rw [api] at htable ⊢
    have houter := ih htable
    cases hkind : f.kind.holdsLocals with
    | false => simp [meaningAlong, isTemporary, hkind, houter]
    | true =>
      simp only [meaningAlong, isTemporary, hkind, Bool.not_true, Bool.false_eq_true, if_false,
        htable, hmethod, houter, Option.none_or, List.filter_cons, if_true, List.findSome?_cons]
      cases w.held? f name <;> rfl

/-- The table and the methods stand behind the first of the frames that hold variables, and matter
no more further out. -/
theorem meaningAlong_eq (h : w.Linked r f frames) {holder : FrameRef × Frame}
    {further : List (FrameRef × Frame)}
    (hholder : frames.filter (·.2.kind.holdsLocals) = holder :: further) :
    w.meaningAlong (f.api.bind w.frame?) name frames =
      (w.held? holder.2 name).or (((f.api.bind w.frame?).bind (w.held? · name)).or
        ((bareMethod? [name]).or (further.findSome? fun h => w.held? h.2 name))) := by
  induction h with
  | root _ kind => simp [kind, FrameKind.holdsLocals] at hholder
  | @fork r p f g outer _ _ _ _ isTemporary api _ _ parent ih =>
    rw [api]
    cases hkind : f.kind.holdsLocals with
    | false =>
      simp only [meaningAlong, isTemporary, hkind, Bool.not_false, if_true]
      exact ih (by simpa [hkind] using hholder)
    | true =>
      simp only [List.filter_cons, hkind, if_true, List.cons.injEq] at hholder
      obtain ⟨rfl, rfl⟩ := hholder
      simp only [meaningAlong, isTemporary, hkind, Bool.not_true, Bool.false_eq_true, if_false]
      cases htable : (g.api.bind w.frame?).bind (w.held? · name) with
      | some v => rfl
      | none =>
        cases hmethod : bareMethod? [name] with
        | some v => rfl
        | none => rw [parent.meaningAlong_of_none htable hmethod]

/-- The frame of the table is the one that following the links finds. -/
theorem apiFrame_eq (h : w.Linked r f frames) :
    f.api.bind w.frame? = (frames.find? (·.2.kind == .api)).map (·.2) := by
  rw [h.api_eq]
  cases hfind : frames.find? (·.2.kind == .api) with
  | none => rfl
  | some a => exact (h.of_mem (List.mem_of_find?_eq_some hfind)).1

end Linked

/-- A name is bound in the variables of one frame: nothing else is written. -/
structure Binds (w : World) (holder : FrameRef) (name : String) (v : Value) (w' : World) :
    Prop where
  /-- All the places of all frames. -/
  held : ∀ s f, w.frame? s = some f → ∀ other, w'.held? f other =
    if s = holder ∧ other = name then some v else w.held? f other
  /-- All other maps. -/
  contents : ∀ m : MapRef, (∀ f, w.frame? holder = some f → f.scope ≠ m) →
    w'.contents m = w.contents m
  /-- All that is not a map. -/
  rest : { w' with maps := w.maps } = w

theorem WellLinked.binds {w : World} (h : WellLinked w) {r : FrameRef} {f : Frame}
    (hf : w.frame? r = some f) (name : String) (v : Value) :
    w.Binds r name v (w.write (.entry f.scope name) v) where
  held := by
    intro s g hg other
    have hscope := h.scope s g hg
    simp only [held?, write, contents_modifyMap]
    by_cases hs : s = r
    · subst hs
      rw [hf] at hg
      cases hg
      simp only [hscope, and_self, if_true, true_and, MapObject.insert, OrderedMap.get?_insert]
      by_cases hother : other = name
      · simp [hother]
      · simp [hother, Ne.symm hother]
    · have hne : f.scope ≠ g.scope := fun heq => hs (h.distinct r s f g hf hg heq).symm
      simp [hne, hs]
  contents := by
    intro m hm
    simp [write, contents_modifyMap, hm f hf]
  rest := rfl

/-- Writing a place of a map keeps the links of frames. -/
theorem keepsLinks_write (w : World) (m : MapRef) (name : String) (v : Value) :
    w.KeepsLinks (w.write (.entry m name) v) where
  frames r := by
    change Option.Rel _ (w.frame? r) (w.frame? r)
    cases w.frame? r with
    | none => exact .none
    | some f => exact .some (.refl f)
  size := rfl
  maps := by simp [write, modifyMap]

theorem chain_write (w : World) (m : MapRef) (name : String) (v : Value) (r : FrameRef) :
    (w.write (.entry m name) v).chain r = w.chain r := by
  unfold chain
  generalize r.index + 1 = n
  induction n generalizing r with
  | zero => rfl
  | succ n ih =>
    rw [chainFrom, chainFrom]
    change (match w.frame? r with | none => _ | some _ => _) = _
    cases w.frame? r with
    | none => rfl
    | some f => simp only [ih]

section

variable {w : World} {r : FrameRef} {f : Frame} (hf : w.frame? r = some f) (n : Nat) (rest : Path)

include hf

theorem getFrom_locals :
    w.getFrom (n + 1) r ("locals" :: rest) = w.getFrom n (f.locals.getD r) rest := by
  rw [getFrom, hf]
  simp

theorem getFrom_globals {g : FrameRef} (hg : f.globals = some g) :
    w.getFrom (n + 1) r ("globals" :: rest) = w.getFrom n g rest := by
  rw [getFrom, hf]
  simp [hg]

theorem slotFrom_locals :
    w.slotFrom (n + 1) r ("locals" :: rest) = w.slotFrom n (f.locals.getD r) rest := by
  rw [slotFrom, hf]
  simp

theorem slotFrom_globals {g : FrameRef} (hg : f.globals = some g) :
    w.slotFrom (n + 1) r ("globals" :: rest) = w.slotFrom n g rest := by
  rw [slotFrom, hf]
  simp [hg]

end

/-- At or below a global frame there is a frame that holds variables. -/
theorem holders_cons {w : World} {r : FrameRef} {global : FrameRef × Frame}
    (hglobal : w.global? r = some global) :
    ∃ holder further, w.holders r = holder :: further := by
  have hmem := List.mem_of_find?_eq_some hglobal
  have hkind := List.find?_some hglobal
  simp only [beq_iff_eq] at hkind
  have hholder : global ∈ w.holders r :=
    List.mem_filter.2 ⟨hmem, by simp [hkind, FrameKind.holdsLocals]⟩
  exact List.exists_cons_of_ne_nil (List.ne_nil_of_mem hholder)

theorem lt_stepBound (r : FrameRef) (path : Path) : r.index < stepBound r path := by
  unfold stepBound
  omega

namespace WellLinked

variable {w : World} {r : FrameRef} {name : String} {global holder : FrameRef × Frame}
  {further : List (FrameRef × Frame)}

theorem linked_chain (h : WellLinked w) (hglobal : w.global? r = some global) :
    ∃ f, w.Linked r f (w.chain r) := by
  cases hr : w.frame? r with
  | none => simp [global?, chain, chainFrom, hr] at hglobal
  | some f =>
    obtain ⟨frames, hlinked⟩ := h.linked r f hr
    rw [← hlinked.chain_eq] at hlinked
    exact ⟨f, hlinked⟩

theorem getVariable_name (h : WellLinked w) (hglobal : w.global? r = some global)
    (hlocals : name ≠ "locals") (hglobals : name ≠ "globals") :
    w.getVariable r [name] = foundOr name (w.meaning? r name) := by
  obtain ⟨f, hlinked⟩ := h.linked_chain hglobal
  obtain ⟨holder, further, hholders⟩ := holders_cons hglobal
  unfold getVariable
  rw [hlinked.getFrom_eq hlocals hglobals (lt_stepBound _ _),
    hlinked.meaningAlong_eq hholders, hlinked.apiFrame_eq]
  simp only [meaning?, hholders, List.head?_cons, List.tail_cons, Option.bind_some, api?]
  cases (w.chain r).find? (·.2.kind == .api) <;> rfl

theorem setVariable_name (h : WellLinked w) (hglobal : w.global? r = some global)
    (hholders : w.holders r = holder :: further) (hlocals : name ≠ "locals")
    (hglobals : name ≠ "globals") (v : Value) :
    w.setVariable r [name] v = .ok (w.write (.entry holder.2.scope name) v) := by
  obtain ⟨f, hlinked⟩ := h.linked_chain hglobal
  unfold setVariable variableSlot
  rw [hlinked.slotFrom_eq hlocals hglobals hholders (lt_stepBound _ _)]
  rfl

/-- A name in front of which a frame is named is read in that frame, whichever bound is used. -/
theorem getFrom_eq_getVariable (h : WellLinked w) {s : FrameRef} {g : Frame}
    (hs : w.frame? s = some g) (hlocals : name ≠ "locals") (hglobals : name ≠ "globals") {n : Nat}
    (hn : s.index < n) : w.getFrom n s [name] = w.getVariable s [name] := by
  obtain ⟨frames, hlinked⟩ := h.linked s g hs
  unfold getVariable
  rw [hlinked.getFrom_eq hlocals hglobals hn,
    hlinked.getFrom_eq hlocals hglobals (lt_stepBound _ _)]

theorem slotFrom_eq_variableSlot (h : WellLinked w) {s : FrameRef} {g : Frame}
    (hs : w.frame? s = some g) (hlocals : name ≠ "locals") (hglobals : name ≠ "globals") {n : Nat}
    (hn : s.index < n) : w.slotFrom n s [name] = w.variableSlot s [name] := by
  obtain ⟨frames, hlinked⟩ := h.linked s g hs
  unfold variableSlot
  exact hlinked.slotFrom_settled hlocals hglobals hn (lt_stepBound _ _)

end WellLinked

/-- Names are scoped lexically. From a frame at or below a global frame, a bare name is looked for
in the nearest frame that holds variables, then in the table of global functions, then among the
methods of maps, and then further out. Writing it succeeds and binds it in the nearest frame that
holds variables, where it is found again. The names `locals` and `globals` in front of a name lead
to the nearest frame that holds variables and to the global frame. -/
theorem lexical_scoping {w : World} (h : Forked w) {r : FrameRef} {global : FrameRef × Frame}
    (hglobal : w.global? r = some global) {name : String} (hlocals : name ≠ "locals")
    (hglobals : name ≠ "globals") :
    ∃ holder further, w.holders r = holder :: further ∧
      w.getVariable r [name] = foundOr name (w.meaning? r name) ∧
      (∀ v, ∃ w', w.setVariable r [name] v = .ok w' ∧ w.Binds holder.1 name v w' ∧
        w'.getVariable r [name] = .ok v) ∧
      w.getVariable r ["locals", name] = w.getVariable holder.1 [name] ∧
      (∀ v, w.setVariable r ["locals", name] v = w.setVariable holder.1 [name] v) ∧
      w.getVariable r ["globals", name] = w.getVariable global.1 [name] ∧
      ∀ v, w.setVariable r ["globals", name] v = w.setVariable global.1 [name] v := by
  have hwell := h.wellLinked
  obtain ⟨holder, further, hholders⟩ := holders_cons hglobal
  obtain ⟨f, hlinked⟩ := hwell.linked_chain hglobal
  have hholder : holder ∈ w.chain r := by
    have hmem : holder ∈ w.holders r := by simp [hholders]
    exact (List.mem_filter.1 hmem).1
  obtain ⟨hmade, hle⟩ := hlinked.of_mem hholder
  obtain ⟨hmade', hle'⟩ := hlinked.of_mem (List.mem_of_find?_eq_some hglobal)
  have hnearest : f.locals.getD r = holder.1 := by
    have hfirst : (w.chain r).filter (·.2.kind.holdsLocals) = holder :: further := hholders
    rw [hlinked.locals_eq, hfirst]
    rfl
  have houtermost : f.globals = some global.1 := by
    have hfind : (w.chain r).find? (·.2.kind == .global) = some global := hglobal
    rw [hlinked.globals_eq, hfind]
    rfl
  have hroom : ∀ {s : FrameRef} (key : String), s.index ≤ r.index →
      s.index < r.index + [key, name].length := by
    intro s key hs
    simp only [List.length_cons, List.length_nil]
    omega
  refine ⟨holder, further, hholders, hwell.getVariable_name hglobal hlocals hglobals, ?_, ?_, ?_,
    ?_, ?_⟩
  · intro v
    have hbinds := hwell.binds hmade name v
    refine ⟨_, hwell.setVariable_name hglobal hholders hlocals hglobals v, hbinds, ?_⟩
    -- The frames are the same, so the name is found where it was put.
    have hchain := chain_write w holder.2.scope name v r
    have hwell' := hwell.change (keepsLinks_write w holder.2.scope name v)
    have hglobal' : (w.write (.entry holder.2.scope name) v).global? r = some global := by
      rw [global?, hchain]
      exact hglobal
    have hholders' : (w.write (.entry holder.2.scope name) v).holders r = holder :: further := by
      rw [holders, hchain]
      exact hholders
    have hheld := hbinds.held holder.1 holder.2 hmade name
    simp only [and_self, if_true] at hheld
    rw [hwell'.getVariable_name hglobal' hlocals hglobals]
    simp [meaning?, hholders', hheld, foundOr]
  · unfold getVariable
    rw [stepBound, getFrom_locals hlinked.made, hnearest]
    exact hwell.getFrom_eq_getVariable hmade hlocals hglobals (hroom _ hle)
  · intro v
    unfold setVariable variableSlot
    rw [stepBound, slotFrom_locals hlinked.made, hnearest]
    rw [hwell.slotFrom_eq_variableSlot hmade hlocals hglobals (hroom _ hle)]
    rfl
  · unfold getVariable
    rw [stepBound, getFrom_globals hlinked.made _ _ houtermost]
    exact hwell.getFrom_eq_getVariable hmade' hlocals hglobals (hroom _ hle')
  · intro v
    unfold setVariable variableSlot
    rw [stepBound, slotFrom_globals hlinked.made _ _ houtermost]
    rw [hwell.slotFrom_eq_variableSlot hmade' hlocals hglobals (hroom _ hle')]
    rfl

/-- A world in which nothing was made. -/
def blank : World :=
  { lists := .empty, maps := .empty, functions := .empty, interfaces := .empty, frames := .empty
    process := ⟨false, false, none⟩, debugger := ⟨false, false, .standard, []⟩
    handlers := default, printed := [], collected := [], recovered := [], generators := default
    configuration := ⟨"main", [], [], default, ⟨0⟩, ⟨1⟩, none⟩ }

/-- A loop in a function that was declared in a loop of global code. -/
def loopInClosure : World :=
  let global := ((blank.rootFrame "main").2.fork ⟨0⟩ .global false none none).2
  let closure := (((global.fork ⟨1⟩ .loop true none none).2).fork ⟨2⟩ .function false none none).2
  (closure.fork ⟨3⟩ .loop true none none).2

theorem loopInClosure_forked : Forked loopInClosure := by
  have hroot : Forked (blank.rootFrame "main").2 := .root "main" (.start rfl)
  have hglobal := @Forked.fork _ ⟨0⟩ .global none none hroot rfl rfl
  have hloop := @Forked.fork _ ⟨1⟩ .loop none none hglobal rfl rfl
  have hclosure := @Forked.fork _ ⟨2⟩ .function none none hloop rfl rfl
  exact @Forked.fork _ ⟨3⟩ .loop none none hclosure rfl rfl

theorem lexical_scoping_loopInClosure :
    loopInClosure.getVariable ⟨4⟩ ["globals", "x"] = loopInClosure.getVariable ⟨1⟩ ["x"] ∧
      ∃ w', loopInClosure.setVariable ⟨4⟩ ["x"] .nil = .ok w' ∧
        w'.getVariable ⟨4⟩ ["x"] = .ok .nil := by
  have hglobal : loopInClosure.global? ⟨4⟩ = some _ := rfl
  obtain ⟨_, _, _, _, hset, _, _, hglobals, _⟩ := lexical_scoping loopInClosure_forked hglobal
    (by decide : "x" ≠ "locals") (by decide)
  obtain ⟨w', hw', _, hget⟩ := hset .nil
  exact ⟨hglobals, w', hw', hget⟩

end World

end LineScript
