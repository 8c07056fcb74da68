import LineScript.Proofs.World.Detour
import LineScript.Proofs.World.Sealed

/-!
# What a frame refers to

A frame keeps references to earlier frames: to the table of global functions, to the global frame,
to the one that holds variables, and to the innermost loop and function call it belongs to. They are
set when the frame is made, from those of the frame before. Main statement: whatever frames of
whatever kinds are made one behind the other, each reference leads to the frame that walking outward
finds, and two frames note a `break`, a `continue` or a `return` in the same place exactly if the
walks from both lead to the same loop or the same call.
-/

namespace LineScript

namespace World

/-- The worlds that frames of any kind can make, one behind the other, with any changes in between
that leave alone what is settled when a frame is made. -/
inductive Grown : World → Prop where
  | start {w : World} (h : w.frames.size = 0) : Grown w
  | root {w : World} (target : String) (h : Grown w) : Grown (w.rootFrame target).2
  | fork {w : World} (parent : FrameRef) (kind : FrameKind) (isTemporary : Bool)
      (target : Option String) (isInjected : Option Bool) (h : Grown w) :
      Grown (w.fork parent kind isTemporary target isInjected).2
  | change {w w' : World} (h : Grown w)
      (keeps : ∀ r, Option.Rel Frame.SameMake (w.frame? r) (w'.frame? r)) : Grown w'

/-- The nearest frame of some kinds, from a frame outward and itself included. -/
def nearest? (w : World) (r : FrameRef) (isWanted : FrameKind → Bool) : Option FrameRef :=
  ((w.chain r).find? (isWanted ·.2.kind)).map (·.1)

/-- The nearest loop, from a frame outward and itself included, unless a function is nearer. -/
def nearestLoop? (w : World) (r : FrameRef) : Option FrameRef :=
  (((w.chain r).find? fun h => h.2.kind == .loop || h.2.kind == .function).filter
    (·.2.kind == .loop)).map (·.1)

/-- The frame that a reference of a frame leads to. -/
def referred? (w : World) (reference : Frame → Option FrameRef) (r : FrameRef) : Option Frame :=
  ((w.frame? r).bind reference).bind w.frame?

/-- Changes the frame that a reference of a frame leads to. -/
def modifyReferred (w : World) (reference : Frame → Option FrameRef) (r : FrameRef)
    (change : Frame → Frame) : World :=
  match (w.frame? r).bind reference with
  | some s => w.modifyFrame s change
  | none => w

/-- Whatever is noted in the frame that one frame refers to, the other finds it behind its own
reference. -/
def Shares {α : Type} (w : World) (reference : Frame → Option FrameRef) (note : α → Frame → Frame)
    (view : Frame → α) (r s : FrameRef) : Prop :=
  ∀ x, ((w.modifyReferred reference r (note x)).referred? reference s).map view = some x

/-- Two frames note in the same place that their loop is broken off or goes into its next round. -/
def SharesLoop (w : World) (r s : FrameRef) : Prop :=
  w.Shares (·.loop) (fun x l => { l with isBroken := x.1, isContinued := x.2 })
    (fun l => (l.isBroken, l.isContinued)) r s

/-- Two frames note in the same place that their call has returned, and what. -/
def SharesCall (w : World) (r s : FrameRef) : Prop :=
  w.Shares (·.call) (fun x c => { c with isReturned := x.1, result := x.2 })
    (fun c => (c.isReturned, c.result)) r s

/-- A frame is the outermost of its chain, or refers to earlier frames as one made behind another
does. -/
inductive Stems (w : World) (r : FrameRef) (f : Frame) : Prop where
  | root (kind : f.kind = .api) (previous : f.previous = none) (api : f.api = some r)
      (globals : f.globals = none) (locals : f.locals = none) (loop : f.loop = none)
      (call : f.call = none)
  | fork {p : FrameRef} {g : Frame} (parent : w.frame? p = some g) (earlier : p.index < r.index)
      (previous : f.previous = some p)
      (api : f.api = if f.kind == .api then some r else g.api)
      (globals : f.globals = if f.kind == .global then some r else g.globals)
      (locals : f.locals = if f.kind.holdsLocals then some r else g.locals)
      (loop : f.loop =
        if f.kind == .function then none else if f.kind == .loop then some r else g.loop)
      (call : f.call = if f.kind == .function then some r else g.call)

/-- All frames stem from earlier ones. -/
def AllStem (w : World) : Prop := ∀ r f, w.frame? r = some f → w.Stems r f

theorem Stems.mono {w w' : World} {r : FrameRef} {f : Frame} (h : w.Stems r f)
    (hw : ∀ s g, w.frame? s = some g → w'.frame? s = some g) : w'.Stems r f := by
  cases h with
  | root kind previous api globals locals loop call =>
    exact .root kind previous api globals locals loop call
  | fork parent earlier previous api globals locals loop call =>
    exact .fork (hw _ _ parent) earlier previous api globals locals loop call

namespace AllStem

variable {w w' : World}

theorem start (h : w.frames.size = 0) : w.AllStem := by
  intro r f hf
  have hlt := Heap.lt_size_of_get? hf
  omega

/-- A new frame keeps all as it is, if it stems from the frames before it. -/
theorem withFrame (h : w.AllStem) {f : Frame} (hf : w.Stems ⟨w.frames.size⟩ f) :
    (w.withFrame f).AllStem := by
  have hold : ∀ s g, w.frame? s = some g → (w.withFrame f).frame? s = some g := by
    intro s g hg
    have hlt := Heap.lt_size_of_get? hg
    rw [frame?_withFrame, if_neg (by omega)]
    exact hg
  intro r g hg
  by_cases hr : r = ⟨w.frames.size⟩
  · subst hr
    rw [frame?_withFrame_new] at hg
    cases hg
    exact hf.mono hold
  · have hne : r.index ≠ w.frames.size := fun hindex => hr (by cases r; simp_all)
    rw [frame?_withFrame, if_neg hne] at hg
    exact (h r g hg).mono hold

theorem root (h : w.AllStem) (target : String) : (w.rootFrame target).2.AllStem :=
  h.withFrame (.root rfl rfl rfl rfl rfl rfl rfl)

theorem fork (h : w.AllStem) (parent : FrameRef) (kind : FrameKind) (isTemporary : Bool)
    (target : Option String) (isInjected : Option Bool) :
    (w.fork parent kind isTemporary target isInjected).2.AllStem := by
  unfold World.fork
  cases hp : w.frame? parent with
  | none => exact h
  | some p => exact h.withFrame (.fork hp (Heap.lt_size_of_get? hp) rfl rfl rfl rfl rfl rfl)

theorem change (h : w.AllStem)
    (hw : ∀ r, Option.Rel Frame.SameMake (w.frame? r) (w'.frame? r)) : w'.AllStem := by
  intro r f' hf'
  have hrel := hw r
  rw [hf'] at hrel
  cases hf : w.frame? r with
  | none =>
    rw [hf] at hrel
    cases hrel
  | some f =>
    rw [hf] at hrel
    obtain ⟨hsame⟩ := hrel
    cases h r f hf with
    | root kind previous api globals locals loop call =>
      exact .root (hsame.kind ▸ kind) (hsame.previous ▸ previous) (hsame.api ▸ api)
        (hsame.globals ▸ globals) (hsame.locals ▸ locals) (hsame.loop ▸ loop) (hsame.call ▸ call)
    | @fork p g parent earlier previous api globals locals loop call =>
      have hparent := hw p
      rw [parent] at hparent
      cases hg' : w'.frame? p with
      | none =>
        rw [hg'] at hparent
        cases hparent
      | some g' =>
        rw [hg'] at hparent
        obtain ⟨houter⟩ := hparent
        refine .fork hg' earlier (hsame.previous ▸ previous) ?_ ?_ ?_ ?_ ?_
        · rw [← hsame.api, api, hsame.kind, houter.api]
        · rw [← hsame.globals, globals, hsame.kind, houter.globals]
        · rw [← hsame.locals, locals, hsame.kind, houter.locals]
        · rw [← hsame.loop, loop, hsame.kind, houter.loop]
        · rw [← hsame.call, call, hsame.kind, houter.call]

end AllStem

theorem Grown.allStem {w : World} (h : Grown w) : w.AllStem := by
  induction h with
  | start h => exact .start h
  | root target _ ih => exact ih.root target
  | fork parent kind isTemporary target isInjected _ ih =>
    exact ih.fork parent kind isTemporary target isInjected
  | change _ keeps ih => exact ih.change keeps

section Walks

variable {w : World} {r s : FrameRef} {f : Frame}

/-- A bound beyond the frame itself is no bound: each step of the walk goes to an earlier frame. -/
theorem AllStem.chainFrom_eq (h : w.AllStem) {n : Nat} (hn : r.index < n) :
    w.chainFrom n r = w.chain r := by
  have hsettled : ∀ m n : Nat, ∀ r : FrameRef, r.index < m → r.index < n →
      w.chainFrom m r = w.chainFrom n r := by
    intro m
    induction m with
    | zero =>
      intro n r hm
      omega
    | succ m ih =>
      intro n r hm hn
      obtain ⟨k, rfl⟩ := Nat.exists_eq_succ_of_ne_zero (by omega : n ≠ 0)
      rw [chainFrom, chainFrom]
      cases hf : w.frame? r with
      | none => rfl
      | some f =>
        cases h r f hf with
        | root _ previous => simp only [previous]
        | fork _ earlier previous =>
          simp only [previous]
          rw [ih k _ (by omega) (by omega)]
  exact hsettled n (r.index + 1) r hn (Nat.lt_succ_self _)

/-- The walk outward goes from a frame to the one before it. -/
theorem AllStem.chain_cons (h : w.AllStem) (hf : w.frame? r = some f) :
    w.chain r = (r, f) :: f.previous.elim [] w.chain := by
  rw [chain, chainFrom, hf]
  cases h r f hf with
  | root _ previous => simp only [previous, Option.elim_none]
  | fork _ earlier previous =>
    simp only [previous, Option.elim_some]
    rw [h.chainFrom_eq earlier]

/-- A reference that is set by one rule leads where walking outward leads: a frame of a wanted kind
ends the walk and is referred to if it is of a kept kind, and any other frame refers to what the
frame before it refers to. -/
theorem AllStem.reference_eq (h : w.AllStem) (reference : Frame → Option FrameRef)
    (isWanted isKept : FrameKind → Bool)
    (hrule : ∀ r f, w.frame? r = some f → reference f =
      if isWanted f.kind then (if isKept f.kind then some r else none)
      else (f.previous.bind w.frame?).bind reference)
    (hf : w.frame? r = some f) :
    reference f =
      (((w.chain r).find? (isWanted ·.2.kind)).filter (isKept ·.2.kind)).map (·.1) := by
  -- By induction on how many frames were made before.
  induction hindex : r.index using Nat.strongRecOn generalizing r f with
  | ind i ih =>
    rw [h.chain_cons hf, hrule r f hf]
    cases hkind : isWanted f.kind with
    | true =>
      simp only [List.find?_cons, hkind, if_true, Option.filter_some]
      cases isKept f.kind <;> rfl
    | false =>
      simp only [List.find?_cons, hkind, Bool.false_eq_true, if_false]
      cases h r f hf with
      | root _ previous =>
        rw [previous]
        rfl
      | @fork p g parent earlier previous =>
        simp only [previous, Option.bind_some, Option.elim_some, parent]
        exact ih p.index (by omega) parent rfl

/-- A reference that keeps whatever ends the walk leads to the nearest frame of the wanted kinds. -/
theorem AllStem.nearest_eq (h : w.AllStem) (reference : Frame → Option FrameRef)
    (isWanted : FrameKind → Bool)
    (hrule : ∀ r f, w.frame? r = some f → reference f =
      if isWanted f.kind then some r else (f.previous.bind w.frame?).bind reference)
    (hf : w.frame? r = some f) : reference f = w.nearest? r isWanted := by
  rw [h.reference_eq reference isWanted (fun _ => true) (by simpa using hrule) hf, nearest?]
  cases (w.chain r).find? (isWanted ·.2.kind) <;> rfl

theorem AllStem.api_eq (h : w.AllStem) (hf : w.frame? r = some f) :
    f.api = w.nearest? r (· == .api) := by
  refine h.nearest_eq (·.api) (· == .api) ?_ hf
  intro r f hf
  cases h r f hf with
  | root kind _ api => simp [kind, api]
  | fork parent _ previous api => simp [api, previous, parent]

theorem AllStem.globals_eq (h : w.AllStem) (hf : w.frame? r = some f) :
    f.globals = w.nearest? r (· == .global) := by
  refine h.nearest_eq (·.globals) (· == .global) ?_ hf
  intro r f hf
  cases h r f hf with
  | root kind previous _ globals => simp [kind, globals, previous]
  | fork parent _ previous _ globals => simp [globals, previous, parent]

theorem AllStem.locals_eq (h : w.AllStem) (hf : w.frame? r = some f) :
    f.locals = w.nearest? r FrameKind.holdsLocals := by
  refine h.nearest_eq (·.locals) FrameKind.holdsLocals ?_ hf
  intro r f hf
  cases h r f hf with
  | root kind previous _ _ locals => simp [kind, locals, previous, FrameKind.holdsLocals]
  | fork parent _ previous _ _ locals => simp [locals, previous, parent]

theorem AllStem.call_eq (h : w.AllStem) (hf : w.frame? r = some f) :
    f.call = w.nearest? r (· == .function) := by
  refine h.nearest_eq (·.call) (· == .function) ?_ hf
  intro r f hf
  cases h r f hf with
  | root kind previous _ _ _ _ call => simp [kind, call, previous]
  | fork parent _ previous _ _ _ _ call => simp [call, previous, parent]

theorem AllStem.loop_eq (h : w.AllStem) (hf : w.frame? r = some f) :
    f.loop = w.nearestLoop? r := by
  refine h.reference_eq (·.loop) (fun k => k == .loop || k == .function) (· == .loop) ?_ hf
  intro r f hf
  cases h r f hf with
  | root kind previous _ _ _ loop => simp [kind, loop, previous]
  | fork parent _ previous _ _ _ loop =>
    cases hkind : f.kind <;> simp [loop, previous, parent, hkind]

/-- The walk outward meets only frames that were made. -/
theorem AllStem.made_of_mem_chain (h : w.AllStem) {x : FrameRef × Frame} (hx : x ∈ w.chain r) :
    w.frame? x.1 = some x.2 := by
  induction hindex : r.index using Nat.strongRecOn generalizing r with
  | ind i ih =>
    cases hf : w.frame? r with
    | none => simp [chain, chainFrom, hf] at hx
    | some f =>
      rw [h.chain_cons hf] at hx
      rcases List.mem_cons.1 hx with rfl | hx
      · exact hf
      · cases h r f hf with
        | root _ previous => simp [previous] at hx
        | @fork p g _ earlier previous =>
          rw [previous] at hx
          exact ih p.index (by omega) hx rfl

end Walks

section Sharing

variable {w : World} {reference : Frame → Option FrameRef} {r s : FrameRef}

/-- A change through a reference is seen through the references to the same frame, and through no
others. -/
theorem referred?_modifyReferred {change : Frame → Frame}
    (hkeeps : ∀ f, reference (change f) = reference f) :
    (w.modifyReferred reference r change).referred? reference s =
      if (w.frame? r).bind reference = (w.frame? s).bind reference
      then (w.referred? reference s).map change else w.referred? reference s := by
  unfold modifyReferred
  cases hr : (w.frame? r).bind reference with
  | none =>
    cases hs : (w.frame? s).bind reference <;> simp [referred?, hs]
  | some l =>
    have hsame : ((w.modifyFrame l change).frame? s).bind reference =
        (w.frame? s).bind reference := by
      rw [frame?_modifyFrame]
      split
      · cases w.frame? s with
        | none => rfl
        | some g => exact hkeeps g
      · rfl
    simp only [referred?, hsame]
    cases hs : (w.frame? s).bind reference with
    | none => simp
    | some k => simp [frame?_modifyFrame]

/-- What is noted through a reference is what another frame finds, whatever it is, exactly if both
refer to the same frame. -/
theorem shares_iff {α : Type} {note : α → Frame → Frame} {view : Frame → α} {a b : α} (hne : a ≠ b)
    (hkeeps : ∀ x f, reference (note x f) = reference f) (hview : ∀ x f, view (note x f) = x) :
    w.Shares reference note view r s ↔
      (w.frame? r).bind reference = (w.frame? s).bind reference ∧
        (w.referred? reference s).isSome = true := by
  unfold Shares
  simp only [referred?_modifyReferred (hkeeps _)]
  constructor
  · intro hall
    by_cases hsame : (w.frame? r).bind reference = (w.frame? s).bind reference
    · have ha := hall a
      rw [if_pos hsame] at ha
      refine ⟨hsame, ?_⟩
      cases hseen : w.referred? reference s with
      | none => simp [hseen] at ha
      | some l => rfl
    · have ha := hall a
      have hb := hall b
      rw [if_neg hsame] at ha hb
      rw [ha] at hb
      exact absurd (Option.some.inj hb) hne
  · rintro ⟨hsame, hseen⟩ x
    obtain ⟨l, hl⟩ := Option.isSome_iff_exists.1 hseen
    rw [if_pos hsame, hl]
    simp [hview]

end Sharing

section Shared

variable {w : World} {r s : FrameRef} {f g : Frame}

/-- A reference to a frame that the walk outward meets leads to a frame. -/
theorem AllStem.referred_isSome (h : w.AllStem) {reference : Frame → Option FrameRef}
    {found : Option (FrameRef × Frame)} (hg : w.frame? s = some g)
    (hreference : reference g = found.map (·.1)) (hmem : ∀ x ∈ found, x ∈ w.chain s) :
    (w.referred? reference s).isSome = (reference g).isSome := by
  rw [referred?, hg, Option.bind_some, hreference]
  cases found with
  | none => rfl
  | some x => simp [h.made_of_mem_chain (hmem x rfl)]

theorem AllStem.sharesLoop_iff (h : w.AllStem) (hf : w.frame? r = some f)
    (hg : w.frame? s = some g) :
    w.SharesLoop r s ↔ ∃ l, w.nearestLoop? r = some l ∧ w.nearestLoop? s = some l := by
  have hseen := h.referred_isSome hg (h.loop_eq hg) fun x hx =>
    List.mem_of_find?_eq_some (Option.filter_eq_some_iff.1 hx).1
  have hne : (true, true) ≠ (false, false) := by decide
  unfold SharesLoop
  rw [shares_iff hne, hseen, hf, hg, Option.bind_some, Option.bind_some, h.loop_eq hf, h.loop_eq hg]
  · cases w.nearestLoop? s <;> simp
  · exact fun _ _ => rfl
  · exact fun _ _ => rfl

theorem AllStem.sharesCall_iff (h : w.AllStem) (hf : w.frame? r = some f)
    (hg : w.frame? s = some g) :
    w.SharesCall r s ↔
      ∃ c, w.nearest? r (· == .function) = some c ∧ w.nearest? s (· == .function) = some c := by
  have hseen := h.referred_isSome hg (h.call_eq hg) fun x hx => List.mem_of_find?_eq_some hx
  have hne : (true, Value.nil) ≠ (false, Value.nil) := by simp
  unfold SharesCall
  rw [shares_iff hne, hseen, hf, hg, Option.bind_some, Option.bind_some, h.call_eq hf, h.call_eq hg]
  · cases w.nearest? s (· == .function) <;> simp
  · exact fun _ _ => rfl
  · exact fun _ _ => rfl

end Shared

/-- The references of a frame follow its chain. The walk from a frame outward goes from each frame
to the one before. The table of global functions, the global frame and the frame of the call are the
nearest of their kinds on that walk, variables are held by the nearest frame that holds variables or
else by the frame itself, and the loop is the nearest one with no function nearer. Two frames share
what is noted of their loop, or of their call, exactly if they have the same nearest one. -/
theorem references_follow_chain {w : World} (h : Grown w) {r : FrameRef} {f : Frame}
    (hf : w.frame? r = some f) :
    w.chain r = (r, f) :: f.previous.elim [] w.chain ∧
      f.api = w.nearest? r (· == .api) ∧
      f.globals = w.nearest? r (· == .global) ∧
      f.locals.getD r = (w.nearest? r FrameKind.holdsLocals).getD r ∧
      f.call = w.nearest? r (· == .function) ∧
      f.loop = w.nearestLoop? r ∧
      ∀ s g, w.frame? s = some g →
        (w.SharesLoop r s ↔ ∃ l, w.nearestLoop? r = some l ∧ w.nearestLoop? s = some l) ∧
        (w.SharesCall r s ↔
          ∃ c, w.nearest? r (· == .function) = some c ∧
            w.nearest? s (· == .function) = some c) := by
  have hstem := h.allStem
  refine ⟨hstem.chain_cons hf, hstem.api_eq hf, hstem.globals_eq hf, ?_, hstem.call_eq hf,
    hstem.loop_eq hf, ?_⟩
  · rw [hstem.locals_eq hf]
  · intro s g hg
    exact ⟨hstem.sharesLoop_iff hf hg, hstem.sharesCall_iff hf hg⟩

/-- Frames of all kinds behind a loop in a function that was declared in a loop: a map, a second
loop, code that is called and a table of its own. -/
def manyKinds : World :=
  let map := (loopInClosure.fork ⟨4⟩ .map false none none).2
  let call := ((map.forkLoop ⟨5⟩).2.fork ⟨6⟩ .call true none (some true)).2
  (call.fork ⟨7⟩ .api true (some "table") none).2

theorem manyKinds_grown : Grown manyKinds := by
  have hroot : Grown (blank.rootFrame "main").2 := .root "main" (.start rfl)
  have hloop := (hroot.fork ⟨0⟩ .global false none none).fork ⟨1⟩ .loop true none none
  have hinner := (hloop.fork ⟨2⟩ .function false none none).fork ⟨3⟩ .loop true none none
  have hmap := (hinner.fork ⟨4⟩ .map false none none).fork ⟨5⟩ .loop true none none
  exact (hmap.fork ⟨6⟩ .call true none (some true)).fork ⟨7⟩ .api true (some "table") none

theorem references_follow_chain_manyKinds :
    manyKinds.nearestLoop? ⟨8⟩ = some ⟨6⟩ ∧ manyKinds.nearestLoop? ⟨3⟩ = none ∧
      manyKinds.nearest? ⟨8⟩ (· == .api) = some ⟨8⟩ ∧
      manyKinds.SharesLoop ⟨8⟩ ⟨7⟩ ∧ ¬ manyKinds.SharesLoop ⟨8⟩ ⟨4⟩ ∧
      manyKinds.SharesCall ⟨8⟩ ⟨3⟩ ∧ ¬ manyKinds.SharesCall ⟨8⟩ ⟨2⟩ := by
  have hmade : manyKinds.frame? ⟨8⟩ = some _ := rfl
  obtain ⟨_, _, _, _, _, _, hshared⟩ := references_follow_chain manyKinds_grown hmade
  refine ⟨by decide, by decide, by decide, ?_, ?_, ?_, ?_⟩
  · exact (hshared ⟨7⟩ _ rfl).1.2 ⟨⟨6⟩, by decide, by decide⟩
  · rw [(hshared ⟨4⟩ _ rfl).1]
    rintro ⟨l, hl, hl'⟩
    exact absurd (hl.trans hl'.symm) (by decide)
  · exact (hshared ⟨3⟩ _ rfl).2.2 ⟨⟨3⟩, by decide, by decide⟩
  · rw [(hshared ⟨2⟩ _ rfl).2]
    rintro ⟨c, hc, hc'⟩
    exact absurd (hc.trans hc'.symm) (by decide)

end World

end LineScript
