import LineScript.Proofs.World.Tables
import LineScript.Run.Steps

/-!
# Changes that leave the table alone

The world of a session is sealed if nothing in it refers to a table. Main statement: whatever a
script makes or changes leads from a sealed world to a sealed world, and leaves the standing of the
session as it is: whether a run is under way or was asked to end, and what is in the table of global
functions.
-/

namespace LineScript

namespace World

/-- The world of a session in which nothing that is kept refers to a table, while a run is under way
or not. -/
structure Sealed (pending : Bool) (w : World) : Prop extends Closed w where
  isPending : w.process.isPending = pending
  api : ∃ f, w.frame? w.configuration.api = some f ∧ f.kind = .api
  global : ∃ f, w.frame? w.configuration.global = some f ∧ f.kind = .global

/-- The global frame is one in which code runs. -/
theorem Sealed.global_site {pending : Bool} {w : World} (hw : w.Sealed pending) :
    w.IsSite w.configuration.global := by
  obtain ⟨f, hf, hkind⟩ := hw.global
  exact hw.linked.site_of_global hf hkind

/-- What is in the table of global functions that programs run with. -/
def table (w : World) : OrderedMap Value :=
  ((w.frame? w.configuration.api).map fun f => (w.contents f.scope).entries).getD .empty

/-- What the requests to a session have in common: the state of its run, and its table. -/
structure Standing where
  isPending : Bool
  isExit : Bool
  table : OrderedMap Value

/-- The standing of a session. -/
def standing (w : World) : Standing := ⟨w.process.isPending, w.process.isExit, w.table⟩

/-- A change stores nothing that scripts may not hold. -/
structure Brings (w w' : World) : Prop where
  elements : ∀ r, ∀ v ∈ w'.elements r, w.Stores v ∨ w.Admits v
  entries : ∀ r, ∀ v ∈ (w'.contents r).entries.values, w.Stores v ∨ w.Admits v
  defaults : ∀ i name parameters action, w'.functions.get? i = some (.host name parameters action) →
      ∀ v ∈ parameters.map (·.2), w.Stores v ∨ w.Admits v
  members : ∀ i o, w'.interfaces.get? i = some o →
      ∀ v ∈ o.functions.values, w.Stores v ∨ w.Admits v
  results : ∀ r f, w'.frame? r = some f → w.Stores f.result ∨ w.Admits f.result
  table : ∀ v ∈ w'.configuration.table.map (·.2), w.Stores v ∨ w.Admits v

theorem Brings.refl (w : World) : Brings w w where
  elements _ _ h := .inl (.element h)
  entries _ _ h := .inl (.entry h)
  defaults _ _ _ _ h _ hv := .inl (.default h hv)
  members _ _ h _ hv := .inl (.member h hv)
  results _ _ h := .inl (.result h)
  table _ h := .inl (.table h)

theorem Brings.stores {w w' : World} (h : Brings w w') {v : Value} (hv : w'.Stores v) :
    w.Stores v ∨ w.Admits v := by
  cases hv with
  | element hv => exact h.elements _ v hv
  | entry hv => exact h.entries _ v hv
  | default hi hv => exact h.defaults _ _ _ _ hi v hv
  | member hi hv => exact h.members _ _ hi v hv
  | result hf => exact h.results _ _ hf
  | table hv => exact h.table v hv

theorem elements_newList (w : World) (items : List Value) (r : ListRef) :
    (w.newList items).2.elements r =
      if r.index = w.lists.size then items else w.elements r := by
  simp only [elements, newList, Heap.get?_push]
  split <;> rfl

theorem contents_newMap (w : World) (m : MapObject) (r : MapRef) :
    (w.newMap m).2.contents r = if r.index = w.maps.size then m else w.contents r := by
  simp only [contents, newMap, Heap.get?_push]
  split <;> rfl

theorem keepsLinks_of_frames {w w' : World} (hframes : w'.frames = w.frames)
    (hmaps : w.maps.size ≤ w'.maps.size) : w.KeepsLinks w' where
  frames r := by
    have hsame : w'.frame? r = w.frame? r := by simp only [frame?, hframes]
    rw [hsame]
    cases w.frame? r with
    | none => exact .none
    | some f => exact .some (.refl f)
  size := by rw [hframes]
  maps := hmaps

theorem keepsLinks_modifyFrame {w : World} (r : FrameRef) {g : Frame → Frame}
    (hlinks : ∀ f : Frame, f.SameLinks (g f)) : w.KeepsLinks (w.modifyFrame r g) where
  frames s := by
    rw [frame?_modifyFrame]
    split
    · cases w.frame? s with
      | none => exact .none
      | some f => exact .some (hlinks f)
    · cases w.frame? s with
      | none => exact .none
      | some f => exact .some (.refl f)
  size := Heap.size_modify _ _ _
  maps := Nat.le_refl _

/-- A later world is closed if nothing came into it that scripts may not hold. -/
theorem Closed.later {w w' : World} (hw : w.Closed) (hlater : w.Later w') (hlinked : WellLinked w')
    (hbrings : Brings w w')
    (hclosures : ∀ i d r, w'.functions.get? i = some (.closure d r) →
      w.functions.get? i = some (.closure d r) ∨ w.IsSite r)
    (hactive : ∀ r, w'.process.lastActive = some r →
      w.process.lastActive = some r ∨ w.IsSite r) : w'.Closed where
  linked := hlinked
  stored v hv := by
    rcases hbrings.stores hv with hv | hv
    · exact (hw.stored v hv).mono hlater
    · exact hv.mono hlater
  closures i d r hi := by
    rcases hclosures i d r hi with hi | hr
    · exact (hw.closures i d r hi).mono hlater
    · exact hr.mono hlater
  active r hr := by
    rcases hactive r hr with hr | hr
    · exact (hw.active r hr).mono hlater
    · exact hr.mono hlater

/-- A change leaves frames, the run and the two frames of programs alone. -/
structure SameFrames (w w' : World) : Prop where
  frames : w'.frames = w.frames
  process : w'.process = w.process
  api : w'.configuration.api = w.configuration.api
  global : w'.configuration.global = w.configuration.global

/-- A change from a sealed world that a script can make: the world stays sealed, and the standing of
the session is the same. -/
structure Inert (pending : Bool) (w w' : World) : Prop where
  isSealed : w'.Sealed pending
  later : w.Later w'
  standing : w'.standing = w.standing

namespace Inert

variable {pending : Bool} {w w' w'' : World}

theorem refl (hw : w.Sealed pending) : Inert pending w w := ⟨hw, .refl w, rfl⟩

theorem trans (h : Inert pending w w') (h' : Inert pending w' w'') : Inert pending w w'' :=
  ⟨h'.isSealed, h.later.trans h'.later, h'.standing.trans h.standing⟩

/-- A change that keeps frames and the links between them is inert if it stores nothing that scripts
may not hold and leaves tables alone. -/
theorem of_later (hw : w.Sealed pending) (hlater : w.Later w') (hlinked : WellLinked w')
    (hbrings : Brings w w') (hcontents : ∀ r, w.IsTable r → w'.contents r = w.contents r)
    (hclosures : ∀ i d r, w'.functions.get? i = some (.closure d r) →
      w.functions.get? i = some (.closure d r) ∨ w.IsSite r)
    (hactive : ∀ r, w'.process.lastActive = some r →
      w.process.lastActive = some r ∨ w.IsSite r)
    (hpending : w'.process.isPending = w.process.isPending)
    (hexit : w'.process.isExit = w.process.isExit)
    (hapi : w'.configuration.api = w.configuration.api)
    (hglobal : w'.configuration.global = w.configuration.global) : Inert pending w w' := by
  obtain ⟨a, ha, hakind⟩ := hw.api
  obtain ⟨a', ha', hasame⟩ := hlater.frames _ a ha
  obtain ⟨g, hg, hgkind⟩ := hw.global
  obtain ⟨g', hg', hgsame⟩ := hlater.frames _ g hg
  refine ⟨⟨hw.toClosed.later hlater hlinked hbrings hclosures hactive,
    hpending.trans hw.isPending, ?_, ?_⟩, hlater, ?_⟩
  · exact ⟨a', hapi ▸ ha', hasame.kind ▸ hakind⟩
  · exact ⟨g', hglobal ▸ hg', hgsame.kind ▸ hgkind⟩
  · have htable : w'.table = w.table := by
      simp only [World.table, hapi, ha', ha, Option.map_some, Option.getD_some, ← hasame.scope]
      rw [hcontents a.scope ⟨_, a, ha, hakind, rfl⟩]
    simp only [World.standing, hpending, hexit, htable]

/-- A change that leaves frames, the run and the two frames of programs alone. -/
theorem of_frames (hw : w.Sealed pending) (hsame : SameFrames w w')
    (hmaps : w.maps.size ≤ w'.maps.size) (hbrings : Brings w w')
    (hcontents : ∀ r, w.IsTable r → w'.contents r = w.contents r)
    (hclosures : ∀ i d r, w'.functions.get? i = some (.closure d r) →
      w.functions.get? i = some (.closure d r) ∨ w.IsSite r) :
    Inert pending w w' := by
  have hlinks := keepsLinks_of_frames hsame.frames hmaps
  refine of_later hw (.of_keepsLinks hlinks) (hw.linked.change hlinks) hbrings hcontents hclosures
    ?_ ?_ ?_ hsame.api hsame.global
  · intro r hr
    exact .inl (hsame.process ▸ hr)
  · rw [hsame.process]
  · rw [hsame.process]

/-- Everything that is neither an object nor a frame may be changed, the table of the host apart. -/
theorem aside (hw : w.Sealed pending) {debugger : Debugger} {handlers : Handlers}
    {printed : List String} {collected recovered : List ScriptError}
    {generators : Generators} {arguments : List String} {prepared : Option Operation} :
    Inert pending w { w with
      debugger := debugger, handlers := handlers, printed := printed, collected := collected,
      recovered := recovered, generators := generators,
      configuration := { w.configuration with arguments := arguments, prepared := prepared } } :=
  of_frames hw ⟨rfl, rfl, rfl, rfl⟩ (Nat.le_refl _) { Brings.refl w with }
    (fun _ _ => rfl) fun _ _ _ h => .inl h

theorem newList (hw : w.Sealed pending) {items : List Value} (h : w.AdmitsAll items) :
    Inert pending w (w.newList items).2 := by
  refine of_frames hw ⟨rfl, rfl, rfl, rfl⟩ (Nat.le_refl _)
    { Brings.refl w with elements := fun r v hv => ?_ } (fun _ _ => rfl) fun _ _ _ h => .inl h
  rw [elements_newList] at hv
  split at hv
  · exact .inr (h v hv)
  · exact .inl (.element hv)

theorem setElements (hw : w.Sealed pending) (r : ListRef) {items : List Value}
    (h : w.AdmitsAll items) : Inert pending w (w.setElements r items) := by
  refine of_frames hw ⟨rfl, rfl, rfl, rfl⟩ (Nat.le_refl _)
    { Brings.refl w with elements := fun r v hv => ?_ } (fun _ _ => rfl) fun _ _ _ h => .inl h
  rw [elements_setElements] at hv
  split at hv
  · exact .inr (h v hv)
  · exact .inl (.element hv)

theorem newMap (hw : w.Sealed pending) {m : MapObject} (h : w.AdmitsAll m.entries.values) :
    Inert pending w (w.newMap m).2 := by
  refine of_frames hw ⟨rfl, rfl, rfl, rfl⟩ (by simp [World.newMap])
    { Brings.refl w with entries := fun r v hv => ?_ } (fun r hr => ?_) fun _ _ _ h => .inl h
  · rw [contents_newMap] at hv
    split at hv
    · exact .inr (h v hv)
    · exact .inl (.entry hv)
  · obtain ⟨s, f, hf, _, rfl⟩ := hr
    have hlt := hw.linked.scope s f hf
    rw [contents_newMap, if_neg (by omega)]

/-- The entries of a map that is no table may be changed. -/
theorem modifyMap (hw : w.Sealed pending) {r : MapRef} {g : MapObject → MapObject}
    (hr : w.Admits (.map r))
    (hg : ∀ v ∈ (g (w.contents r)).entries.values,
      v ∈ (w.contents r).entries.values ∨ w.Admits v) :
    Inert pending w (w.modifyMap r g) := by
  refine of_frames hw ⟨rfl, rfl, rfl, rfl⟩ (by simp [World.modifyMap])
    { Brings.refl w with entries := fun s v hv => ?_ } (fun s hs => ?_) fun _ _ _ h => .inl h
  · rw [contents_modifyMap] at hv
    split at hv
    next hrs =>
      obtain ⟨rfl, _⟩ := hrs
      rcases hg v hv with hv | hv
      · exact .inl (.entry hv)
      · exact .inr hv
    · exact .inl (.entry hv)
  · have hne : r ≠ s := fun hrs => hr.2 (hrs ▸ hs)
    rw [contents_modifyMap, if_neg (fun h => hne h.1)]

theorem insert (hw : w.Sealed pending) {r : MapRef} (key : String) {v : Value}
    (hr : w.Admits (.map r)) (hv : w.Admits v) :
    Inert pending w (w.modifyMap r fun m => m.insert key v) := by
  apply modifyMap hw hr
  intro x hx
  rcases OrderedMap.mem_values_insert hx with rfl | hx
  · exact .inr hv
  · exact .inl hx

theorem write (hw : w.Sealed pending) {s : Slot} {v : Value} (hs : w.AdmitsSlot s)
    (hv : w.Admits v) : Inert pending w (w.write s v) := by
  cases s with
  | element r k =>
    apply setElements hw r
    intro x hx
    rcases List.mem_or_eq_of_mem_set hx with hx | rfl
    · exact hw.elements r x hx
    · exact hv
  | entry r key => exact insert hw key hs hv

theorem newClosure (hw : w.Sealed pending) (d : FunctionDeclaration) {r : FrameRef}
    (hr : w.IsSite r) : Inert pending w (w.newFunction (.closure d r)).2 := by
  have hget : ∀ i, (w.newFunction (.closure d r)).2.functions.get? i =
      if i = w.functions.size then some (.closure d r) else w.functions.get? i :=
    Heap.get?_push _ _
  refine of_frames hw ⟨rfl, rfl, rfl, rfl⟩ (Nat.le_refl _)
    { Brings.refl w with defaults := fun i name parameters action hi v hv => ?_ } (fun _ _ => rfl)
    (fun i e s hi => ?_)
  · rw [hget] at hi
    split at hi
    · cases hi
    · exact .inl (.default hi hv)
  · rw [hget] at hi
    split at hi
    · cases hi
      exact .inr hr
    · exact .inl hi

theorem newHost (hw : w.Sealed pending) (name : String) {parameters : List (String × Value)}
    (action : HostAction) (h : w.AdmitsAll (parameters.map (·.2))) :
    Inert pending w (w.newFunction (.host name parameters action)).2 := by
  have hget : ∀ i, (w.newFunction (.host name parameters action)).2.functions.get? i =
      if i = w.functions.size then some (.host name parameters action)
      else w.functions.get? i := Heap.get?_push _ _
  refine of_frames hw ⟨rfl, rfl, rfl, rfl⟩ (Nat.le_refl _)
    { Brings.refl w with defaults := fun i name parameters action hi v hv => ?_ } (fun _ _ => rfl)
    (fun i e s hi => ?_)
  · rw [hget] at hi
    split at hi
    · cases hi
      exact .inr (h v hv)
    · exact .inl (.default hi hv)
  · rw [hget] at hi
    split at hi
    · cases hi
    · exact .inl hi

theorem newInterface (hw : w.Sealed pending) {o : InterfaceObject}
    (h : w.AdmitsAll o.functions.values) : Inert pending w (w.newInterface o).2 := by
  refine of_frames hw ⟨rfl, rfl, rfl, rfl⟩ (Nat.le_refl _)
    { Brings.refl w with members := fun i p hi v hv => ?_ } (fun _ _ => rfl) fun _ _ _ h => .inl h
  have hi : (w.interfaces.push o).get? i = some p := hi
  rw [Heap.get?_push] at hi
  split at hi
  · cases hi
    exact .inr (h v hv)
  · exact .inl (.member hi hv)

/-- A note in a frame. -/
theorem modifyFrame (hw : w.Sealed pending) (r : FrameRef) {g : Frame → Frame}
    (hlinks : ∀ f : Frame, f.SameLinks (g f))
    (hresult : ∀ f, w.frame? r = some f → (g f).result = f.result ∨ w.Admits (g f).result) :
    Inert pending w (w.modifyFrame r g) := by
  have hkeeps : w.KeepsLinks (w.modifyFrame r g) := keepsLinks_modifyFrame r hlinks
  refine of_later hw (.of_keepsLinks hkeeps) (hw.linked.change hkeeps)
    { Brings.refl w with results := fun s f hf => ?_ } (fun _ _ => rfl) (fun _ _ _ hi => .inl hi)
    (fun _ hr => .inl hr) rfl rfl rfl rfl
  rw [frame?_modifyFrame] at hf
  split at hf
  next hrs =>
    obtain ⟨f₀, hf₀, rfl⟩ := Option.map_eq_some_iff.1 hf
    rcases hresult f₀ (hrs ▸ hf₀) with hsame | hv
    · exact .inl (hsame ▸ .result hf₀)
    · exact .inr hv
  · exact .inl (.result hf)

end Inert

/-- A world with one more frame, whose variables are new. -/
def withFrame (w : World) (f : Frame) : World :=
  { w with frames := w.frames.push f, maps := w.maps.push ⟨.empty, false⟩ }

section NewFrame

variable {w : World} {f : Frame}

theorem frame?_withFrame (w : World) (f : Frame) (r : FrameRef) :
    (w.withFrame f).frame? r = if r.index = w.frames.size then some f else w.frame? r :=
  Heap.get?_push _ _ _

theorem contents_withFrame (w : World) (f : Frame) (r : MapRef) :
    (w.withFrame f).contents r = if r.index = w.maps.size then ⟨.empty, false⟩ else w.contents r :=
  contents_newMap w _ r

theorem later_withFrame (hscope : f.scope = ⟨w.maps.size⟩) : w.Later (w.withFrame f) where
  frames r g hg := by
    have hlt := Heap.lt_size_of_get? hg
    exact ⟨g, by rw [frame?_withFrame, if_neg (by omega), hg], .refl g⟩
  fresh r g hg := by
    rw [frame?_withFrame] at hg
    split at hg
    · cases hg
      exact .inr (by simp [hscope])
    · exact .inl ⟨g, hg⟩
  maps := by simp [withFrame]

theorem brings_withFrame (hresult : f.result = .nil) : Brings w (w.withFrame f) := by
  refine { Brings.refl w with entries := fun r v hv => ?_, results := fun r g hg => ?_ }
  · rw [contents_withFrame] at hv
    split at hv
    · cases hv
    · exact .inl (.entry hv)
  · rw [frame?_withFrame] at hg
    split at hg
    · cases hg
      rw [hresult]
      exact .inr trivial
    · exact .inl (.result hg)

theorem Closed.withFrame (hw : w.Closed) (hlinked : WellLinked (w.withFrame f))
    (hscope : f.scope = ⟨w.maps.size⟩) (hresult : f.result = .nil) : (w.withFrame f).Closed :=
  hw.later (later_withFrame hscope) hlinked (brings_withFrame hresult) (fun _ _ _ h => .inl h)
    fun _ h => .inl h

theorem frame?_withFrame_new (w : World) (f : Frame) :
    (w.withFrame f).frame? ⟨w.frames.size⟩ = some f := by
  rw [frame?_withFrame, if_pos rfl]

theorem contents_withFrame_of_isTable {r : MapRef} (hw : WellLinked w) (hr : w.IsTable r) :
    (w.withFrame f).contents r = w.contents r := by
  obtain ⟨s, g, hg, _, rfl⟩ := hr
  have hlt := hw.scope s g hg
  rw [contents_withFrame, if_neg (by omega)]

theorem rootFrame_eq (w : World) (target : String) :
    ∃ f : Frame, w.rootFrame target = (⟨w.frames.size⟩, w.withFrame f) ∧
      f.kind = .api ∧ f.scope = ⟨w.maps.size⟩ ∧ f.result = .nil :=
  ⟨_, rfl, rfl, rfl, rfl⟩

theorem fork_eq {parent : FrameRef} {p : Frame} (hp : w.frame? parent = some p) (kind : FrameKind)
    (isTemporary : Bool) (target : Option String) (isInjected : Option Bool) :
    ∃ f : Frame, w.fork parent kind isTemporary target isInjected =
        (⟨w.frames.size⟩, w.withFrame f) ∧
      f.kind = kind ∧ f.scope = ⟨w.maps.size⟩ ∧ f.result = .nil ∧
      f.locals = if kind.holdsLocals then some ⟨w.frames.size⟩ else p.locals := by
  unfold fork
  rw [hp]
  exact ⟨_, rfl, rfl, rfl, rfl, rfl⟩

/-- Code runs in a new frame behind a frame in which code runs. -/
theorem Inert.fork {pending : Bool} (hw : w.Sealed pending) {parent : FrameRef} {kind : FrameKind}
    (target : Option String) (isInjected : Option Bool) (hparent : w.IsSite parent)
    (hkind : kind.isForked = true) :
    Inert pending w (w.fork parent kind (!kind.holdsLocals) target isInjected).2 ∧
      (w.fork parent kind (!kind.holdsLocals) target isInjected).2.IsSite
        (w.fork parent kind (!kind.holdsLocals) target isInjected).1 := by
  obtain ⟨p, hp, hlocals⟩ := hparent
  have hmade : (w.frame? parent).isSome = true := by rw [hp, Option.isSome_some]
  have hlinked := hw.linked.fork target isInjected hmade hkind
  obtain ⟨f, heq, _, hscope, hresult, hf⟩ := fork_eq hp kind (!kind.holdsLocals) target isInjected
  rw [heq] at hlinked ⊢
  constructor
  · exact of_later hw (later_withFrame hscope) hlinked (brings_withFrame hresult)
      (fun r hr => contents_withFrame_of_isTable hw.linked hr) (fun _ _ _ h => .inl h)
      (fun _ h => .inl h) rfl rfl rfl rfl
  · refine ⟨f, frame?_withFrame_new w f, ?_⟩
    rw [hf]
    split
    · rfl
    · exact hlocals

end NewFrame

/-- A closed world is sealed once it is known in which frames programs run. -/
theorem Closed.configure {pending : Bool} {w : World} (hw : w.Closed)
    (hpending : w.process.isPending = pending) {c : Configuration}
    (htable : c.table = w.configuration.table)
    (hapi : ∃ f, w.frame? c.api = some f ∧ f.kind = .api)
    (hglobal : ∃ f, w.frame? c.global = some f ∧ f.kind = .global) :
    Sealed pending { w with configuration := c } where
  toClosed := by
    have hlinks : w.KeepsLinks { w with configuration := c } :=
      keepsLinks_of_frames rfl (Nat.le_refl _)
    refine hw.later (.of_keepsLinks hlinks) (hw.linked.change hlinks)
      { Brings.refl w with table := fun v hv => ?_ } (fun _ _ _ h => .inl h) fun _ h => .inl h
    exact .inl (.table (htable ▸ hv))
  isPending := hpending
  api := hapi
  global := hglobal

end World

namespace Run

open World

/-- New frames for programs are closed off from all that there was before, and their table is
empty. -/
theorem freshFrames_sealed {pending : Bool} {w : World} (hw : w.Closed)
    (hpending : w.process.isPending = pending) (target : String) :
    (freshFrames target w).Sealed pending ∧ w.Later (freshFrames target w) ∧
      (freshFrames target w).table = .empty ∧ (freshFrames target w).process = w.process := by
  have hroot := hw.linked.root target
  obtain ⟨a, ha, hkind, hscope, hresult⟩ := rootFrame_eq w target
  unfold freshFrames
  rw [ha] at hroot ⊢
  have hclosed := hw.withFrame hroot hscope hresult
  have hnew := frame?_withFrame_new w a
  have hmade : ((w.withFrame a).frame? ⟨w.frames.size⟩).isSome = true := by
    rw [hnew, Option.isSome_some]
  have hlinked := @WellLinked.fork _ hroot ⟨w.frames.size⟩ .global none none hmade rfl
  obtain ⟨g, hg, hgkind, hgscope, hgresult, _⟩ := fork_eq hnew .global false none none
  rw [show (!FrameKind.global.holdsLocals) = false from rfl, hg] at hlinked
  dsimp only
  rw [hg]
  have hboth := hclosed.withFrame hlinked hgscope hgresult
  have hlater := (later_withFrame hscope).trans (later_withFrame hgscope)
  have hapi : ((w.withFrame a).withFrame g).frame? ⟨w.frames.size⟩ = some a := by
    rw [frame?_withFrame, if_neg (by simp [withFrame]), hnew]
  have hcontents : ((w.withFrame a).withFrame g).contents a.scope = ⟨.empty, false⟩ := by
    rw [contents_withFrame, if_neg (by simp [withFrame, hscope]), contents_withFrame,
      if_pos (by rw [hscope])]
  have hglobal := frame?_withFrame_new (w.withFrame a) g
  refine ⟨hboth.configure hpending rfl ⟨a, hapi, hkind⟩ ⟨g, hglobal, hgkind⟩,
    hlater.trans (.of_keepsLinks (keepsLinks_of_frames rfl (Nat.le_refl _))), ?_, rfl⟩
  change ((((w.withFrame a).withFrame g).frame? ⟨w.frames.size⟩).map fun f =>
    (((w.withFrame a).withFrame g).contents f.scope).entries).getD .empty = .empty
  rw [hapi, Option.map_some, Option.getD_some, hcontents]

end Run

end LineScript
