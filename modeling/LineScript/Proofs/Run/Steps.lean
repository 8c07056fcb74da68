import LineScript.Proofs.Run.Account

/-!
# Single steps, accounted for

What each step that calls no others does to a sealed world. Most leave tables alone and change
nothing that is noted. A run begins by extending the table, and only new frames come with an empty
one.
-/

namespace LineScript

namespace World

variable {pending : Bool} {w : World}

/-- A statement may be noted in a frame in which code runs. -/
theorem Inert.activate (hw : w.Sealed pending) {r : FrameRef} (hr : w.IsSite r) :
    Inert pending w { w with process := { w.process with lastActive := some r } } := by
  have hlinks : w.KeepsLinks { w with process := { w.process with lastActive := some r } } :=
    keepsLinks_of_frames rfl (Nat.le_refl _)
  refine of_later hw (.of_keepsLinks hlinks) (hw.linked.change hlinks)
    { Brings.refl w with } (fun _ _ => rfl)
    (fun _ _ _ h => .inl h) (fun s hs => ?_) rfl rfl rfl rfl
  cases hs
  exact .inr hr

theorem Inert.table {w' : World} (h : Inert pending w w') : w'.table = w.table :=
  congrArg Standing.table h.standing

/-- The table of the host may be replaced by values that scripts may hold. -/
theorem Inert.setTable (hw : w.Sealed pending) {table : List (String × Value)}
    (h : w.AdmitsAll (table.map (·.2))) :
    Inert pending w { w with configuration := { w.configuration with table := table } } :=
  of_frames hw ⟨rfl, rfl, rfl, rfl⟩ (Nat.le_refl _)
    { Brings.refl w with table := fun v hv => .inr (h v hv) } (fun _ _ => rfl) fun _ _ _ h => .inl h

/-- A run that begins, ends or is asked to end leaves all else as it was. -/
theorem Sealed.setProcess (hw : w.Sealed pending) {p : Process}
    (hp : p.lastActive = none ∨ p.lastActive = w.process.lastActive) :
    Sealed p.isPending { w with process := p } ∧ w.Later { w with process := p } := by
  have hlinks : w.KeepsLinks { w with process := p } := keepsLinks_of_frames rfl (Nat.le_refl _)
  refine ⟨⟨?_, rfl, hw.api, hw.global⟩, .of_keepsLinks hlinks⟩
  refine hw.toClosed.later (.of_keepsLinks hlinks) (hw.linked.change hlinks)
    { Brings.refl w with }
    (fun _ _ _ h => .inl h) fun r hr => .inl ?_
  rcases hp with hp | hp
  · cases hp.symm.trans hr
  · exact hp.symm.trans hr

/-- Scripts may hold what is global in a run that begins. -/
theorem Sealed.admits_global (hw : w.Sealed pending) :
    w.AdmitsAll ((globalTable ++ w.configuration.table).map (·.2)) := by
  have hbuiltin : w.AdmitsAll (globalTable.map (·.2)) := by
    unfold globalTable
    rw [List.map_append, List.map_map]
    exact (AdmitsAll.map (fun _ => rfl) _).append (.cons trivial .nil)
  rw [List.map_append]
  exact hbuiltin.append fun v hv => hw.stored v (.table hv)

end World

namespace Run

open World (Inert Proper)

variable {α β : Type} {pending : Bool} {w : World} {held : α → World → Prop}

namespace Harmless

theorem keep (hw : w.Sealed pending) {a : α} (ha : held a w) :
    Harmless pending held (pure a) w := ⟨.refl hw, ha⟩

theorem fail (hw : w.Sealed pending) (kind : FaultKind) :
    Harmless pending held (Run.fail kind) w := Inert.refl hw

theorem change {f : World → World} (h : Inert pending w (f w)) :
    Harmless pending (fun _ _ => True) (modify f : Run Unit) w := ⟨h, trivial⟩

theorem get {k : World → Run α} (h : Harmless pending held (k w) w) :
    Harmless pending held (MonadState.get >>= k) w := h

theorem read (hw : w.Sealed pending) {f : World → Except Fault α}
    (h : ∀ a, f w = .ok a → held a w) : Harmless pending held (Run.read f) w := by
  unfold Harmless Run.read
  cases hf : f w with
  | ok a => exact ⟨.refl hw, h a hf⟩
  | error e => exact .refl hw

theorem produce {f : World → Value × World} (h : Proper pending w (f w)) :
    Harmless pending (fun v w' => w'.Admits v) (Run.produce f) w := ⟨h.inert, h.admits⟩

theorem bind {x : Run α} {k : α → Run β} {held' : β → World → Prop}
    (hx : Harmless pending held x w)
    (hk : ∀ a w', w'.Sealed pending → w.Later w' → held a w' →
      Harmless pending held' (k a) w') : Harmless pending held' (x >>= k) w := by
  unfold Harmless at hx ⊢
  rw [bind_apply]
  cases hrun : x w with
  | error e w' =>
    rw [hrun] at hx
    exact hx
  | ok a w' =>
    rw [hrun] at hx
    have hrest := hk a w' hx.1.isSealed hx.1.later hx.2
    unfold Harmless at hrest
    dsimp only
    cases hlast : k a w' with
    | ok b w'' =>
      rw [hlast] at hrest
      exact ⟨hx.1.trans hrest.1, hrest.2⟩
    | error e w'' =>
      rw [hlast] at hrest
      exact hx.1.trans hrest

theorem attempt {x : Run α} (hx : Harmless pending held x w) :
    Harmless pending (fun _ _ => True) (Run.attempt x) w := by
  unfold Harmless Run.attempt at *
  cases hrun : x w with
  | ok a w' =>
    rw [hrun] at hx
    exact ⟨hx.1, trivial⟩
  | error e w' =>
    rw [hrun] at hx
    cases e with
    | fault f => exact ⟨hx, trivial⟩
    | exhausted => exact hx

section Variables

variable {path : Path} {origin : Option Value} {site : Site} {v : Value}

theorem readChain (hw : w.Sealed pending) (hsite : w.IsSite site.frame)
    (horigin : w.AdmitsAll origin.toList) :
    Harmless pending (fun v w' => w'.Admits v) (Run.readChain path origin site) w := by
  cases origin with
  | some v => exact read hw fun c hc => hw.get (.inl (horigin v List.mem_cons_self)) hc
  | none => exact read hw fun c hc => hw.getVariable hsite hc

theorem writeAt (hw : w.Sealed pending) {find : World → Except Fault World.Slot}
    (hfind : ∀ s, find w = .ok s → w.AdmitsSlot s) (hv : w.Admits v) :
    Harmless pending (fun _ _ => True) (Run.writeAt find v) w := by
  have hslot : Harmless pending (fun s w' => w'.AdmitsSlot s) (Run.read find) w := read hw hfind
  refine hslot.bind fun s w' hw' hlater hs => ?_
  exact change (.write hw' hs (hv.mono hlater))

theorem writeChain (hw : w.Sealed pending) (hsite : w.IsSite site.frame)
    (horigin : w.AdmitsAll origin.toList) (hv : w.Admits v) :
    Harmless pending (fun _ _ => True) (Run.writeChain path origin v site) w := by
  cases origin with
  | some u => exact writeAt hw (fun s hs => hw.slot (horigin u List.mem_cons_self) hs) hv
  | none => exact writeAt hw (fun s hs => hw.variableSlot hsite hs) hv

theorem bindName (hw : w.Sealed pending) {r : FrameRef} (hr : w.IsSite r) (name : String)
    (hv : w.Admits v) : Harmless pending (fun _ _ => True) (Run.bindName r name v) w := by
  obtain ⟨f, hf, hlocals⟩ := hr
  apply change
  rw [hf]
  exact .insert hw name (hw.linked.admits_scope hf hlocals) hv

theorem finishCall (hw : w.Sealed pending) (r : FrameRef) (hv : w.Admits v) :
    Harmless pending (fun _ _ => True) (Run.finishCall r v) w := by
  apply change
  split
  next c _ =>
    refine .modifyFrame hw c (fun f => ?_) fun f _ => .inr hv
    exact ⟨rfl, rfl, rfl, rfl, rfl, rfl, rfl⟩
  · exact .refl hw

theorem callResult (hw : w.Sealed pending) (r : FrameRef) :
    Harmless pending (fun v w' => w'.Admits v) (Run.callResult r) w := by
  refine get (keep hw ?_)
  cases hf : w.frame? r with
  | none => trivial
  | some f => exact hw.stored f.result (.result hf)

end Variables

/-- A note about control flow. -/
theorem noteFrame (hw : w.Sealed pending) (r : FrameRef) {g : Frame → Frame}
    (hlinks : ∀ f : Frame, f.SameLinks (g f)) (hresult : ∀ f, (g f).result = f.result) :
    Harmless pending (fun _ _ => True) (modify fun w => w.modifyFrame r g : Run Unit) w :=
  change (.modifyFrame hw r hlinks fun f _ => .inl (hresult f))

theorem noteStatement (hw : w.Sealed pending) (position : Position) {r : FrameRef}
    (hr : w.IsSite r) :
    Harmless pending (fun _ _ => True) (Run.noteStatement position r) w := by
  have hplaced : Inert pending w (w.modifyFrame r fun f => { f with position := position }) :=
    .modifyFrame hw r (fun f => ⟨rfl, rfl, rfl, rfl, rfl, rfl, rfl⟩) fun f _ => .inl rfl
  exact change (hplaced.trans (.activate hplaced.isSealed (hr.mono hplaced.later)))

theorem fork (hw : w.Sealed pending) {parent : FrameRef} (kind : FrameKind)
    (target : Option String) (isInjected : Option Bool) (hparent : w.IsSite parent)
    (hkind : kind.isForked = true) :
    Harmless pending (fun r w' => w'.IsSite r)
      (Run.produce fun w => w.fork parent kind (!kind.holdsLocals) target isInjected) w :=
  Inert.fork hw target isInjected hparent hkind

section Debugging

variable (hw : w.Sealed pending)

include hw

theorem arm (armed : Bool) : Harmless pending (fun _ _ => True) (Run.arm armed) w :=
  change (.aside hw)

theorem grantStep : Harmless pending (fun _ _ => True) Run.grantStep w :=
  change (.aside hw)

theorem takeAction (actions : List HookAction) :
    Harmless pending (fun _ _ => True) (Run.takeAction actions) w := by
  have htaken : Harmless pending (fun _ _ => True) (modify fun w =>
      { w with debugger := { w.debugger with hook := .scripted actions.tail } } : Run Unit) w :=
    change (.aside hw)
  exact htaken.bind fun _ w' hw' _ _ => keep hw' trivial

theorem endPause : Harmless pending (fun _ _ => True) Run.endPause w := by
  apply change
  split
  · exact .aside hw
  · exact .refl hw

theorem notePause (position : Position) (r : FrameRef)
    (injected : Option (Except ScriptError Unit)) (exit : Option (Except Fault Unit)) :
    Harmless pending (fun _ _ => True) (Run.notePause position r injected exit) w := by
  apply change
  split
  · exact .aside hw
  · exact .refl hw

/-- There is nothing to end if there is no run. -/
theorem exit (hpending : pending = false) :
    Harmless pending (fun _ _ => True) (Run.update World.exit) w := by
  have hidle : w.process.isPending = false := hw.isPending.trans hpending
  unfold Harmless Run.update World.exit
  rw [hidle]
  exact .refl hw

/-- All moves but one leave the run alone, and that one too if there is no run. -/
theorem makeMove {move : HookMove} (hmove : ¬ (move = .exit ∧ pending = true)) :
    Harmless pending (fun _ _ => True) (Run.makeMove move) w := by
  cases move with
  | step => exact (grantStep hw).bind fun _ w' hw' _ _ => keep hw' trivial
  | resume => exact (arm hw false).bind fun _ w' hw' _ _ => keep hw' trivial
  | hold => exact keep hw trivial
  | exit =>
    have hexit := exit hw (by simpa using hmove)
    exact hexit.attempt.bind fun _ w' hw' _ _ => keep hw' trivial

theorem raise (e : ScriptError) : Harmless pending (fun _ _ => True) (Run.raise e) w := by
  unfold Harmless Run.raise
  cases w.handlers.collects with
  | true => exact ⟨.aside hw, trivial⟩
  | false => exact ⟨.refl hw, trivial⟩

theorem compile (code : String) : Harmless pending (fun _ _ => True) (Run.compile code) w := by
  apply get
  split
  next p _ =>
    have hnoted : Harmless pending (fun _ _ => True) (modify fun w =>
        { w with recovered := w.recovered ++ p.errors ++ p.importErrors } : Run Unit) w :=
      change (.aside hw)
    exact hnoted.bind fun _ w' hw' _ _ => keep hw' trivial
  next e _ =>
    refine (raise hw e).bind fun r w' hw' _ _ => ?_
    cases r with
    | ok _ => exact keep hw' trivial
    | error e => exact keep hw' trivial

end Debugging

/-- All functions of the host but one leave the run alone, and that one fails if there is no run. -/
theorem hostFunction (hw : w.Sealed pending) {action : HostAction} {a : Arguments} (ha : a.Fits w)
    (site : Site) (haction : ¬ (action = .stop ∧ pending = true)) :
    Harmless pending (fun v w' => w'.Admits v) (Run.hostFunction action a site) w := by
  cases action with
  | report =>
    have hall := Proper.newList hw ha.2
    have hvalues : (w.newList a.values).2.AdmitsAll
        [.string (w.typeName a.receiver), a.named "a", (w.newList a.values).1] :=
      .cons trivial (.cons ((ha.named "a").mono hall.inert.later) (.cons hall.admits .nil))
    have hrow := Proper.newList hall.inert.isSealed hvalues
    exact ⟨hall.inert.trans hrow.inert, hrow.admits⟩
  | copy => exact produce (.copy hw (ha.named "a"))
  | arguments => exact produce (.newList hw ha.2)
  | echo => exact keep hw (ha.named "a")
  | fail => exact Inert.refl hw
  | count =>
    refine get (keep hw ?_)
    cases w.count? (a.named "a") <;> trivial
  | stop =>
    have hexit := exit hw (by simpa using haction)
    exact hexit.bind fun _ w' hw' _ _ => keep hw' trivial
  | toInteger => exact keep hw trivial
  | request => exact keep hw trivial
  | _ => exact get (keep hw trivial)

/-- What no run may see changing is changed only if none is under way. -/
theorem unlessPending (hw : w.Sealed pending) (locked : FaultKind) {change : World → World}
    (h : Inert pending w (change w)) :
    Harmless pending (fun _ _ => True) (Run.unlessPending locked change) w := by
  unfold Harmless Run.unlessPending
  cases w.process.isPending with
  | true => exact ⟨.refl hw, trivial⟩
  | false => exact ⟨h, trivial⟩

theorem armIfPending (hw : w.Sealed pending) (armed : Bool) :
    Harmless pending (fun _ _ => True) (Run.armIfPending armed) w := by
  apply get
  cases w.process.isPending with
  | true => exact (arm hw armed).bind fun _ w' hw' _ _ => get (keep hw' trivial)
  | false => exact get (keep hw trivial)

/-- Requests that no task is needed for leave the run and its table alone, unless they ask it to end
or make new frames. -/
theorem perform (hw : w.Sealed pending) (r : Request) (site : Site)
    (hexit : ¬ (r = .exit ∧ pending = true)) (htarget : ∀ target, r ≠ .setTarget target) :
    Harmless pending (fun _ _ => True) (Run.perform 1 r site) w := by
  cases r with
  | run code => exact Inert.refl hw
  | runTarget =>
    apply get
    dsimp only
    split
    · exact Inert.refl hw
    · exact (raise hw _).bind fun _ w' hw' _ _ => keep hw' trivial
  | inject code => exact Inert.refl hw
  | injectLast code => exact Inert.refl hw
  | runPrepared =>
    apply get
    split
    · exact keep hw trivial
    · exact Inert.refl hw
  | prepare code =>
    refine (compile hw code).bind fun c w' hw' _ _ => ?_
    cases c with
    | error e => exact keep hw' trivial
    | ok operation =>
      have hnoted : Harmless pending (fun _ _ => True) (modify fun w => { w with
          configuration := { w.configuration with prepared := some operation } } : Run Unit) w' :=
        change (.aside hw')
      exact hnoted.bind fun _ w'' hw'' _ _ => keep hw'' trivial
  | get path =>
    have hread : Harmless pending (fun _ _ => True) (Run.read fun w =>
        w.getVariable w.configuration.global (Path.parse path)) w := read hw fun _ _ => trivial
    refine hread.attempt.bind fun c w' hw' _ _ => ?_
    cases c <;> exact keep hw' trivial
  | set path value =>
    have hmade : Proper pending w (World.make [] value w) := World.make_proper hw .nil value
    refine (produce hmade).bind fun v w' hw' _ hv => ?_
    have hwritten : Harmless pending (fun _ _ => True) (Run.writeAt
        (fun w => w.variableSlot w.configuration.global (Path.parse path)) v) w' :=
      writeAt hw' (fun s hs => hw'.variableSlot hw'.global_site hs) hv
    refine hwritten.attempt.bind fun c w'' hw'' _ _ => ?_
    cases c <;> exact keep hw'' trivial
  | setTarget target => exact absurd rfl (htarget target)
  | setArguments arguments =>
    have hset : Harmless pending (fun _ _ => True) (modify fun w => { w with
        configuration := { w.configuration with arguments := arguments } } : Run Unit) w :=
      change (.aside hw)
    exact hset.bind fun _ w' hw' _ _ => keep hw' trivial
  | setTable table =>
    have hnone : w.AdmitsAll (([] : List (String × Value)).map (·.2)) := .nil
    obtain ⟨hmade, hadmits⟩ := World.makeEntries_inert hw hnone table
    refine unlessPending hw _ (hmade.trans (.setTable hmade.isSealed ?_))
    exact fun v hv => hadmits v (OrderedMap.mem_values_ofList hv)
  | setHandlers handlers => exact unlessPending hw _ (.aside hw)
  | setHook hook => exact unlessPending hw _ (.aside hw)
  | breakpoint armed => exact (arm hw armed).bind fun _ w' hw' _ _ => keep hw' trivial
  | step => exact (grantStep hw).bind fun _ w' hw' _ _ => keep hw' trivial
  | pause => exact armIfPending hw true
  | resume => exact armIfPending hw false
  | exit =>
    have hrefused := exit hw (by simpa using hexit)
    refine hrefused.attempt.bind fun c w' hw' _ _ => ?_
    cases c <;> exact keep hw' trivial
  | takeRecovered =>
    have htaken : Harmless pending (fun _ _ => True)
        (modify fun w => { w with recovered := [] } : Run Unit) w := change (.aside hw)
    exact get (htaken.bind fun _ w' hw' _ _ => keep hw' trivial)
  | takeCollected =>
    have htaken : Harmless pending (fun _ _ => True)
        (modify fun w => { w with collected := [] } : Run Unit) w := change (.aside hw)
    exact get (htaken.bind fun _ w' hw' _ _ => keep hw' trivial)
  | unknown => exact keep hw trivial
  | _ => exact get (keep hw trivial)

end Harmless

section Begin

variable {entries : List (String × Value)}

/-- The frame of the table is no temporary one, so that what is bound in it is bound in its own
variables. -/
theorem bindAll_api (hw : w.Sealed pending) {a : Frame}
    (ha : w.frame? w.configuration.api = some a) (hkind : a.kind = .api) :
    w.bindAll w.configuration.api entries = w.modifyMap a.scope fun m => m.extend entries := by
  obtain ⟨frames, hlinked⟩ := hw.linked.linked _ a ha
  have hlasting : a.isTemporary = false := by
    cases hlinked with
    | root _ _ _ isTemporary => exact isTemporary
    | fork _ kind =>
      rw [hkind] at kind
      cases kind
  have hbinding : w.bindingFrame (w.configuration.api.index + 1) w.configuration.api =
      w.configuration.api := by
    rw [World.bindingFrame, ha]
    simp only [hlasting, Bool.false_eq_true, if_false]
  unfold World.bindAll
  rw [hbinding, ha]

/-- Entries that scripts may hold can be put into the table. -/
theorem bindAll_sealed (hw : w.Sealed pending) (hentries : w.AdmitsAll (entries.map (·.2))) :
    (w.bindAll w.configuration.api entries).Sealed pending ∧
      w.Later (w.bindAll w.configuration.api entries) ∧
      (w.bindAll w.configuration.api entries).table = w.table.extend entries ∧
      (w.bindAll w.configuration.api entries).configuration = w.configuration := by
  obtain ⟨a, ha, hkind⟩ := hw.api
  rw [bindAll_api hw ha hkind]
  have hscope := hw.linked.scope _ a ha
  have hcontents : (w.modifyMap a.scope fun m => m.extend entries).contents a.scope =
      (w.contents a.scope).extend entries := by
    rw [World.contents_modifyMap, if_pos ⟨rfl, hscope⟩]
  have hlinks : w.KeepsLinks (w.modifyMap a.scope fun m => m.extend entries) :=
    World.keepsLinks_of_frames rfl (by simp [World.modifyMap])
  have hlater := World.Later.of_keepsLinks hlinks
  refine ⟨⟨?_, hw.isPending, ⟨a, ha, hkind⟩, hw.global⟩, hlater, ?_, rfl⟩
  · refine hw.toClosed.later hlater (hw.linked.change hlinks)
      { World.Brings.refl w with entries := fun s v hv => ?_ } (fun _ _ _ h => .inl h)
      fun _ h => .inl h
    rw [World.contents_modifyMap] at hv
    split at hv
    · rcases OrderedMap.mem_values_extend hv with hv | hv
      · exact .inl (.entry hv)
      · exact .inr (hentries v hv)
    · exact .inl (.entry hv)
  · have hbefore : w.table = (w.contents a.scope).entries := by
      rw [World.table, ha]
      rfl
    have hframe : (w.modifyMap a.scope fun m => m.extend entries).frame?
        (w.modifyMap a.scope fun m => m.extend entries).configuration.api = some a := ha
    rw [World.table, hframe, Option.map_some, Option.getD_some, hcontents, hbefore]
    rfl

end Begin

section Noted

variable {run : ∀ {α : Type}, Task α → Run α} {below : ∀ {α : Type}, Task α → World → List Moment}

theorem modify_apply (f : World → World) (w : World) : (modify f : Run Unit) w = .ok () (f w) := rfl

/-- Before a run begins, its table is extended; all else that is made ready leaves tables alone. -/
theorem beginRun_eq (hw : w.Sealed false) :
    ∃ named, beginRun w =
        .ok () { named with process := ⟨false, true, named.process.lastActive⟩ } ∧
      Inert false (w.bindAll w.configuration.api (World.globalTable ++ w.configuration.table))
        named ∧ named.configuration = w.configuration := by
  obtain ⟨hbound, -, -, hconfiguration⟩ := bindAll_sealed hw hw.admits_global
  unfold beginRun
  rw [modify_apply]
  dsimp only
  generalize w.bindAll w.configuration.api (World.globalTable ++ w.configuration.table) = bound
    at hbound hconfiguration ⊢
  have hlist : Proper false bound (bound.newList (w.configuration.arguments.map .string)) :=
    .newList hbound (.map (fun _ => rfl) _)
  have hkept : (bound.newList (w.configuration.arguments.map .string)).2.configuration =
    w.configuration := hconfiguration
  generalize bound.newList (w.configuration.arguments.map .string) = arguments
    at hlist hkept ⊢
  have harguments := hlist.inert.isSealed
  obtain ⟨g, hg, hlocals⟩ := harguments.global_site
  have hscope := harguments.linked.admits_scope hg hlocals
  rw [hkept] at hg
  refine ⟨arguments.2.modifyMap g.scope fun m => m.insert "params" arguments.1, ?_,
    hlist.inert.trans (.insert harguments "params" hscope hlist.admits), hkept⟩
  rw [hg]

/-- A run begins where none is under way, and extends the table. -/
theorem Plan.Safe.begin (hw : w.Sealed false) :
    Safe run below true true (fun _ _ => True) (.step (fun _ => some .began) beginRun) w := by
  obtain ⟨hbound, hlater, hextended, -⟩ := bindAll_sealed hw hw.admits_global
  obtain ⟨named, hbegin, hnamed, hkept⟩ := beginRun_eq hw
  obtain ⟨hsealed, hlast⟩ := hnamed.isSealed.setProcess
    (p := ⟨false, true, named.process.lastActive⟩) (.inr rfl)
  have htable : named.table = w.table.extend (World.globalTable ++ w.configuration.table) :=
    hnamed.table.trans hextended
  apply step
  · exact hw.isPending
  · rw [hbegin]
    change World.Standing.mk true false named.table =
      ⟨true, false, w.table.extend (World.globalTable ++ named.configuration.table)⟩
    rw [htable, hkept]
  · rw [hbegin]
    exact ⟨hsealed, hlater.trans (hnamed.later.trans hlast), trivial⟩
  · rw [hbegin]
    rfl

/-- A run that ends leaves the table. -/
theorem Plan.Safe.ending (hw : w.Sealed true) :
    Safe run below false false (fun _ _ => True) (.step (fun _ => some .ended) endRun) w := by
  obtain ⟨hsealed, hlater⟩ := hw.setProcess
    (p := { w.process with isPending := false, lastActive := none }) (.inl rfl)
  exact step hw.isPending rfl ⟨hsealed, hlater, trivial⟩ rfl

/-- A step that asks the run to end does nothing else, and without a run it leaves all alone. -/
theorem Plan.Safe.exiting {asks : Bool} {x : Run α} (hw : w.Sealed pending)
    (hidle : ¬ (asks = true ∧ pending = true) → Harmless pending held x w)
    (hasked : asks = true → pending = true →
      ∃ a, x w = .ok a { w with process := { w.process with isExit := true } } ∧
        held a { w with process := { w.process with isExit := true } }) :
    Safe run below pending pending held (Plan.exiting asks x) w := by
  by_cases hboth : asks = true ∧ pending = true
  · obtain ⟨rfl, rfl⟩ := hboth
    obtain ⟨a, ha, hheld⟩ := hasked rfl rfl
    obtain ⟨hsealed, hlater⟩ := hw.setProcess (p := { w.process with isExit := true }) (.inr rfl)
    apply step
    · rw [hw.isPending]
      exact hw.isPending
    · rw [ha, hw.isPending]
      rfl
    · rw [ha]
      have hpending : w.process.isPending = true := hw.isPending
      rw [hpending] at hsealed
      exact ⟨hsealed, hlater, hheld⟩
    · rw [ha]
      exact hw.isPending
  · apply harmless _ (hidle hboth)
    rw [hw.isPending]
    cases asks <;> cases pending <;> simp_all

/-- New frames for programs come with an empty table. -/
theorem Plan.Safe.rebuild (hw : w.Sealed pending) (target : String) :
    Safe run below pending pending (fun _ _ => True)
      (.step (fun w => if w.process.isPending then none else some .rebuilt)
        (unlessPending .targetLocked (freshFrames target))) w := by
  cases pending with
  | true =>
    apply harmless
    · rw [hw.isPending]
      rfl
    · unfold Harmless unlessPending
      rw [hw.isPending]
      exact ⟨.refl hw, trivial⟩
  | false =>
    have hidle := hw.isPending
    obtain ⟨hsealed, hlater, htable, hprocess⟩ := freshFrames_sealed hw.toClosed hidle target
    have hreply : unlessPending .targetLocked (freshFrames target) w =
        .ok .done (freshFrames target w) := by
      unfold unlessPending
      rw [hidle]
      rfl
    apply step
    · rw [hidle]
      exact hidle
    · rw [hreply, hidle]
      simp only [World.standing, reached, htable, hprocess]
      rfl
    · rw [hreply]
      exact ⟨hsealed, hlater, trivial⟩
    · rw [hreply]
      exact hsealed.isPending

end Noted

end Run

end LineScript
