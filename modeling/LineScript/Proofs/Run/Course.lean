import LineScript.Proofs.Run.Steps

/-!
# The standing of a session in the course of a run

Every task of a run, given values that scripts may hold and frames in which code runs, keeps a
sealed world sealed, and its course accounts for every change to the standing of the session. Each
kind of task is shown to be safe from the safety of the tasks below it; the bound on nested steps
then makes it true of all runs.
-/

namespace LineScript

/-- The statement that was begun last runs in a frame in which code runs. -/
theorem World.Sealed.lastActive_site {pending : Bool} {w : World} (hw : w.Sealed pending)
    {inUse : List Thing} {r : FrameRef} (h : w.lastActive? inUse = some r) : w.IsSite r := by
  unfold World.lastActive? at h
  split at h
  · cases h
  next s hs =>
    split at h
    · cases h
      exact hw.active r hs
    · cases h

namespace Run

open World (Inert Proper)

/-- What scripts may hold of a list of items and their indices or keys. -/
def AdmitsItems (w : World) (items : List (Value × Value)) : Prop :=
  ∀ item ∈ items, w.Admits item.1 ∧ w.Admits item.2

/-- A task is given frames in which code runs and values that scripts may hold. -/
def Task.Fits (w : World) : {α : Type} → Task α → Prop
  | _, .eval _ site => w.IsSite site.frame
  | _, .evalList _ done site => w.IsSite site.frame ∧ w.AdmitsAll done
  | _, .evalEntries _ done site => w.IsSite site.frame ∧ w.AdmitsAll done.values
  | _, .walk _ origin site => w.IsSite site.frame ∧ w.AdmitsAll origin.toList
  | _, .walkKey _ _ origin site => w.IsSite site.frame ∧ w.AdmitsAll origin.toList
  | _, .runBlock _ site => w.IsSite site.frame
  | _, .runBranches _ site => w.IsSite site.frame
  | _, .runWhile _ _ site => w.IsSite site.frame
  | _, .runFor items _ origin _ site => w.IsSite site.frame ∧
      w.AdmitsAll (items.map World.Item.held) ∧ w.AdmitsAll origin.toList
  | _, .callFunction _ receiver given _ => w.Admits receiver ∧ w.AdmitsAll given
  | _, .invoke _ scope receiver given _ =>
      w.IsSite scope ∧ w.Admits receiver ∧ w.AdmitsAll given
  | _, .bindParameters _ given site => w.IsSite site.frame ∧ w.AdmitsAll given
  | _, .callBuiltin _ a _ => a.Fits w
  | _, .callEach _ receiver items _ => w.Admits receiver ∧ AdmitsItems w items
  | _, .callFind _ receiver items _ => w.Admits receiver ∧ AdmitsItems w items
  | _, .callMap _ receiver items done _ =>
      w.Admits receiver ∧ AdmitsItems w items ∧ w.AdmitsAll done
  | _, .callReduce _ receiver items done _ =>
      w.Admits receiver ∧ AdmitsItems w items ∧ w.Admits done
  | _, .callHost _ a _ => a.Fits w
  | _, .beginStatement _ site => w.IsSite site.frame
  | _, .injectInto _ frame _ => w.IsSite frame
  | _, _ => True

/-- The values that a task gives are such that scripts may hold them. -/
def Task.Gives : {α : Type} → Task α → α → World → Prop
  | _, .eval _ _ => fun v w => w.Admits v
  | _, .evalList _ _ _ => fun vs w => w.AdmitsAll vs
  | _, .evalEntries _ _ _ => fun m w => w.AdmitsAll m.values
  | _, .walk _ _ _ => fun place w => w.AdmitsAll place.2.toList
  | _, .walkKey _ _ _ _ => fun place w => w.AdmitsAll place.2.toList
  | _, .callFunction _ _ _ _ => fun v w => w.Admits v
  | _, .invoke _ _ _ _ _ => fun v w => w.Admits v
  | _, .callBuiltin _ _ _ => fun v w => w.Admits v
  | _, .callEach _ _ _ _ => fun v w => w.Admits v
  | _, .callFind _ _ _ _ => fun v w => w.Admits v
  | _, .callMap _ _ _ _ _ => fun vs w => w.AdmitsAll vs
  | _, .callReduce _ _ _ _ _ => fun v w => w.Admits v
  | _, .callHost _ _ _ => fun v w => w.Admits v
  | _, _ => fun _ _ => True

/-- Tasks are safe in sealed worlds. -/
def Trusted (run : ∀ {α : Type}, Task α → Run α)
    (below : ∀ {α : Type}, Task α → World → List Moment) : Prop :=
  ∀ {α : Type} (t : Task α) {pending : Bool} {w : World}, w.Sealed pending → t.Fits w →
    Plan.Safe run below pending pending t.Gives (.task t) w

/-- An attempt never stops with a fault. -/
theorem attempt_ne_fault {α : Type} (x : Run α) {w w' : World} {f : Fault} :
    attempt x w ≠ .error (.fault f) w' := by
  unfold attempt
  split <;> simp

section Items

variable {pending : Bool} {w w' : World} {items : List (Value × Value)}

theorem AdmitsItems.mono (h : AdmitsItems w items) (hlater : w.Later w') :
    AdmitsItems w' items :=
  fun item hitem => ⟨(h item hitem).1.mono hlater, (h item hitem).2.mono hlater⟩

theorem AdmitsItems.tail {item : Value × Value} (h : AdmitsItems w (item :: items)) :
    AdmitsItems w items :=
  fun other hother => h other (List.mem_cons_of_mem _ hother)

/-- What a function is called with for one item. -/
theorem AdmitsItems.given {x key : Value} (h : AdmitsItems w ((x, key) :: items)) :
    w.AdmitsAll [x, key] :=
  .cons (h _ List.mem_cons_self).1 (.cons (h _ List.mem_cons_self).2 .nil)

theorem admitsItems_numbered (hw : w.Sealed pending) (r : ListRef) :
    AdmitsItems w (numbered (w.elements r)) := by
  intro item hitem
  obtain ⟨⟨v, k⟩, hv, rfl⟩ := List.mem_map.1 hitem
  exact ⟨hw.elements r v (List.fst_mem_of_mem_zipIdx hv), trivial⟩

theorem admitsItems_keyed (hw : w.Sealed pending) (r : MapRef) :
    AdmitsItems w (keyed (w.contents r)) := by
  intro item hitem
  obtain ⟨e, he, rfl⟩ := List.mem_map.1 hitem
  exact ⟨hw.values r e.2 (List.mem_map_of_mem he), trivial⟩

end Items

theorem beginRound_harmless {pending : Bool} {w : World} (hw : w.Sealed pending) (r : FrameRef) :
    Harmless pending (fun _ _ => True) (modify fun w => w.beginRound r : Run Unit) w :=
  .noteFrame hw r (fun _ => ⟨rfl, rfl, rfl, rfl, rfl, rfl, rfl⟩) fun _ => rfl

section Plans

variable {run : ∀ {α : Type}, Task α → Run α} {below : ∀ {α : Type}, Task α → World → List Moment}
  {pending : Bool} {w : World} {site : Site}

open Plan (Safe)

variable (htasks : Trusted run below) (hw : w.Sealed pending)

include htasks hw

theorem eval_safe (hsite : w.IsSite site.frame) (operation : Operation) :
    Safe run below pending pending (Task.eval operation site).Gives
      (Task.eval operation site).plan w := by
  cases operation with
  | noop => exact .pure hw trivial
  | literal v =>
    apply Safe.pure hw
    cases v <;> trivial
  | constant b => exact .pure hw trivial
  | resolve chain =>
    apply (htasks (.walk chain none site) hw ⟨hsite, .nil⟩).bind
    rintro ⟨path, origin⟩ w' hw' hlater horigin
    exact .plain (.readChain hw' (hsite.mono hlater) horigin)
  | assign target value =>
    apply (htasks (.walk target none site) hw ⟨hsite, .nil⟩).bind
    rintro ⟨path, origin⟩ w₁ hw₁ h₁ horigin
    apply (htasks (.eval value (site.hold origin.toList)) hw₁ (hsite.mono h₁)).bind
    intro x w₂ hw₂ h₂ hx
    apply (Safe.plain (.writeChain hw₂ ((hsite.mono h₁).mono h₂) (horigin.mono h₂) hx)).bind
    intro _ w₃ hw₃ _ _
    exact .pure hw₃ trivial
  | call callee arguments =>
    apply (htasks (.walk callee none site) hw ⟨hsite, .nil⟩).bind
    rintro ⟨path, origin⟩ w₁ hw₁ h₁ horigin
    apply (Safe.plain (.readChain hw₁ (hsite.mono h₁) horigin)).bind
    intro f w₂ hw₂ h₂ hf
    apply (htasks (.evalList arguments [] (site.hold (f :: origin.toList))) hw₂
      ⟨(hsite.mono h₁).mono h₂, .nil⟩).bind
    intro xs w₃ hw₃ h₃ hxs
    cases f with
    | function f =>
      refine htasks (.callFunction f (origin.getD .nil) xs site) hw₃ ⟨?_, hxs⟩
      cases origin with
      | none => trivial
      | some v => exact ((horigin v List.mem_cons_self).mono h₂).mono h₃
    | _ => exact .plain (.fail hw₃ .notCallable)
  | function d =>
    apply (Safe.plain (.produce (Proper.newClosure hw d hsite))).bind
    intro f w₁ hw₁ h₁ hf
    dsimp only
    cases d.name? with
    | none => exact .pure hw₁ hf
    | some name =>
      have hslot : ∀ s, w₁.variableSlot site.frame [name] = .ok s → w₁.AdmitsSlot s :=
        fun s hs => hw₁.variableSlot (hsite.mono h₁) hs
      apply (Safe.plain (.writeAt hw₁ hslot hf)).bind
      intro _ w₂ hw₂ h₂ _
      exact .pure hw₂ (hf.mono h₂)
  | chunk body =>
    apply (htasks (.runBlock body site) hw hsite).bind
    intro _ w' hw' _ _
    exact .pure hw' trivial
  | conditional branches =>
    apply (htasks (.runBranches branches site) hw hsite).bind
    intro _ w' hw' _ _
    exact .pure hw' trivial
  | whileLoop condition body =>
    apply (Safe.plain (Harmless.fork hw .loop none none hsite rfl)).bind
    intro frame w₁ hw₁ _ hframe
    apply (htasks (.runWhile condition body (site.enter frame)) hw₁ hframe).bind
    intro _ w₂ hw₂ _ _
    exact .pure hw₂ trivial
  | forLoop target iterator body =>
    apply (Safe.plain (Harmless.fork hw .loop none none hsite rfl)).bind
    intro frame w₁ hw₁ _ hframe
    apply (htasks (.walk target none (site.enter frame)) hw₁ ⟨hframe, .nil⟩).bind
    rintro ⟨path, origin⟩ w₂ hw₂ h₂ horigin
    apply (htasks (.eval iterator ((site.enter frame).hold origin.toList)) hw₂
      (hframe.mono h₂)).bind
    intro sequence w₃ hw₃ h₃ _
    have hread : Harmless pending (fun items w => w.AdmitsAll (items.map World.Item.held))
        (read fun w => w.items sequence) w₃ := .read hw₃ fun items hitems => hw₃.items hitems
    apply (Safe.plain hread).bind
    intro items w₄ hw₄ h₄ hitems
    have hfits : w₄.IsSite frame ∧ w₄.AdmitsAll (items.map World.Item.held) ∧
        w₄.AdmitsAll origin.toList :=
      ⟨hframe.mono (h₂.trans (h₃.trans h₄)), hitems, horigin.mono (h₃.trans h₄)⟩
    apply (htasks (.runFor items path origin body
      ((site.enter frame).hold (sequence :: origin.toList))) hw₄ hfits).bind
    intro _ w₅ hw₅ _ _
    exact .pure hw₅ trivial
  | returnFrom argument =>
    apply Safe.get hw
    cases (w.frame? site.frame).bind (·.call) with
    | none => exact .plain (.fail hw .unexpectedReturn)
    | some c =>
      have hfinish : ∀ x w', w'.Sealed pending → w'.Admits x →
          Safe run below pending pending (fun v w => w.Admits v)
            (do Plan.plain (finishCall site.frame x); return Value.nil) w' := by
        intro x w' hw' hx
        apply (Safe.plain (.finishCall hw' site.frame hx)).bind
        intro _ w'' hw'' _ _
        exact .pure hw'' trivial
      cases argument with
      | none =>
        have hnil : Safe run below pending pending (fun v w => w.Admits v) (pure Value.nil) w :=
          .pure hw trivial
        apply hnil.bind
        intro x w' hw' _ hx
        exact hfinish x w' hw' hx
      | some a =>
        apply (htasks (.eval a site) hw hsite).bind
        intro x w' hw' _ hx
        exact hfinish x w' hw' hx
  | breakLoop =>
    apply Safe.get hw
    cases (w.frame? site.frame).bind (·.loop) with
    | none => exact .plain (.fail hw .unexpectedBreak)
    | some l =>
      have hnoted : Harmless pending (fun _ _ => True)
          (modify fun w => w.modifyFrame l fun f => { f with isBroken := true } : Run Unit) w :=
        .noteFrame hw l (fun f => ⟨rfl, rfl, rfl, rfl, rfl, rfl, rfl⟩) fun f => rfl
      apply (Safe.plain hnoted).bind
      intro _ w' hw' _ _
      exact .pure hw' trivial
  | continueLoop =>
    apply Safe.get hw
    cases (w.frame? site.frame).bind (·.loop) with
    | none => exact .plain (.fail hw .unexpectedContinue)
    | some l =>
      have hnoted : Harmless pending (fun _ _ => True)
          (modify fun w => w.modifyFrame l fun f => { f with isContinued := true } : Run Unit) w :=
        .noteFrame hw l (fun f => ⟨rfl, rfl, rfl, rfl, rfl, rfl, rfl⟩) fun f => rfl
      apply (Safe.plain hnoted).bind
      intro _ w' hw' _ _
      exact .pure hw' trivial
  | debugger =>
    apply (Safe.plain (.arm hw true)).bind
    intro _ w' hw' _ _
    exact .pure hw' trivial
  | evaluate operator left right =>
    apply (htasks (.eval left site) hw hsite).bind
    intro a w₁ hw₁ h₁ ha
    have hright : ∀ {β : Type} {held : β → World → Prop} {k : Value → Plan β},
        (∀ b w', w'.Sealed pending → w'.Admits b → Safe run below pending pending held (k b) w') →
        Safe run below pending pending held (Plan.task (.eval right (site.hold [a])) >>= k) w₁ := by
      intro β held k hk
      apply (htasks (.eval right (site.hold [a])) hw₁ (hsite.mono h₁)).bind
      intro b w' hw' _ hb
      exact hk b w' hw' hb
    apply Safe.get hw₁
    cases operator
    case and =>
      dsimp only
      split
      · exact hright fun b w' hw' _ => .get hw' (.pure hw' trivial)
      · exact .pure hw₁ trivial
    case or =>
      dsimp only
      split
      · exact .pure hw₁ trivial
      · exact hright fun b w' hw' _ => .get hw' (.pure hw' trivial)
    all_goals exact hright fun b w' hw' _ => .plain (.produce (.apply hw' _))
  | negate argument =>
    apply (htasks (.eval argument site) hw hsite).bind
    intro a w' hw' _ _
    exact .get hw' (.pure hw' trivial)
  | signed operator argument =>
    apply (htasks (.eval argument site) hw hsite).bind
    intro a w' hw' _ _
    cases operator <;> exact .pure hw' trivial
  | instantiate argument =>
    apply (htasks (.eval argument site) hw hsite).bind
    intro a w' hw' _ _
    cases a with
    | map r => exact .plain (.produce (.newMap hw' (hw'.values r)))
    | _ => exact .plain (.fail hw' .notInstantiable)
  | map entries =>
    apply (htasks (.evalEntries entries .empty site) hw ⟨hsite, .nil⟩).bind
    intro made w' hw' _ hmade
    exact .plain (.produce (.newMap hw' hmade))
  | list items =>
    apply (htasks (.evalList items [] site) hw ⟨hsite, .nil⟩).bind
    intro xs w' hw' _ hxs
    exact .plain (.produce (.newList hw' hxs))
  | imported target chunk =>
    apply (Safe.plain (Harmless.fork hw .external (some target) none hsite rfl)).bind
    intro frame w₁ hw₁ _ hframe
    exact htasks (.eval chunk (site.enter frame)) hw₁ hframe

theorem evalList_safe (hsite : w.IsSite site.frame) (operations : List Operation)
    {done : List Value} (hdone : w.AdmitsAll done) :
    Safe run below pending pending (Task.evalList operations done site).Gives
      (Task.evalList operations done site).plan w := by
  cases operations with
  | nil => exact .pure hw hdone
  | cons o os =>
    apply (htasks (.eval o (site.hold done)) hw hsite).bind
    intro x w' hw' h hx
    exact htasks (.evalList os (done ++ [x]) site) hw'
      ⟨hsite.mono h, (hdone.mono h).append (.cons hx .nil)⟩

theorem evalEntries_safe (hsite : w.IsSite site.frame) (entries : List (String × Operation))
    {done : OrderedMap Value} (hdone : w.AdmitsAll done.values) :
    Safe run below pending pending (Task.evalEntries entries done site).Gives
      (Task.evalEntries entries done site).plan w := by
  cases entries with
  | nil => exact .pure hw hdone
  | cons entry rest =>
    obtain ⟨key, o⟩ := entry
    apply (htasks (.eval o (site.hold done.values)) hw hsite).bind
    intro x w' hw' h hx
    refine htasks (.evalEntries rest (done.insert key x) site) hw' ⟨hsite.mono h, ?_⟩
    intro v hv
    rcases OrderedMap.mem_values_insert hv with rfl | hv
    · exact hx
    · exact (hdone v hv).mono h

theorem walk_safe (hsite : w.IsSite site.frame) (chain : List Segment) {origin : Option Value}
    (horigin : w.AdmitsAll origin.toList) :
    Safe run below pending pending (Task.walk chain origin site).Gives
      (Task.walk chain origin site).plan w := by
  cases chain with
  | nil => exact .pure hw horigin
  | cons segment rest =>
    cases segment with
    | root o =>
      apply (htasks (.eval o (site.hold origin.toList)) hw hsite).bind
      intro x w' hw' h hx
      exact htasks (.walk rest (some x) site) hw' ⟨hsite.mono h, .cons hx .nil⟩
    | name key => exact htasks (.walkKey key rest origin site) hw ⟨hsite, horigin⟩
    | index o =>
      apply (htasks (.eval o (site.hold origin.toList)) hw hsite).bind
      intro x w' hw' h hx
      exact .get hw' (htasks (.walkKey (w'.display x) rest origin site) hw'
        ⟨hsite.mono h, horigin.mono h⟩)

theorem walkKey_safe (hsite : w.IsSite site.frame) (key : String) (rest : List Segment)
    {origin : Option Value} (horigin : w.AdmitsAll origin.toList) :
    Safe run below pending pending (Task.walkKey key rest origin site).Gives
      (Task.walkKey key rest origin site).plan w := by
  cases rest with
  | nil => exact .pure hw horigin
  | cons segment rest =>
    apply (Safe.plain (.readChain hw hsite horigin)).bind
    intro x w' hw' h hx
    exact htasks (.walk (segment :: rest) (some x) site) hw' ⟨hsite.mono h, .cons hx .nil⟩

theorem runBlock_safe (hsite : w.IsSite site.frame) (body : List Statement) :
    Safe run below pending pending (Task.runBlock body site).Gives
      (Task.runBlock body site).plan w := by
  cases body with
  | nil => exact .pure hw trivial
  | cons statement rest =>
    obtain ⟨operation, position⟩ := statement
    apply (htasks (.beginStatement position site) hw hsite).bind
    intro _ w₁ hw₁ h₁ _
    apply ((htasks (.eval operation site) hw₁ (hsite.mono h₁)).atLine position.line).bind
    intro _ w₂ hw₂ h₂ _
    apply Safe.get hw₂
    split
    · exact .pure hw₂ trivial
    · exact htasks (.runBlock rest site) hw₂ (hsite.mono (h₁.trans h₂))

theorem runBranches_safe (hsite : w.IsSite site.frame) (branches : List Branch) :
    Safe run below pending pending (Task.runBranches branches site).Gives
      (Task.runBranches branches site).plan w := by
  cases branches with
  | nil => exact .pure hw trivial
  | cons branch rest =>
    obtain ⟨condition, body⟩ := branch
    apply (htasks (.eval condition site) hw hsite).bind
    intro c w' hw' h _
    apply Safe.get hw'
    split
    · exact htasks (.runBlock body site) hw' (hsite.mono h)
    · exact htasks (.runBranches rest site) hw' (hsite.mono h)

theorem runWhile_safe (hsite : w.IsSite site.frame) (condition : Operation)
    (body : List Statement) :
    Safe run below pending pending (Task.runWhile condition body site).Gives
      (Task.runWhile condition body site).plan w := by
  apply (htasks (.eval condition site) hw hsite).bind
  intro c w₁ hw₁ h₁ _
  apply Safe.get hw₁
  split
  · apply (Safe.plain (beginRound_harmless hw₁ site.frame)).bind
    intro _ w₂ hw₂ h₂ _
    have hsite₂ := hsite.mono (h₁.trans h₂)
    apply (htasks (.runBlock body site) hw₂ hsite₂).bind
    intro _ w₃ hw₃ h₃ _
    apply Safe.get hw₃
    split
    · exact .pure hw₃ trivial
    · exact htasks (.runWhile condition body site) hw₃ (hsite₂.mono h₃)
  · exact .pure hw₁ trivial

theorem runFor_safe (hsite : w.IsSite site.frame) {items : List World.Item}
    (hitems : w.AdmitsAll (items.map World.Item.held)) (path : Path) {origin : Option Value}
    (horigin : w.AdmitsAll origin.toList) (body : List Statement) :
    Safe run below pending pending (Task.runFor items path origin body site).Gives
      (Task.runFor items path origin body site).plan w := by
  cases items with
  | nil => exact .pure hw trivial
  | cons item rest =>
    apply (Safe.plain (beginRound_harmless hw site.frame)).bind
    intro _ w₁ hw₁ h₁ _
    have hitem : w₁.Admits item.held := (hitems _ List.mem_cons_self).mono h₁
    apply (Safe.plain (.produce (.itemValue hw₁ hitem))).bind
    intro x w₂ hw₂ h₂ hx
    have hsite₂ := hsite.mono (h₁.trans h₂)
    apply (Safe.plain (.writeChain hw₂ hsite₂ (horigin.mono (h₁.trans h₂)) hx)).bind
    intro _ w₃ hw₃ h₃ _
    apply (htasks (.runBlock body (site.hold (rest.map World.Item.held))) hw₃ (hsite₂.mono h₃)).bind
    intro _ w₄ hw₄ h₄ _
    have hlater := h₁.trans (h₂.trans (h₃.trans h₄))
    have hrest : w.AdmitsAll (rest.map World.Item.held) :=
      hitems.subset (List.subset_cons_self _ _)
    apply Safe.get hw₄
    split
    · exact .pure hw₄ trivial
    · exact htasks (.runFor rest path origin body site) hw₄
        ⟨hsite.mono hlater, hrest.mono hlater, horigin.mono hlater⟩

theorem callFunction_safe (f : FunctionRef)
    {receiver : Value} {given : List Value} (hreceiver : w.Admits receiver)
    (hgiven : w.AdmitsAll given) :
    Safe run below pending pending (Task.callFunction f receiver given site).Gives
      (Task.callFunction f receiver given site).plan w := by
  cases f with
  | builtin b =>
    have hdefaults : w.AdmitsAll (b.parameters.map fun p => Value.ofLiteral p.2) :=
      .map (fun p => by cases p.2 <;> rfl) _
    let a : Arguments := ⟨receiver, b.parameters.map (·.1),
      Arguments.fill (b.parameters.map fun p => Value.ofLiteral p.2) given⟩
    exact htasks (.callBuiltin b a (site.hold (receiver :: a.values))) hw
      ⟨hreceiver, Arguments.admits_fill hdefaults hgiven⟩
  | made i =>
    apply Safe.get hw
    cases hi : w.functions.get? i with
    | none => exact .plain (.fail hw .notCallable)
    | some f =>
      cases f with
      | closure d frame =>
        let extra := given.drop d.parameters.length
        exact htasks (.invoke d frame receiver given
            (site.hold (.function (.made i) :: extra))) hw
          ⟨hw.closures i d frame hi, hreceiver, hgiven⟩
      | host name parameters action =>
        have hdefaults : w.AdmitsAll (parameters.map (·.2)) :=
          fun v hv => hw.stored v (.default hi hv)
        let a : Arguments :=
          ⟨receiver, parameters.map (·.1), Arguments.fill (parameters.map (·.2)) given⟩
        exact htasks (.callHost action a
            (site.hold (.function (.made i) :: receiver :: a.values))) hw
          ⟨hreceiver, Arguments.admits_fill hdefaults hgiven⟩

theorem invoke_safe (d : FunctionDeclaration) {scope : FrameRef} {receiver : Value}
    {given : List Value} (hscope : w.IsSite scope) (hreceiver : w.Admits receiver)
    (hgiven : w.AdmitsAll given) :
    Safe run below pending pending (Task.invoke d scope receiver given site).Gives
      (Task.invoke d scope receiver given site).plan w := by
  apply (Safe.plain (.fork hw .function none none hscope rfl)).bind
  intro frame w₁ hw₁ h₁ hframe
  apply (Safe.plain (.bindName hw₁ hframe "self" (hreceiver.mono h₁))).bind
  intro _ w₂ hw₂ h₂ _
  apply (htasks (.bindParameters d.parameters given (site.enter frame)) hw₂
    ⟨hframe.mono h₂, hgiven.mono (h₁.trans h₂)⟩).bind
  intro _ w₃ hw₃ h₃ _
  apply (htasks (.runBlock d.body (site.enter frame)) hw₃ (hframe.mono (h₂.trans h₃))).bind
  intro _ w₄ hw₄ _ _
  exact .plain (.callResult hw₄ frame)

theorem bindParameters_safe (hsite : w.IsSite site.frame) (parameters : List FormalParameter)
    {given : List Value} (hgiven : w.AdmitsAll given) :
    Safe run below pending pending (Task.bindParameters parameters given site).Gives
      (Task.bindParameters parameters given site).plan w := by
  cases parameters with
  | nil => exact .pure hw trivial
  | cons p ps =>
    cases given with
    | cons x xs =>
      apply (Safe.plain (.bindName hw hsite p.name (hgiven x List.mem_cons_self))).bind
      intro _ w' hw' h _
      exact htasks (.bindParameters ps xs site) hw'
        ⟨hsite.mono h, (hgiven.subset (List.subset_cons_self _ _)).mono h⟩
    | nil =>
      have hbind : ∀ x w', w'.Sealed pending → w.Later w' → w'.Admits x →
          Safe run below pending pending (fun _ _ => True) (do
            Plan.plain (bindName site.frame p.name x)
            .task (.bindParameters ps [] site)) w' := by
        intro x w' hw' h hx
        apply (Safe.plain (.bindName hw' (hsite.mono h) p.name hx)).bind
        intro _ w'' hw'' h' _
        exact htasks (.bindParameters ps [] site) hw'' ⟨hsite.mono (h.trans h'), .nil⟩
      cases hdefault : p.default with
      | none =>
        have hnil : Safe run below pending pending (fun v w => w.Admits v) (pure Value.nil) w :=
          .pure hw trivial
        simp only [Task.plan, hdefault]
        exact hnil.bind hbind
      | some o =>
        simp only [Task.plan, hdefault]
        exact (htasks (.eval o site) hw hsite).bind hbind

theorem callBuiltin_safe (b : Builtin)
    {a : Arguments} (ha : a.Fits w) :
    Safe run below pending pending (Task.callBuiltin b a site).Gives
      (Task.callBuiltin b a site).plan w := by
  cases b with
  | string m => exact .plain (.produce (.stringMethod hw m a))
  | global f => exact .plain (.produce (.globalFunction hw f a))
  | list m =>
    have hmethod : Safe run below pending pending (fun v w => w.Admits v)
        (Plan.plain (produce fun w => w.listMethod m a)) w :=
      .plain (.produce (.listMethod hw m ha))
    simp only [Task.plan]
    cases a.list? with
    | none => cases m <;> exact hmethod
    | some r =>
      have hitems := admitsItems_numbered hw r
      cases a.callback? with
      | none => cases m <;> exact hmethod
      | some f =>
        cases m
        case forEach =>
          apply Safe.get hw
          exact htasks (.callEach f a.receiver (numbered (w.elements r)) site) hw
            ⟨ha.1, hitems⟩
        case find =>
          apply Safe.get hw
          exact htasks (.callFind f a.receiver (numbered (w.elements r)) site) hw
            ⟨ha.1, hitems⟩
        case map =>
          apply Safe.get hw
          apply (htasks (.callMap f a.receiver (numbered (w.elements r)) [] site) hw
            ⟨ha.1, hitems, .nil⟩).bind
          intro xs w' hw' _ hxs
          exact .plain (.produce (.newList hw' hxs))
        case reduce =>
          apply Safe.get hw
          exact htasks (.callReduce f a.receiver (numbered (w.elements r)) (a.named "initalValue")
            site) hw ⟨ha.1, hitems, ha.named _⟩
        all_goals exact hmethod
  | map m =>
    have hmethod : Safe run below pending pending (fun v w => w.Admits v)
        (Plan.plain (produce fun w => w.mapMethod m a)) w := .plain (.produce (.mapMethod hw m ha))
    simp only [Task.plan]
    cases a.map? with
    | none => cases m <;> exact hmethod
    | some r =>
      have hitems := admitsItems_keyed hw r
      cases a.callback? with
      | none => cases m <;> exact hmethod
      | some f =>
        cases m
        case forEach =>
          apply Safe.get hw
          exact htasks (.callEach f a.receiver (keyed (w.contents r)) site) hw
            ⟨ha.1, hitems⟩
        case find =>
          apply Safe.get hw
          exact htasks (.callFind f a.receiver (keyed (w.contents r)) site) hw
            ⟨ha.1, hitems⟩
        all_goals exact hmethod

section Items

variable {f : FunctionRef} {receiver : Value} {items : List (Value × Value)}

theorem callEach_safe (hreceiver : w.Admits receiver) (hitems : AdmitsItems w items) :
    Safe run below pending pending (Task.callEach f receiver items site).Gives
      (Task.callEach f receiver items site).plan w := by
  cases items with
  | nil => exact .pure hw trivial
  | cons item rest =>
    obtain ⟨x, key⟩ := item
    apply (htasks (.callFunction f receiver [x, key] (site.hold (rest.map Prod.fst))) hw
      ⟨hreceiver, hitems.given⟩).bind
    intro _ w' hw' h _
    exact htasks (.callEach f receiver rest site) hw' ⟨hreceiver.mono h, hitems.tail.mono h⟩

theorem callFind_safe (hreceiver : w.Admits receiver) (hitems : AdmitsItems w items) :
    Safe run below pending pending (Task.callFind f receiver items site).Gives
      (Task.callFind f receiver items site).plan w := by
  cases items with
  | nil => exact .pure hw trivial
  | cons item rest =>
    obtain ⟨x, key⟩ := item
    apply (htasks (.callFunction f receiver [x, key] (site.hold (x :: rest.map Prod.fst))) hw
      ⟨hreceiver, hitems.given⟩).bind
    intro found w' hw' h _
    apply Safe.get hw'
    split
    · exact .pure hw' ((hitems _ List.mem_cons_self).1.mono h)
    · exact htasks (.callFind f receiver rest site) hw' ⟨hreceiver.mono h, hitems.tail.mono h⟩

theorem callMap_safe (hreceiver : w.Admits receiver) (hitems : AdmitsItems w items)
    {done : List Value} (hdone : w.AdmitsAll done) :
    Safe run below pending pending (Task.callMap f receiver items done site).Gives
      (Task.callMap f receiver items done site).plan w := by
  cases items with
  | nil => exact .pure hw hdone
  | cons item rest =>
    obtain ⟨x, key⟩ := item
    apply (htasks (.callFunction f receiver [x, key] (site.hold (done ++ rest.map Prod.fst))) hw
      ⟨hreceiver, hitems.given⟩).bind
    intro y w' hw' h hy
    exact htasks (.callMap f receiver rest (done ++ [y]) site) hw'
      ⟨hreceiver.mono h, hitems.tail.mono h, (hdone.mono h).append (.cons hy .nil)⟩

theorem callReduce_safe (hreceiver : w.Admits receiver) (hitems : AdmitsItems w items)
    {done : Value} (hdone : w.Admits done) :
    Safe run below pending pending (Task.callReduce f receiver items done site).Gives
      (Task.callReduce f receiver items done site).plan w := by
  cases items with
  | nil => exact .pure hw hdone
  | cons item rest =>
    obtain ⟨x, key⟩ := item
    apply (htasks (.callFunction f receiver [done, x, key] (site.hold (rest.map Prod.fst))) hw
      ⟨hreceiver, .cons hdone hitems.given⟩).bind
    intro y w' hw' h hy
    exact htasks (.callReduce f receiver rest y site) hw'
      ⟨hreceiver.mono h, hitems.tail.mono h, hy⟩

end Items

theorem callHost_safe (action : HostAction)
    {a : Arguments} (ha : a.Fits w) :
    Safe run below pending pending (Task.callHost action a site).Gives
      (Task.callHost action a site).plan w := by
  by_cases hrequest : action = .request
  · subst hrequest
    apply Safe.get hw
    apply (htasks (.perform (Request.ofScript (w.display (a.named "a"))
      (requestArgument w (a.named "b"))) site) hw trivial).bind
    intro reply w' hw' _ _
    exact .plain (.produce (.replyValue hw' reply))
  · have hfunction : Safe run below pending pending (fun v w => w.Admits v)
        (Plan.exiting (action == .stop) (hostFunction action a site)) w := by
      apply Safe.exiting hw
      · intro hidle
        exact .hostFunction hw ha site (by simpa using hidle)
      · intro hstop hpending
        obtain rfl : action = .stop := by simpa using hstop
        refine ⟨.nil, ?_, trivial⟩
        have hexit : w.process.isPending = true := hw.isPending.trans hpending
        simp only [hostFunction, bind_apply, update, World.exit, hexit, if_true]
        rfl
    cases action
    case request => exact absurd rfl hrequest
    all_goals exact hfunction

theorem beginStatement_safe (hsite : w.IsSite site.frame) (position : Position) :
    Safe run below pending pending (Task.beginStatement position site).Gives
      (Task.beginStatement position site).plan w := by
  apply Safe.get hw
  cases w.frame? site.frame with
  | none => exact .pure hw trivial
  | some f =>
    dsimp only
    split
    · exact .pure hw trivial
    · apply (Safe.plain (.noteStatement hw position hsite)).bind
      intro _ w' hw' _ _
      apply Safe.get hw'
      split
      · exact htasks (.pauseAt position site) hw' trivial
      · exact .pure hw' trivial

theorem pauseAt_safe (position : Position) :
    Safe run below pending pending (Task.pauseAt position site).Gives
      (Task.pauseAt position site).plan w := by
  apply Safe.get hw
  cases w.debugger.hook with
  | standard =>
    apply (Safe.plain (.arm hw false)).bind
    intro _ w' hw' _ _
    exact .plain (.endPause hw')
  | scripted actions =>
    apply (Safe.plain (.takeAction hw actions)).bind
    intro action w₁ hw₁ _ _
    have hanswer : ∀ injected w₂, w₂.Sealed pending →
        Safe run below pending pending (fun _ _ => True) (do
          let exit ← Plan.exiting (action.move == .exit) (makeMove action.move)
          Plan.plain (notePause position site.frame injected exit)
          Plan.plain endPause) w₂ := by
      intro injected w₂ hw₂
      have hmove : Safe run below pending pending (fun _ _ => True)
          (Plan.exiting (action.move == .exit) (makeMove action.move)) w₂ := by
        apply Safe.exiting hw₂
        · intro hidle
          exact .makeMove hw₂ (by simpa using hidle)
        · intro hexit hpending
          have hmove : action.move = .exit := by simpa using hexit
          rw [hmove]
          refine ⟨some (.ok ()), ?_, trivial⟩
          have hexit : w₂.process.isPending = true := hw₂.isPending.trans hpending
          simp only [makeMove, bind_apply, attempt, update, World.exit, hexit, if_true]
          rfl
      apply hmove.bind
      intro exit w₃ hw₃ _ _
      apply (Safe.plain (.notePause hw₃ position site.frame injected exit)).bind
      intro _ w₄ hw₄ _ _
      exact .plain (.endPause hw₄)
    have hnone : Safe run below pending pending (fun _ _ => True)
        (pure none : Plan (Option (Except ScriptError Unit))) w₁ := .pure hw₁ trivial
    cases hcode : action.code with
    | none =>
      apply hnone.bind
      intro injected w₂ hw₂ _ _
      exact hanswer injected w₂ hw₂
    | some code =>
      have hinjected : Safe run below pending pending (fun _ _ => True)
          (some <$> Plan.task (.injectLast code site)) w₁ :=
        (htasks (.injectLast code site) hw₁ trivial).map fun _ _ _ _ => trivial
      apply hinjected.bind
      intro injected w₂ hw₂ _ _
      exact hanswer injected w₂ hw₂

theorem injectInto_safe (code : String)
    {frame : FrameRef} (hframe : w.IsSite frame) :
    Safe run below pending pending (Task.injectInto code frame site).Gives
      (Task.injectInto code frame site).plan w := by
  apply (Safe.plain (.compile hw code)).bind
  intro compiled w₁ hw₁ h₁ _
  cases compiled with
  | error e => exact .pure hw₁ trivial
  | ok operation =>
    apply (Safe.plain (.fork hw₁ .call none (some true) (hframe.mono h₁) rfl)).bind
    intro injected w₂ hw₂ _ hinjected
    apply (htasks (.eval operation ((site.enter frame).enter injected)) hw₂ hinjected).attempt.bind
    intro outcome w₃ hw₃ _ _
    cases outcome with
    | ok v => exact .pure hw₃ trivial
    | error f => exact .plain (.raise hw₃ (.run f))

theorem injectLast_safe (code : String) :
    Safe run below pending pending (Task.injectLast code site).Gives
      (Task.injectLast code site).plan w := by
  apply Safe.get hw
  cases hactive : w.lastActive? site.things with
  | none => exact .pure hw trivial
  | some frame =>
    dsimp only
    split
    · exact htasks (.injectInto code frame site) hw (hw.lastActive_site hactive)
    · exact .pure hw trivial

/-- A program begins its run where none is under way. Whatever becomes of it, the run is ended. -/
theorem runProgram_safe (operation : Operation) :
    Safe run below pending pending (Task.runProgram operation site).Gives
      (Task.runProgram operation site).plan w := by
  apply Safe.get hw
  split
  · exact .pure hw trivial
  next hidle =>
    obtain rfl : pending = false := by
      rw [← hw.isPending]
      simpa using hidle
    have hprogram : Safe run below true true (fun _ _ => True) (do
        .step (fun _ => some .began) beginRun
        let global := (← Plan.plain get).configuration.global
        .attempt (.task (.eval operation (site.enter global)))) w := by
      apply (Safe.begin hw).bind
      intro _ w₁ hw₁ _ _
      apply Safe.get hw₁
      have houtcome := (htasks (.eval operation (site.enter w₁.configuration.global)) hw₁
        hw₁.global_site).attempt
      exact houtcome.mono fun _ _ _ _ => trivial
    apply hprogram.inProgram.bindChanging
    · right
      intro f w' hfault
      exact attempt_ne_fault _ hfault
    · intro outcome w₂ hw₂ _ _
      apply (Safe.ending hw₂).bind
      intro _ w₃ hw₃ _ _
      cases outcome with
      | ok v => exact .pure hw₃ trivial
      | error f => exact .plain (.raise hw₃ (.run f))

theorem runSource_safe (code : String) :
    Safe run below pending pending (Task.runSource code site).Gives
      (Task.runSource code site).plan w := by
  apply (Safe.plain (.compile hw code)).bind
  intro compiled w' hw' _ _
  cases compiled with
  | error e => exact .pure hw' trivial
  | ok operation => exact htasks (.runProgram operation site) hw' trivial

theorem perform_safe (request : Request) :
    Safe run below pending pending (Task.perform request site).Gives
      (Task.perform request site).plan w := by
  have hreply : ∀ {p : Plan (Except ScriptError Unit)}
      {held : Except ScriptError Unit → World → Prop},
      Safe run below pending pending held p w →
      Safe run below pending pending (fun _ _ => True) (Reply.ofResult <$> p) w :=
    fun hp => hp.map fun _ _ _ _ => trivial
  cases request with
  | run code => exact hreply (htasks (.runSource code site) hw trivial)
  | runTarget =>
    apply Safe.get hw
    dsimp only
    split
    next code _ => exact hreply (htasks (.runSource code site) hw trivial)
    · exact hreply (.plain (.raise hw _))
  | inject code =>
    apply Safe.get hw
    exact hreply (htasks (.injectInto code w.configuration.global site) hw hw.global_site)
  | injectLast code => exact hreply (htasks (.injectLast code site) hw trivial)
  | runPrepared =>
    apply Safe.get hw
    split
    · exact .pure hw trivial
    next operation _ => exact hreply (htasks (.runProgram operation site) hw trivial)
  | setTarget target => exact .rebuild hw target
  | exit =>
    apply Safe.exiting hw
    · intro hidle
      exact .perform hw .exit site (by simpa using hidle) (by simp)
    · intro _ hpending
      refine ⟨.done, ?_, trivial⟩
      have hexit : w.process.isPending = true := hw.isPending.trans hpending
      simp only [Run.perform, bind_apply, Run.attempt, Run.update, World.exit, hexit, if_true]
      rfl
  | _ => exact .plain (.perform hw _ site (by simp) (by simp))

/-- A task is safe if the tasks below it are. -/
theorem Task.plan_safe {α : Type} (t : Task α) (hfits : t.Fits w) :
    Safe run below pending pending t.Gives t.plan w := by
  cases t with
  | eval operation site => exact eval_safe htasks hw hfits operation
  | evalList operations done site => exact evalList_safe htasks hw hfits.1 operations hfits.2
  | evalEntries entries done site => exact evalEntries_safe htasks hw hfits.1 entries hfits.2
  | walk chain origin site => exact walk_safe htasks hw hfits.1 chain hfits.2
  | walkKey key rest origin site => exact walkKey_safe htasks hw hfits.1 key rest hfits.2
  | runBlock body site => exact runBlock_safe htasks hw hfits body
  | runBranches branches site => exact runBranches_safe htasks hw hfits branches
  | runWhile condition body site => exact runWhile_safe htasks hw hfits condition body
  | runFor items path origin body site =>
    exact runFor_safe htasks hw hfits.1 hfits.2.1 path hfits.2.2 body
  | callFunction f receiver given site => exact callFunction_safe htasks hw f hfits.1 hfits.2
  | invoke d scope receiver given site =>
    exact invoke_safe htasks hw d hfits.1 hfits.2.1 hfits.2.2
  | bindParameters parameters given site =>
    exact bindParameters_safe htasks hw hfits.1 parameters hfits.2
  | callBuiltin b a site => exact callBuiltin_safe htasks hw b hfits
  | callEach f receiver items site => exact callEach_safe htasks hw hfits.1 hfits.2
  | callFind f receiver items site => exact callFind_safe htasks hw hfits.1 hfits.2
  | callMap f receiver items done site =>
    exact callMap_safe htasks hw hfits.1 hfits.2.1 hfits.2.2
  | callReduce f receiver items done site =>
    exact callReduce_safe htasks hw hfits.1 hfits.2.1 hfits.2.2
  | callHost action a site => exact callHost_safe htasks hw action hfits
  | beginStatement position site => exact beginStatement_safe htasks hw hfits position
  | pauseAt position site => exact pauseAt_safe htasks hw position
  | injectInto code frame site => exact injectInto_safe htasks hw code hfits
  | injectLast code site => exact injectLast_safe htasks hw code
  | runProgram operation site => exact runProgram_safe htasks hw operation
  | runSource code site => exact runSource_safe htasks hw code
  | perform request site => exact perform_safe htasks hw request

end Plans

/-- Tasks are safe, whatever the bound on nested steps. -/
theorem trusted (n : Nat) : Trusted (Task.run n) (Task.course n) := by
  induction n with
  | zero =>
    intro α t pending w hw hfits
    constructor
    · change Account w.standing [] (reached (t.run 0 w)).standing
      rw [Task.run_zero]
      exact .nil w.standing
    · change Lands pending w t.Gives (t.run 0 w)
      rw [Task.run_zero]
      trivial
    · intro m hm
      cases hm
  | succ n ih =>
    intro α t pending w hw hfits
    have hplan := Task.plan_safe ih hw t hfits
    constructor
    · have haccount := hplan.account
      rw [← Task.run_succ] at haccount
      exact haccount
    · have hlands := hplan.lands
      rw [← Task.run_succ] at hlands
      exact hlands
    · exact hplan.inRun

end Run

end LineScript
