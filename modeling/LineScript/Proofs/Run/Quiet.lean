import LineScript.Proofs.Run.Matching

/-!
# Steps that take no note of control flow

Reading and writing variables, beginning a statement, calling functions of the host and answering
requests in the middle of a run neither take note of control flow nor go by such notes, as long as
nothing interferes with the run.
-/

namespace LineScript

namespace Run

variable {α β : Type} {pending : Bool}

namespace Quiet

theorem writeAt {find : World → Except Fault World.Slot}
    (hfind : ∀ w : World, find w.calm = find w) (x : Value) : Quiet pending (writeAt find x) :=
  bind (read hfind) fun s => aloof (.write s x)

theorem readChain (path : Path) (origin : Option Value) (site : Site) :
    Quiet pending (readChain path origin site) := by
  cases origin with
  | some v => exact read fun w => by rw [World.get_withFrames]
  | none => exact read fun w => World.getFrom_calm w _ _ _

theorem writeChain (path : Path) (origin : Option Value) (x : Value) (site : Site) :
    Quiet pending (writeChain path origin x site) := by
  cases origin with
  | some v => exact writeAt (fun w => by rw [World.slot_withFrames]) x
  | none => exact writeAt (fun w => World.slotFrom_calm w _ _ _) x

/-- A change that goes by a frame, if it was made, and by none of its notes. -/
theorem atFrame (frame : FrameRef) {g : Frame → World → World} {x : Run Unit}
    (hsome : ∀ w f, w.frame? frame = some f → x w = .ok () (g f w))
    (hnone : ∀ w, w.frame? frame = none → x w = .ok () w)
    (hg : ∀ f, World.Frameless fun w => ((), g f w)) (hcalm : ∀ f, g f.calm = g f) :
    Quiet pending x := by
  intro w hw
  have hframe := w.frame?_calm frame
  unfold Structured.step
  cases hf : w.frame? frame with
  | none =>
    rw [hf] at hframe
    rw [hnone w hf, hnone w.calm hframe]
    exact pure () w hw
  | some f =>
    rw [hf] at hframe
    rw [hsome w f hf, hsome w.calm f.calm hframe, hcalm]
    exact frameless (hg f) w hw

theorem bindName (frame : FrameRef) (name : String) (v : Value) :
    Quiet pending (bindName frame name v) := by
  refine atFrame frame (fun w f hf => ?_) (fun w hf => ?_)
    (fun f => (World.Aloof.modifyMap () f.scope fun m => m.insert name v).frameless) fun _ => rfl
  all_goals
    refine congrArg (EStateM.Result.ok ()) ?_
    dsimp only
    rw [hf]

theorem arm (armed : Bool) : Quiet pending (arm armed) :=
  modify (fun _ _ => rfl) (fun _ => rfl) fun _ => rfl

theorem grantStep : Quiet pending grantStep := modify (fun _ _ => rfl) (fun _ => rfl) fun _ => rfl

/-- What follows the next answer to a pause. -/
theorem takeAction {actions : List HookAction} {k : HookAction → Run β}
    (hk : Quiet pending (k (actions.headD ⟨none, .step⟩))) :
    Quiet pending (takeAction actions >>= k) := by
  have htake : Quiet pending (Run.produce fun w : World =>
      ((), { w with debugger := { w.debugger with hook := .scripted actions.tail } })) :=
    modify (fun _ _ => rfl) (fun _ => rfl) fun _ => rfl
  exact htake.bind (k := fun _ => k (actions.headD ⟨none, .step⟩)) fun _ => hk

theorem endPause : Quiet pending endPause := by
  refine modify (fun w h => ?_) (fun w => ?_) fun w => ?_
  · change (if (w.debugger.isArmed && !w.process.isExit) = true then _ else _) = _
    split <;> rfl
  all_goals split <;> rfl

theorem kept_position (w : World) (r : FrameRef) (position : Position) :
    w.Kept (w.modifyFrame r fun f => { f with position := position }) := by
  intro s f _ hf
  rw [World.frame?_modifyFrame, hf]
  by_cases hrs : r = s
  · exact ⟨position, by rw [if_pos hrs, Option.map_some]⟩
  · exact ⟨f.position, by rw [if_neg hrs]⟩

theorem noteStatement (position : Position) (frame : FrameRef) :
    Quiet pending (noteStatement position frame) := by
  refine change (g := fun w =>
    let placed := w.modifyFrame frame fun f => { f with position := position }
    ((), { placed with process := { placed.process with lastActive := some frame } }))
    (fun w => ?_) (fun _ => rfl) (fun _ => rfl) (fun _ => rfl)
    fun w => kept_position w frame position
  have hplaced := w.modifyFrame_calm (g := fun f => { f with position := position })
    (fun _ => rfl) frame
  exact congrArg (fun placed : World =>
    ((), { placed with process := { placed.process with lastActive := some frame } })) hplaced

theorem notePause (position : Position) (frame : FrameRef)
    (injected : Option (Except ScriptError Unit)) (exit : Option (Except Fault Unit)) :
    Quiet pending (notePause position frame injected exit) := by
  refine atFrame frame (g := fun f w =>
    let p : Pause := ⟨position, f.kind, f.target, injected, exit⟩
    { w with debugger := { w.debugger with pauses := w.debugger.pauses ++ [p] } })
    (fun w f hf => ?_) (fun w hf => ?_) (fun f => ⟨fun _ _ => rfl, fun _ => rfl, fun _ => rfl⟩)
    fun _ => rfl
  all_goals
    refine congrArg (EStateM.Result.ok ()) ?_
    dsimp only
    rw [hf]

theorem raise (e : ScriptError) : Quiet pending (raise e) := by
  have hraise : Run.raise e = MonadState.get >>= fun w : World =>
      if w.handlers.collects then
        Run.produce (fun w => ((), { w with collected := w.collected ++ [e] })) >>= fun _ =>
          Pure.pure (.ok ())
      else Pure.pure (.error e) := by
    funext w
    change (if w.handlers.collects = true then _ else _) =
      (if w.handlers.collects = true then _ else _ : Run (Except ScriptError Unit)) w
    split <;> rfl
  rw [hraise]
  refine get (fun _ => rfl) fun w => ?_
  split
  · exact bind (modify (fun _ _ => rfl) (fun _ => rfl) fun _ => rfl) fun _ => pure _
  · exact pure _

theorem compile (code : String) : Quiet pending (compile code) := by
  refine get (fun w => rfl) fun w => ?_
  cases prepare w.handlers.library w.configuration.mode w.configuration.target code with
  | ok p => exact bind (modify (fun _ _ => rfl) (fun _ => rfl) fun _ => rfl) fun _ => pure _
  | error e =>
    refine bind (raise e) fun result => ?_
    cases result <;> exact pure _

/-- A step that goes by whether a run is under way. -/
theorem ifPending {k l : Run α} (hk : pending = true → Quiet pending k)
    (hl : pending = false → Quiet pending l) :
    Quiet pending (MonadState.get >>= fun w : World => if w.process.isPending then k else l) := by
  intro w hw
  change Matches (Gives pending w) ((if w.process.isPending = true then k else l) w)
    (Structured.step (if w.process.isPending = true then k else l) w.calm)
  rw [hw.isPending]
  cases pending with
  | true => exact hk rfl w hw
  | false => exact hl rfl w hw

theorem unlessPending (locked : FaultKind) {g : World → World}
    (hg : Quiet pending (produce fun w => ((), g w))) :
    Quiet pending (unlessPending locked g) := by
  have hunless : Run.unlessPending locked g = MonadState.get >>= fun w : World =>
      if w.process.isPending then Pure.pure (Reply.fault (.of locked))
      else produce (fun w => ((), g w)) >>= fun _ => Pure.pure Reply.done := by
    funext w
    change (if w.process.isPending = true then _ else _) =
      (if w.process.isPending = true then _ else _ : Run Reply) w
    split <;> rfl
  rw [hunless]
  exact ifPending (fun _ => pure _) fun _ => bind hg fun _ => pure _

/-- A step that gives a fixed answer and changes nothing. -/
theorem idle {x : Run α} {a : α} (h : ∀ w : World, w.process.isPending = pending → x w = .ok a w) :
    Quiet pending x := by
  intro w hw
  have hcalm : Structured.step x w.calm = .ok a w.calm := by
    unfold Structured.step
    rw [h w.calm hw.isPending]
  rw [h w hw.isPending, hcalm]
  exact .result ⟨rfl, hw, .refl w⟩

theorem armIfPending (armed : Bool) : Quiet pending (armIfPending armed) := by
  refine ifPending (fun _ => ?_) fun _ => ?_
  · exact bind (arm armed) fun _ => get (fun _ => rfl) fun w => pure _
  · exact get (fun _ => rfl) fun w => pure _

theorem exit_idle {w : World} (h : w.process.isPending = false) :
    update World.exit w = .error (.fault (.of .noRunningProcess)) w := by
  simp [update, World.exit, h]

theorem exit (hpending : pending = false) : Quiet pending (update World.exit) := by
  intro w hw
  have h := hw.isPending.trans hpending
  rw [Structured.step, exit_idle h, exit_idle (w := w.calm) h]
  exact .fault _ w

theorem freshFrames (target : String) :
    Quiet pending (produce fun w => ((), freshFrames target w)) := by
  have hfork := fun w : World =>
    (w.rootFrame target).2.fork_same (w.rootFrame target).1 .global false none none
  refine change (fun w => ?_) (fun w => congrArg Process.isExit (hfork w).1)
    (fun w => congrArg Process.isPending (hfork w).1) (fun w => (hfork w).2) fun w => ?_
  · dsimp only [Run.freshFrames]
    rw [World.rootFrame_calm, World.fork_calm]
    rfl
  · exact (w.kept_rootFrame target).trans (World.kept_fork _ _ _ _ _ _)

theorem injectLast (hpending : pending = false) (n : Nat) (code : String) (site : Site) :
    Quiet pending (injectLast n code site) := by
  cases n with
  | zero =>
    rw [Run.injectLast]
    exact exhausted
  | succ n =>
    rw [Run.injectLast]
    refine idle (a := .error (.run (.of .cannotInject))) fun w hw => ?_
    rw [hpending] at hw
    rw [get_bind_apply]
    cases w.lastActive? site.things with
    | none => rfl
    | some frame =>
      simp only [hw]
      rfl

theorem runProgram (hpending : pending = true) (n : Nat) (operation : Operation) (site : Site) :
    Quiet pending (runProgram n operation site) := by
  cases n with
  | zero =>
    rw [Run.runProgram]
    exact exhausted
  | succ n =>
    rw [Run.runProgram]
    refine ifPending (fun _ => pure _) fun h => ?_
    rw [h] at hpending
    cases hpending

theorem runSource (hpending : pending = true) (n : Nat) (code : String) (site : Site) :
    Quiet pending (runSource n code site) := by
  cases n with
  | zero =>
    rw [Run.runSource]
    exact exhausted
  | succ n =>
    rw [Run.runSource]
    refine bind (compile code) fun result => ?_
    cases result with
    | error e => exact pure _
    | ok operation => exact runProgram hpending n operation site

theorem ofScript_set {name : String} {a : RequestArgument} {path : String} {value : Description}
    (h : Request.ofScript name a = .set path value) : value = .nil := by
  unfold Request.ofScript at h
  split at h <;> cases h
  rfl

theorem ofScript_setTable {name : String} {a : RequestArgument}
    {table : List (String × Description)} (h : Request.ofScript name a = .setTable table) :
    table = [] := by
  unfold Request.ofScript at h
  split at h <;> cases h
  rfl

theorem read_fault {f : World → Except Fault α} {w w' : World} {e : Fault}
    (h : Run.read f w = .error (.fault e) w') : w' = w := by
  unfold Run.read at h
  split at h <;> cases h
  rfl

theorem update_fault {f : World → Except Fault World} {w w' : World} {e : Fault}
    (h : update f w = .error (.fault e) w') : w' = w := by
  unfold update at h
  split at h <;> cases h
  rfl

theorem writeAt_fault {find : World → Except Fault World.Slot} {x : Value} {w w' : World}
    {e : Fault} (h : Run.writeAt find x w = .error (.fault e) w') : w' = w := by
  rw [Run.writeAt, bind_apply] at h
  cases hread : Run.read find w with
  | ok slot w₁ =>
    rw [hread] at h
    cases h
  | error d w₁ =>
    rw [hread] at h
    cases h
    exact read_fault hread

/-- What a script asks of a session in the middle of a run changes nothing about control flow,
unless it interferes. -/
theorem perform {name : String} {a : RequestArgument}
    (h : (Request.ofScript name a).interferes pending = false) (n : Nat) (site : Site) :
    Quiet pending (perform n (Request.ofScript name a) site) := by
  cases n with
  | zero =>
    rw [Run.perform]
    exact exhausted
  | succ n =>
    generalize hrequest : Request.ofScript name a = request at h
    cases request <;> rw [Run.perform]
    case run code => exact map (runSource (by simpa [Request.interferes] using h) n code site) _
    case runTarget =>
      refine get (fun _ => rfl) fun w => ?_
      dsimp only
      split
      · exact map (runSource (by simpa [Request.interferes] using h) n _ site) _
      · exact map (raise _) _
    case inject code => cases h
    case injectLast code => exact map (injectLast h n code site) _
    case prepare code =>
      refine bind (compile code) fun result => ?_
      cases result with
      | error e => exact pure _
      | ok operation =>
        exact bind (modify (fun _ _ => rfl) (fun _ => rfl) fun _ => rfl) fun _ => pure _
    case runPrepared =>
      refine get (fun _ => rfl) fun w => ?_
      split
      · exact pure _
      · exact map (runProgram (by simpa [Request.interferes] using h) n _ site) _
    case get path =>
      refine bind (attempt (read fun w => ?_) fun w f w' hw => ?_) fun result => ?_
      · exact World.getFrom_calm w _ _ _
      · exact read_fault hw
      · cases result <;> exact pure _
    case set path value =>
      obtain rfl := ofScript_set hrequest
      refine bind (aloof (.keep Value.nil)) fun v => ?_
      refine bind (attempt (writeAt (fun w => ?_) v) fun w f w' hw => ?_) fun result => ?_
      · exact World.slotFrom_calm w _ _ _
      · exact writeAt_fault hw
      · cases result <;> exact pure _
    case target => exact get (fun _ => rfl) fun w => pure _
    case setTarget target => exact unlessPending _ (freshFrames target)
    case setArguments arguments =>
      exact bind (modify (fun _ _ => rfl) (fun _ => rfl) fun _ => rfl) fun _ => pure _
    case setTable table =>
      obtain rfl := ofScript_setTable hrequest
      exact unlessPending _ (modify (fun _ _ => rfl) (fun _ => rfl) fun _ => rfl)
    case setHandlers handlers =>
      exact unlessPending _ (modify (fun _ _ => rfl) (fun _ => rfl) fun _ => rfl)
    case setHook hook =>
      exact unlessPending _ (modify (fun _ _ => rfl) (fun _ => rfl) fun _ => rfl)
    case breakpoint armed => exact bind (arm armed) fun _ => pure _
    case step => exact bind grantStep fun _ => pure _
    case isArmed => exact get (fun _ => rfl) fun w => pure _
    case pause => exact armIfPending true
    case resume => exact armIfPending false
    case exit =>
      refine bind (attempt (exit h) fun w f w' hw => ?_) fun result => ?_
      · exact update_fault hw
      · cases result <;> exact pure _
    case isPending => exact get (fun _ => rfl) fun w => pure _
    case takeRecovered =>
      refine get (fun _ => rfl) fun w => ?_
      exact bind (modify (fun _ _ => rfl) (fun _ => rfl) fun _ => rfl) fun _ => pure _
    case takeCollected =>
      refine get (fun _ => rfl) fun w => ?_
      exact bind (modify (fun _ _ => rfl) (fun _ => rfl) fun _ => rfl) fun _ => pure _
    case countCollected => exact get (fun _ => rfl) fun w => pure _
    case globalFrame => exact get (fun _ => rfl) fun w => pure _
    case unknown => exact pure _

theorem hostFunction {action : HostAction} (h : action = .stop → pending = false) (a : Arguments)
    (site : Site) : Quiet pending (hostFunction action a site) := by
  cases action
  case report =>
    refine aloof (.choose (c := fun w => w.typeName a.receiver)
      (fun w b => World.typeName_against w b _)
      (g := fun kind w => (w.newList a.values).2.newList
        [.string kind, a.named "a", (w.newList a.values).1]) fun kind => ?_)
    exact .seq (.newList a.values) fun all => .newList [.string kind, a.named "a", all]
  case typeOf => exact get (fun w => by rw [World.typeName_withFrames]) fun w => pure _
  case toInteger => exact pure _
  case isTruthy => exact get (fun w => by rw [World.truthy_withFrames]) fun w => pure _
  case count => exact get (fun w => by rw [World.count?_withFrames]) fun w => pure _
  case copy => exact aloof (.copy _)
  case same => exact get (fun w => by rw [World.equal_withFrames]) fun w => pure _
  case arguments => exact aloof (.newList _)
  case fail => exact get (fun w => by rw [World.display_withFrames]) fun w => Quiet.fail _
  case stop => exact bind (exit (h rfl)) fun _ => pure _
  case location => exact get (fun w => by rw [World.location_calm]) fun w => pure _
  case describe => exact get (fun w => by rw [World.typeName_withFrames]) fun w => pure _
  case echo => exact pure _
  case request => exact pure _

theorem makeMove {move : HookMove} (h : move = .exit → pending = false) :
    Quiet pending (makeMove move) := by
  cases move with
  | step => exact bind grantStep fun _ => pure none
  | resume => exact bind (arm false) fun _ => pure none
  | hold => exact pure none
  | exit =>
    exact bind (attempt (exit (h rfl)) fun w f w' hw => update_fault hw) fun result => pure _

end Quiet

/-- A pause is made the same in both runs, unless the answer to it interferes. -/
theorem pauseAt_matches {w : World} (hw : w.Steady pending)
    (h : ∀ actions, w.debugger.hook = .scripted actions → pending = true →
      (actions.headD ⟨none, .step⟩).code = none ∧ (actions.headD ⟨none, .step⟩).move ≠ .exit)
    (n : Nat) (position : Position) (site : Site) :
    Matches (Gives pending w) (pauseAt n position site w)
      (Structured.step (pauseAt n position site) w.calm) := by
  cases n with
  | zero =>
    rw [pauseAt]
    exact Quiet.exhausted w hw
  | succ n =>
    rw [pauseAt]
    refine Quiet.getAt rfl ?_
    dsimp only
    cases hhook : w.debugger.hook with
    | standard => exact (Quiet.arm false).bind (fun _ => Quiet.endPause) w hw
    | scripted actions =>
      have haction := h actions hhook
      refine Quiet.takeAction ?_ w hw
      generalize actions.headD ⟨none, .step⟩ = action at haction
      have hmove : Quiet pending (makeMove action.move) := by
        apply Quiet.makeMove
        intro hexit
        cases pending with
        | false => rfl
        | true => exact absurd hexit (haction rfl).2
      have hend : ∀ injected, Quiet pending (makeMove action.move >>= fun exit =>
          notePause position site.frame injected exit >>= fun _ => endPause) :=
        fun injected => hmove.bind fun exit =>
          (Quiet.notePause position site.frame injected exit).bind fun _ => Quiet.endPause
      cases hcode : action.code with
      | none => exact (Quiet.pure none).bind hend
      | some code =>
        -- Without a run under way, code that is handed over is only turned down.
        have hidle : pending = false := by
          cases pending with
          | false => rfl
          | true => cases hcode.symm.trans (haction rfl).1
        exact ((Quiet.injectLast hidle n code site).map some).bind hend

theorem interferesAt_calm (w : World) (r : FrameRef) :
    w.calm.interferesAt r = w.interferesAt r := by
  have hdebugger : w.calm.debugger = w.debugger := rfl
  have hprocess : w.calm.process = w.process := rfl
  simp only [World.interferesAt, World.frame?_calm, hdebugger, hprocess]
  cases w.frame? r <;> cases w.debugger.hook <;> rfl

/-- A statement begins the same in both runs, unless the answer to a pause in front of it
interferes. -/
theorem beginStatement_same (n : Nat) (position : Position) (site : Site) :
    Same pending site.frame (beginStatement n position site)
      (Structured.beginStatement n position site) := by
  intro w hw hr
  obtain ⟨f, hf⟩ := Option.isSome_iff_exists.1 hr
  rw [Structured.beginStatement, get_bind_apply, interferesAt_calm]
  cases hi : w.interferesAt site.frame with
  | true => exact Matches.interference _ _
  | false =>
    rw [if_neg (by simp)]
    cases n with
    | zero =>
      rw [beginStatement]
      exact Quiet.exhausted w hw
    | succ n =>
      rw [beginStatement]
      refine Quiet.getAt (by rw [World.frame?_calm, hf]; rfl) ?_
      rw [hf]
      dsimp only
      by_cases hinjected : f.isInjected = true
      · rw [if_pos hinjected]
        exact Quiet.pure () w hw
      · rw [if_neg hinjected, step_bind]
        have hnote := (Quiet.noteStatement position site.frame w hw).and
          (P := fun w' => w'.debugger = w.debugger) fun a w' hnoted => by cases hnoted; rfl
        refine hnote.bind ?_
        rintro _ _ w' ⟨⟨-, hw', hkept⟩, hdebugger⟩
        refine Matches.mono (Quiet.getAt rfl ?_) fun _ _ _ h => h.after hkept
        split
        next harmed =>
          refine pauseAt_matches hw' (fun actions hhook hpending => ?_) n position site
          rw [hdebugger] at hhook harmed
          have hp := hw.isPending.trans hpending
          simpa [World.interferesAt, hf, hhook, hinjected, harmed, hp] using hi
        · exact Quiet.pure () w' hw'

/-- A request of a script is answered the same in both runs, unless it interferes. -/
theorem answer_same (n : Nat) (name : String) (a : RequestArgument) (site : Site) (r : FrameRef) :
    Same pending r (perform n (Request.ofScript name a) site)
      (Structured.answer n (Request.ofScript name a) site) := by
  intro w hw _
  change Matches (Gives pending w) _ ((if (Request.ofScript name a).interferes
    w.process.isPending = true then _
    else Structured.step (perform n (Request.ofScript name a) site) : Structured Reply) w.calm)
  rw [hw.isPending]
  cases h : (Request.ofScript name a).interferes pending with
  | true => exact Matches.interference _ _
  | false => exact Quiet.perform h n site w hw

/-- A function of the host is called the same in both runs, unless it interferes. -/
theorem callHost_same (n : Nat) (action : HostAction) (a : Arguments) (site : Site) (r : FrameRef) :
    Same pending r (callHost n action a site) (Structured.callHost n action a site) := by
  cases n with
  | zero =>
    rw [callHost, Structured.callHost]
    exact .exhausted
  | succ n =>
    cases action
    case stop =>
      intro w hw _
      simp only [callHost, Structured.callHost]
      change Matches (Gives pending w) _ ((if w.process.isPending = true then _
        else Structured.step (hostFunction .stop a site) : Structured Value) w.calm)
      rw [hw.isPending]
      cases pending with
      | true => exact Matches.interference _ _
      | false => exact Quiet.hostFunction (fun _ => rfl) a site w hw
    case request =>
      rw [callHost, Structured.callHost]
      refine .get fun w => ?_
      have hargument : requestArgument w.calm (a.named "b") = requestArgument w (a.named "b") := by
        cases a.named "b" <;> simp only [requestArgument, World.display_withFrames]
      rw [World.display_withFrames, hargument]
      exact (answer_same n _ _ site r).bind fun reply => (Quiet.aloof (.replyValue reply)).same r
    all_goals
      simp only [callHost, Structured.callHost]
      exact (Quiet.hostFunction (by simp) a site).same r

end Run

end LineScript
