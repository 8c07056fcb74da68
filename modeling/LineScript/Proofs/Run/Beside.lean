import LineScript.Proofs.World.Detour
import LineScript.Run.Evaluation

/-!
# Steps in a frame and on the detour around it

A step that is taken in a frame in one world, and in a temporary frame behind it in an alike world,
gives the same and leaves the worlds alike. Main statements: this holds of every single step of a
run but the one that tells the host where it is called from, and of steps that are made of such
steps.
-/

namespace LineScript

/-- Code at one site runs where code at the other would, which may be on the detour. What else is in
use is not compared. -/
def Site.Beside (d : Detour) (s t : Site) : Prop := s.frame = d.home t.frame

/-- The frame in which code runs is kept. -/
theorem Site.lastActive?_eq (s : Site) {w : World} (hactive : w.process.lastActive = some s.frame) :
    w.lastActive? s.things = some s.frame := by
  have hkept : ∀ n, w.keeps (s.things ++ w.configured) n [.frame s.frame] = true := by
    intro n
    cases n with
    | zero => rfl
    | succ n => simp [World.keeps, Site.things]
  unfold World.lastActive?
  rw [hactive]
  simp only [hkept, if_true]

namespace World.Alike

variable {d : Detour} {v w : World} (h : v.Alike d w)

include h

theorem call_eq (r : FrameRef) :
    (v.frame? (d.home r)).bind (·.call) = (w.frame? r).bind (·.call) := by
  have hserves := h.serves r
  generalize v.frame? (d.home r) = f?, w.frame? r = g? at hserves
  cases hserves with
  | none => rfl
  | some hfg => exact hfg.call

theorem loop_eq (r : FrameRef) :
    (v.frame? (d.home r)).bind (·.loop) = (w.frame? r).bind (·.loop) := by
  have hserves := h.serves r
  generalize v.frame? (d.home r) = f?, w.frame? r = g? at hserves
  cases hserves with
  | none => rfl
  | some hfg => exact hfg.loop

theorem truthy_eq (x : Value) : v.truthy x = w.truthy x :=
  h.reads (f := fun w => w.truthy x) fun w b => truthy_against w b x

theorem display_eq (x : Value) : v.display x = w.display x :=
  h.reads (f := fun w => w.display x) fun w b => by rw [display_against]

theorem typeName_eq (x : Value) : v.typeName x = w.typeName x :=
  h.reads (f := fun w => w.typeName x) fun w b => typeName_against w b x

/-- Programs run in the same frame. -/
theorem home_global : d.home w.configuration.global = v.configuration.global :=
  (Detour.home_of_ne h.configured.2).trans h.global.symm

/-- A change that does not look at the backdrop and gives nothing. -/
theorem blind {g : World → World} (hg : ∀ w b, g (w.against b) = (g w).against b) :
    (g v).Alike d (g w) :=
  (h.change (g := fun w => ((), g w)) fun w b => by rw [hg]).2

/-- No frame that is made is the fork of the detour. -/
theorem ne_fork_of_fork {r : FrameRef} {kind : FrameKind} {isTemporary : Bool}
    {target : Option String} {isInjected : Option Bool} {made : FrameRef} {w' : World}
    (hmade : Run.produce (fun w => w.fork r kind isTemporary target isInjected) w = .ok made w') :
    made ≠ d.fork := by
  obtain ⟨-, hlate, -⟩ := h.fork r kind isTemporary target isInjected
  injection hmade with hmade
  rw [hmade] at hlate
  intro heq
  rw [heq] at hlate
  exact Nat.lt_irrefl _ hlate

/-- An entry in the variables of the same frame. -/
theorem insertInScope (r : FrameRef) (name : String) (x : Value) :
    World.Alike d
      (match v.frame? r with
        | some f => v.modifyMap f.scope fun m => m.insert name x
        | none => v)
      (match w.frame? r with
        | some f => w.modifyMap f.scope fun m => m.insert name x
        | none => w) := by
  have hrel := h.frames r
  generalize v.frame? r = f?, w.frame? r = g? at hrel
  cases hrel with
  | none => exact h
  | @some f g hfg =>
    dsimp only
    rw [hfg.scope]
    exact (h.aloof (.modifyMap () g.scope fun m => m.insert name x)).2

/-- New frames for programs to run in. -/
theorem freshFrames (target : String) :
    (Run.freshFrames target v).Alike d (Run.freshFrames target w) := by
  obtain ⟨hapi, hlate, hroot⟩ := h.rootFrame target
  have hne : (w.rootFrame target).1 ≠ d.fork := by
    intro heq
    rw [heq] at hlate
    exact Nat.lt_irrefl _ hlate
  obtain ⟨hglobal, hlater, hforked⟩ := hroot.fork (w.rootFrame target).1 .global false none none
  have hne' : ((w.rootFrame target).2.fork (w.rootFrame target).1 .global false none none).1 ≠
      d.fork := by
    intro heq
    rw [heq] at hlater
    exact Nat.lt_irrefl _ hlater
  rw [Detour.home_of_ne hne] at hglobal hforked
  have hkept : ∀ u : World, ∀ r : FrameRef,
      (u.fork r .global false none none).2.configuration = u.configuration := by
    intro u r
    unfold World.fork
    cases u.frame? r <;> rfl
  have hset := hforked.setConfigured target ⟨hne, hne'⟩
  rw [hkept, hkept] at hset
  unfold Run.freshFrames
  dsimp only
  rw [hapi, hglobal]
  exact hset

end World.Alike

namespace Run

variable {α β : Type} {d : Detour} {v w : World} {s t : Site}

/-- The same result, or the same reason to stop, in alike worlds. -/
inductive SameOutcome (d : Detour) :
    EStateM.Result Stop World α → EStateM.Result Stop World α → Prop where
  | ok (a : α) {v w : World} (worlds : v.Alike d w) : SameOutcome d (.ok a v) (.ok a w)
  | error (e : Stop) {v w : World} (worlds : v.Alike d w) :
      SameOutcome d (.error e v) (.error e w)

/-- A step from one world has the same outcome as another step from another world. -/
def Beside (d : Detour) (x y : Run α) (v w : World) : Prop := SameOutcome d (x v) (y w)

namespace Beside

theorem bind {x y : Run α} {k l : α → Run β} (h : Beside d x y v w)
    (hk : ∀ a v' w', v'.Alike d w' → Beside d (k a) (l a) v' w') :
    Beside d (x >>= k) (y >>= l) v w := by
  have hxy : SameOutcome d (x v) (y w) := h
  change SameOutcome d (EStateM.bind x k v) (EStateM.bind y l w)
  unfold EStateM.bind
  generalize x v = xv, y w = yw at hxy
  cases hxy with
  | ok a hworlds => exact hk a _ _ hworlds
  | error e hworlds => exact .error e hworlds

theorem attempt {x y : Run α} (h : Beside d x y v w) :
    Beside d (attempt x) (attempt y) v w := by
  have hxy : SameOutcome d (x v) (y w) := h
  unfold Beside Run.attempt
  generalize x v = xv, y w = yw at hxy
  cases hxy with
  | ok a hworlds => exact .ok _ hworlds
  | error e hworlds =>
    cases e with
    | fault f => exact .ok _ hworlds
    | exhausted => exact .error _ hworlds

theorem atLine (line : Nat) {x y : Run α} (h : Beside d x y v w) :
    Beside d (atLine line x) (atLine line y) v w := by
  have hxy : SameOutcome d (x v) (y w) := h
  unfold Beside Run.atLine
  generalize x v = xv, y w = yw at hxy
  cases hxy with
  | ok a hworlds => exact .ok _ hworlds
  | error e hworlds => cases e <;> exact .error _ hworlds

theorem looks {k l : World → Run α} (hk : Beside d (k v) (l w) v w) :
    Beside d (get >>= k) (get >>= l) v w := hk

theorem changes {f g : World → World} (h : (f v).Alike d (g w)) :
    Beside d (modify f) (modify g) v w := .ok () h

theorem makes {f g : World → α × World} (hfg : (f v).1 = (g w).1)
    (hworlds : (f v).2.Alike d (g w).2) : Beside d (produce f) (produce g) v w := by
  change SameOutcome d (.ok (f v).1 (f v).2) (.ok (g w).1 (g w).2)
  rw [hfg]
  exact .ok _ hworlds

variable (h : v.Alike d w)

include h

theorem gives (a : α) : Beside d (pure a) (pure a) v w := .ok a h

theorem stops (kind : FaultKind) : Beside d (fail kind : Run α) (fail kind) v w := .error _ h

theorem reads {f g : World → Except Fault α} (hfg : f v = g w) :
    Beside d (read f) (read g) v w := by
  unfold Beside read
  rw [hfg]
  cases g w with
  | ok a => exact .ok a h
  | error e => exact .error _ h

/-- A change that does not look at the backdrop. -/
theorem aloof {g : World → α × World} (hg : World.Aloof g) :
    Beside d (produce g) (produce g) v w := makes (h.aloof hg).1 (h.aloof hg).2

section Access

theorem readChain (path : Path) (origin : Option Value) (hsite : s.Beside d t) :
    Beside d (readChain path origin s) (readChain path origin t) v w := by
  cases origin with
  | some x =>
    exact reads h (h.reads (f := fun w => w.get x path) fun w b => World.get_against w b x path)
  | none =>
    refine reads h ?_
    rw [hsite]
    exact h.getVariable_eq t.frame path

theorem writeAt {find search : World → Except Fault World.Slot} (hfind : find v = search w)
    (x : Value) : Beside d (writeAt find x) (writeAt search x) v w :=
  (reads h hfind).bind fun slot _ _ h' => changes (h'.aloof (.write slot x)).2

theorem writeChain (path : Path) (origin : Option Value) (x : Value) (hsite : s.Beside d t) :
    Beside d (writeChain path origin x s) (writeChain path origin x t) v w := by
  cases origin with
  | some y =>
    exact writeAt h
      (h.reads (f := fun w => w.slot y path) fun w b => World.slot_against w b y path) x
  | none =>
    refine writeAt h ?_ x
    rw [hsite]
    exact h.variableSlot_eq t.frame path

theorem bindName (r : FrameRef) (name : String) (x : Value) :
    Beside d (bindName r name x) (bindName r name x) v w := changes (h.insertInScope r name x)

end Access

section Flow

/-- A frame behind the one in which code runs. -/
theorem fork (hsite : s.Beside d t) (kind : FrameKind) (isTemporary : Bool)
    (target : Option String) (isInjected : Option Bool) :
    Beside d (produce fun w => w.fork s.frame kind isTemporary target isInjected)
      (produce fun w => w.fork t.frame kind isTemporary target isInjected) v w := by
  obtain ⟨hmade, -, hworlds⟩ := h.fork t.frame kind isTemporary target isInjected
  rw [← hsite] at hmade hworlds
  exact makes hmade hworlds

theorem finishCall (x : Value) (hsite : s.Beside d t) :
    Beside d (finishCall s.frame x) (finishCall t.frame x) v w := by
  apply changes
  rw [hsite, h.call_eq]
  cases (w.frame? t.frame).bind (·.call) with
  | none => exact h
  | some c =>
    exact h.modifyFrame c (fun _ _ hfg => { hfg with isReturned := rfl, result := rfl })
      fun g => { Frame.SameMake.refl g with }

theorem callResult (r : FrameRef) : Beside d (callResult r) (callResult r) v w := by
  refine looks ?_
  have hrel := h.frames r
  generalize v.frame? r = f?, w.frame? r = g? at hrel
  cases hrel with
  | none => exact gives h _
  | some hfg =>
    rw [Option.map_some, hfg.result]
    exact gives h _

theorem beginRound (hsite : s.Beside d t) (hown : t.frame ≠ d.fork) :
    Beside d (modify fun w => w.beginRound s.frame) (modify fun w => w.beginRound t.frame) v w := by
  apply changes
  rw [hsite, Detour.home_of_ne hown]
  exact h.modifyFrame t.frame (fun _ _ hfg => { hfg with isContinued := rfl })
    fun g => { Frame.SameMake.refl g with }

end Flow

section Breakpoint

theorem endPause : Beside d endPause endPause v w := by
  apply changes
  rw [h.debugger.isArmed, h.process.isExit]
  split
  · exact h.setDebugger { h.debugger with mayStep := rfl }
  · exact h

theorem arm (armed : Bool) : Beside d (arm armed) (arm armed) v w :=
  changes (h.setDebugger { h.debugger with isArmed := rfl })

theorem grantStep : Beside d grantStep grantStep v w :=
  changes (h.setDebugger { h.debugger with mayStep := rfl })

theorem takeAction (actions : List HookAction) :
    Beside d (takeAction actions) (takeAction actions) v w := by
  have hnoted := h.setDebugger (a := { v.debugger with hook := .scripted actions.tail })
    (b := { w.debugger with hook := .scripted actions.tail }) { h.debugger with hook := rfl }
  exact (changes hnoted).bind fun _ _ _ h' => gives h' _

theorem exit : Beside d (update World.exit) (update World.exit) v w := by
  have hpending := h.process.isPending
  unfold Beside update World.exit
  cases hw : w.process.isPending with
  | true =>
    rw [if_pos (hpending.trans hw), if_pos rfl]
    exact .ok () (h.setProcess ⟨rfl, hpending, h.process.lastActive⟩)
  | false =>
    rw [hpending, hw]
    exact .error _ h

theorem makeMove (move : HookMove) : Beside d (makeMove move) (makeMove move) v w := by
  cases move with
  | step => exact (grantStep h).bind fun _ _ _ h' => gives h' _
  | resume => exact (arm h false).bind fun _ _ _ h' => gives h' _
  | exit => exact (exit h).attempt.bind fun _ _ _ h' => gives h' _
  | hold => exact gives h _

theorem notePause (position : Position) (injected : Option (Except ScriptError Unit))
    (exit : Option (Except Fault Unit)) (hsite : s.Beside d t) :
    Beside d (notePause position s.frame injected exit) (notePause position t.frame injected exit)
      v w := by
  apply changes
  have hserves := h.serves t.frame
  rw [hsite]
  generalize v.frame? (d.home t.frame) = f?, w.frame? t.frame = g? at hserves
  cases hserves with
  | none => exact h
  | some hfg =>
    refine h.setDebugger { h.debugger with pauses := ?_ }
    exact List.rel_append h.debugger.pauses (.cons ⟨rfl, rfl, rfl⟩ .nil)

end Breakpoint

section Program

theorem beginRun : Beside d beginRun beginRun v w := by
  apply changes
  obtain ⟨hapi, hglobal⟩ := h.configured
  have htable : v.configuration.table = w.configuration.table :=
    h.reads (f := fun w => w.configuration.table) fun _ _ => rfl
  have harguments : v.configuration.arguments = w.configuration.arguments :=
    h.reads (f := fun w => w.configuration.arguments) fun _ _ => rfl
  dsimp only
  rw [h.api, h.global, htable, harguments]
  have hbound := h.bindAll hapi (World.globalTable ++ w.configuration.table)
  obtain ⟨hlist, hmade⟩ := hbound.aloof (.newList (w.configuration.arguments.map .string))
  rw [hlist]
  have hnamed := hmade.insertInScope w.configuration.global "params"
    ((w.bindAll w.configuration.api (World.globalTable ++ w.configuration.table)).newList
      (w.configuration.arguments.map .string)).1
  exact hnamed.setProcess ⟨rfl, rfl, hnamed.process.lastActive⟩

theorem endRun : Beside d endRun endRun v w :=
  changes (h.setProcess ⟨h.process.isExit, rfl, rfl⟩)

theorem noteStatement (position : Position) (hsite : s.Beside d t) :
    Beside d (noteStatement position s.frame) (noteStatement position t.frame) v w := by
  apply changes
  have hplaced := h.setPositions s.frame t.frame position
  exact hplaced.setProcess { hplaced.process with lastActive := congrArg some hsite }

theorem unlessPending (locked : FaultKind) {change : World → World}
    (hchange : (change v).Alike d (change w)) :
    Beside d (unlessPending locked change) (unlessPending locked change) v w := by
  unfold Beside Run.unlessPending
  rw [h.process.isPending]
  split
  · exact .ok _ h
  · exact .ok _ hchange

theorem armIfPending (armed : Bool) : Beside d (armIfPending armed) (armIfPending armed) v w := by
  have htell : ∀ {v w : World}, v.Alike d w →
      Beside d (do return Reply.flag (← get).debugger.isArmed)
        (do return Reply.flag (← get).debugger.isArmed) v w := by
    intro v w h
    refine looks ?_
    rw [h.debugger.isArmed]
    exact gives h _
  refine looks ?_
  rw [h.process.isPending]
  cases w.process.isPending with
  | true => exact (arm h armed).bind fun _ _ _ h' => htell h'
  | false => exact htell h

theorem raise (e : ScriptError) : Beside d (raise e) (raise e) v w := by
  have hcollects : v.handlers.collects = w.handlers.collects :=
    h.reads (f := fun w => w.handlers.collects) fun _ _ => rfl
  unfold Beside Run.raise
  rw [hcollects]
  split
  · exact .ok _ (h.blind (g := fun w => { w with collected := w.collected ++ [e] }) fun _ _ => rfl)
  · exact .ok _ h

theorem compile (code : String) : Beside d (compile code) (compile code) v w := by
  have hhandlers : v.handlers = w.handlers := h.reads (f := fun w => w.handlers) fun _ _ => rfl
  have hmode : v.configuration.mode = w.configuration.mode :=
    h.reads (f := fun w => w.configuration.mode) fun _ _ => rfl
  have htarget : v.configuration.target = w.configuration.target :=
    h.reads (f := fun w => w.configuration.target) fun _ _ => rfl
  refine looks ?_
  rw [hhandlers, hmode, htarget]
  cases prepare w.handlers.library w.configuration.mode w.configuration.target code with
  | ok p =>
    have hnoted := h.blind
      (g := fun w => { w with recovered := w.recovered ++ p.errors ++ p.importErrors })
      fun _ _ => rfl
    exact (changes hnoted).bind fun _ _ _ h' => gives h' _
  | error e =>
    refine (raise h e).bind fun result _ _ h' => ?_
    cases result <;> exact gives h' _

end Program

section Host

theorem hostFunction {action : HostAction} (haction : action ≠ .location) (a : Arguments)
    (s t : Site) : Beside d (hostFunction action a s) (hostFunction action a t) v w := by
  cases action with
  | report =>
    have hlists : ∀ name, World.Aloof fun w =>
        (w.newList a.values).2.newList [.string name, a.named "a", (w.newList a.values).1] :=
      fun name => .seq (.newList a.values) fun all => .newList [.string name, a.named "a", all]
    exact aloof h (.choose (fun w b => World.typeName_against w b a.receiver) hlists)
  | typeOf =>
    refine looks ?_
    rw [h.typeName_eq]
    exact gives h _
  | toInteger => exact gives h _
  | isTruthy =>
    refine looks ?_
    rw [h.truthy_eq]
    exact gives h _
  | count =>
    refine looks ?_
    rw [h.reads (f := fun w => w.count? (a.named "a")) fun w b => World.count?_against w b _]
    exact gives h _
  | copy => exact aloof h (.copy _)
  | same =>
    refine looks ?_
    rw [h.reads (f := fun w => w.equal (a.named "a") (a.named "b"))
      fun w b => World.equal_against w b _ _]
    exact gives h _
  | arguments => exact aloof h (.newList _)
  | fail =>
    refine looks ?_
    rw [h.display_eq]
    exact stops h _
  | stop => exact (exit h).bind fun _ _ _ h' => gives h' _
  | location => exact absurd rfl haction
  | describe =>
    refine looks ?_
    rw [h.typeName_eq]
    exact gives h _
  | echo => exact gives h _
  | request => exact gives h _

theorem requestArgument_eq (x : Value) : requestArgument v x = requestArgument w x := by
  cases x <;> simp only [requestArgument, h.display_eq]

/-- A request that needs no other task. Those that do are exhausted at once. -/
theorem perform (r : Request) (s t : Site) :
    Beside d (Run.perform 1 r s) (Run.perform 1 r t) v w := by
  have htarget : v.configuration.target = w.configuration.target :=
    h.reads (f := fun w => w.configuration.target) fun _ _ => rfl
  cases r with
  | run code => exact .error _ h
  | runTarget =>
    have hhandlers : v.handlers = w.handlers := h.reads (f := fun w => w.handlers) fun _ _ => rfl
    refine looks ?_
    dsimp only
    rw [htarget, hhandlers]
    cases w.handlers.library.get? w.configuration.target with
    | some code => exact .error _ h
    | none => exact (raise h _).bind fun _ _ _ h' => gives h' _
  | inject code => exact .error _ h
  | injectLast code => exact .error _ h
  | runPrepared =>
    have hprepared : v.configuration.prepared = w.configuration.prepared :=
      h.reads (f := fun w => w.configuration.prepared) fun _ _ => rfl
    refine looks ?_
    rw [hprepared]
    cases w.configuration.prepared with
    | none => exact gives h _
    | some operation => exact .error _ h
  | prepare code =>
    refine (compile h code).bind fun c _ _ h' => ?_
    cases c with
    | error e => exact gives h' _
    | ok operation =>
      have hnoted := h'.blind (g := fun w => { w with
        configuration := { w.configuration with prepared := some operation } }) fun _ _ => rfl
      exact (changes hnoted).bind fun _ _ _ h'' => gives h'' _
  | get path =>
    have hread := h.getVariable_eq w.configuration.global (Path.parse path)
    rw [h.home_global] at hread
    refine (reads h hread).attempt.bind fun c _ _ h' => ?_
    cases c <;> exact gives h' _
  | set path value =>
    obtain ⟨hvalue, hmade⟩ := h.change (g := World.make [] value) fun w b =>
      World.make_against [] w b value
    refine (makes hvalue hmade).bind fun x v' w' h' => ?_
    have hslot := h'.variableSlot_eq w'.configuration.global (Path.parse path)
    rw [h'.home_global] at hslot
    refine (writeAt h' hslot x).attempt.bind fun c _ _ h'' => ?_
    cases c <;> exact gives h'' _
  | target =>
    refine looks ?_
    rw [htarget]
    exact gives h _
  | setTarget target => exact unlessPending h _ (h.freshFrames target)
  | setArguments arguments =>
    have hset := h.blind (g := fun w => { w with
      configuration := { w.configuration with arguments := arguments } }) fun _ _ => rfl
    exact (changes hset).bind fun _ _ _ h' => gives h' _
  | setTable table =>
    have hset := h.blind (g := fun w =>
      { (World.makeEntries [] table w).2 with
        configuration :=
          { (World.makeEntries [] table w).2.configuration with
            table := (OrderedMap.ofList (World.makeEntries [] table w).1).entries } })
      fun w b => by
        rw [World.makeEntries_against]
        rfl
    exact unlessPending h _ hset
  | setHandlers handlers =>
    have hset := h.blind (g := fun w => { w with handlers := handlers, collected := [] })
      fun _ _ => rfl
    exact unlessPending h _ hset
  | setHook hook => exact unlessPending h _ (h.setDebugger { h.debugger with hook := rfl })
  | breakpoint armed => exact (arm h armed).bind fun _ _ _ h' => gives h' _
  | step => exact (grantStep h).bind fun _ _ _ h' => gives h' _
  | isArmed =>
    refine looks ?_
    rw [h.debugger.isArmed]
    exact gives h _
  | pause => exact armIfPending h true
  | resume => exact armIfPending h false
  | exit =>
    refine (exit h).attempt.bind fun c _ _ h' => ?_
    cases c <;> exact gives h' _
  | isPending =>
    refine looks ?_
    dsimp only
    rw [h.process.isPending]
    exact gives h _
  | takeRecovered =>
    have herrors : v.recovered = w.recovered := h.reads (f := fun w => w.recovered) fun _ _ => rfl
    have htaken := h.blind (g := fun w => { w with recovered := [] }) fun _ _ => rfl
    refine looks ?_
    dsimp only
    rw [herrors]
    exact (changes htaken).bind fun _ _ _ h' => gives h' _
  | takeCollected =>
    have herrors : v.collected = w.collected := h.reads (f := fun w => w.collected) fun _ _ => rfl
    have htaken := h.blind (g := fun w => { w with collected := [] }) fun _ _ => rfl
    refine looks ?_
    dsimp only
    rw [herrors]
    exact (changes htaken).bind fun _ _ _ h' => gives h' _
  | countCollected =>
    refine looks ?_
    rw [h.reads (f := fun w => w.collected.length) fun _ _ => rfl]
    exact gives h _
  | globalFrame =>
    refine looks ?_
    rw [h.global]
    exact gives h _
  | unknown => exact gives h _

end Host

end Beside

end Run

end LineScript
