import LineScript.Proofs.Run.Matching
import LineScript.Run.Evaluation

/-!
# The course of a run

A run is made of tasks. Each task has a plan, made of single steps and of other tasks, and the
course of a task lists all its steps, those of the tasks below it included, with the world behind
each. Main statement: a task whose bound is not used up does what its plan says, with one less for
the tasks in it.
-/

namespace LineScript

namespace Run

/-- What a step of a run may be noted for. -/
inductive Event where
  /-- A program begins to run. -/
  | began
  /-- The program has run to its end or to a fault. -/
  | ended
  /-- The program is asked to end. -/
  | exited
  /-- The frames in which programs run are replaced. -/
  | rebuilt
deriving DecidableEq

/-- A step, with the world behind it. -/
structure Moment where
  event : Option Event
  /-- Whether the step is one of those by which a program runs. -/
  inRun : Bool
  world : World

/-- The moment as one of a program that runs. -/
def Moment.within (m : Moment) : Moment := { m with inRun := true }

/-- What a run is made of, by what it gives. The bound on nested steps is left out. -/
inductive Task : Type → Type where
  | eval (operation : Operation) (site : Site) : Task Value
  | evalList (operations : List Operation) (done : List Value) (site : Site) : Task (List Value)
  | evalEntries (entries : List (String × Operation)) (done : OrderedMap Value) (site : Site) :
      Task (OrderedMap Value)
  | walk (chain : List Segment) (origin : Option Value) (site : Site) :
      Task (Path × Option Value)
  | walkKey (key : String) (rest : List Segment) (origin : Option Value) (site : Site) :
      Task (Path × Option Value)
  | runBlock (body : List Statement) (site : Site) : Task Unit
  | runBranches (branches : List Branch) (site : Site) : Task Unit
  | runWhile (condition : Operation) (body : List Statement) (site : Site) : Task Unit
  | runFor (items : List World.Item) (path : Path) (origin : Option Value) (body : List Statement)
      (site : Site) : Task Unit
  | callFunction (f : FunctionRef) (receiver : Value) (given : List Value) (site : Site) :
      Task Value
  | invoke (d : FunctionDeclaration) (scope : FrameRef) (receiver : Value) (given : List Value)
      (site : Site) : Task Value
  | bindParameters (parameters : List FormalParameter) (given : List Value) (site : Site) :
      Task Unit
  | callBuiltin (b : Builtin) (a : Arguments) (site : Site) : Task Value
  | callEach (f : FunctionRef) (receiver : Value) (items : List (Value × Value)) (site : Site) :
      Task Value
  | callFind (f : FunctionRef) (receiver : Value) (items : List (Value × Value)) (site : Site) :
      Task Value
  | callMap (f : FunctionRef) (receiver : Value) (items : List (Value × Value))
      (done : List Value) (site : Site) : Task (List Value)
  | callReduce (f : FunctionRef) (receiver : Value) (items : List (Value × Value)) (done : Value)
      (site : Site) : Task Value
  | callHost (action : HostAction) (a : Arguments) (site : Site) : Task Value
  | beginStatement (position : Position) (site : Site) : Task Unit
  | pauseAt (position : Position) (site : Site) : Task Unit
  | injectInto (code : String) (frame : FrameRef) (site : Site) : Task (Except ScriptError Unit)
  | injectLast (code : String) (site : Site) : Task (Except ScriptError Unit)
  | runProgram (operation : Operation) (site : Site) : Task (Except ScriptError Unit)
  | runSource (code : String) (site : Site) : Task (Except ScriptError Unit)
  | perform (request : Request) (site : Site) : Task Reply

/-- A task with a bound on nested steps. -/
def Task.run {α : Type} (n : Nat) : Task α → Run α
  | .eval operation site => Run.eval n operation site
  | .evalList operations done site => Run.evalList n operations done site
  | .evalEntries entries done site => Run.evalEntries n entries done site
  | .walk chain origin site => Run.walk n chain origin site
  | .walkKey key rest origin site => Run.walkKey n key rest origin site
  | .runBlock body site => Run.runBlock n body site
  | .runBranches branches site => Run.runBranches n branches site
  | .runWhile condition body site => Run.runWhile n condition body site
  | .runFor items path origin body site => Run.runFor n items path origin body site
  | .callFunction f receiver given site => Run.callFunction n f receiver given site
  | .invoke d scope receiver given site => Run.invoke n d scope receiver given site
  | .bindParameters parameters given site => Run.bindParameters n parameters given site
  | .callBuiltin b a site => Run.callBuiltin n b a site
  | .callEach f receiver items site => Run.callEach n f receiver items site
  | .callFind f receiver items site => Run.callFind n f receiver items site
  | .callMap f receiver items done site => Run.callMap n f receiver items done site
  | .callReduce f receiver items done site => Run.callReduce n f receiver items done site
  | .callHost action a site => Run.callHost n action a site
  | .beginStatement position site => Run.beginStatement n position site
  | .pauseAt position site => Run.pauseAt n position site
  | .injectInto code frame site => Run.injectInto n code frame site
  | .injectLast code site => Run.injectLast n code site
  | .runProgram operation site => Run.runProgram n operation site
  | .runSource code site => Run.runSource n code site
  | .perform request site => Run.perform n request site

/-- How something is done: by single steps and by tasks. -/
inductive Plan : Type → Type 1 where
  /-- A single step, and what it is noted for in a world. -/
  | step {α : Type} (event : World → Option Event) (x : Run α) : Plan α
  | task {α : Type} (t : Task α) : Plan α
  | bind {α β : Type} (p : Plan α) (k : α → Plan β) : Plan β
  | attempt {α : Type} (p : Plan α) : Plan (Except Fault α)
  | atLine {α : Type} (line : Nat) (p : Plan α) : Plan α
  /-- What is done while a program runs. -/
  | inRun {α : Type} (p : Plan α) : Plan α

namespace Plan

variable {α β : Type}

/-- A single step that is noted for nothing. -/
def plain (x : Run α) : Plan α := .step (fun _ => none) x

instance : Monad Plan where
  pure a := plain (pure a)
  bind := bind

/-- A step that asks the run to end if it does what is asked here. -/
def exiting (asks : Bool) (x : Run α) : Plan α :=
  .step (fun w => if asks && w.process.isPending then some .exited else none) x

/-- What a plan does, given what its tasks do. -/
def carry (run : ∀ {α : Type}, Task α → Run α) : {α : Type} → Plan α → Run α
  | _, .step _ x => x
  | _, .task t => run t
  | _, .bind p k => p.carry run >>= fun a => (k a).carry run
  | _, .attempt p => Run.attempt (p.carry run)
  | _, .atLine line p => Run.atLine line (p.carry run)
  | _, .inRun p => p.carry run

end Plan

open Plan (plain exiting)

/-- How a task is carried out. -/
def Task.plan : {α : Type} → Task α → Plan α
  | _, .eval operation site =>
    match operation with
    | .noop => plain (return .nil)
    | .literal v => plain (return .ofLiteral v)
    | .constant b => plain (return .bool b)
    | .resolve chain => do
      let (path, origin) ← .task (.walk chain none site)
      plain (readChain path origin site)
    | .assign target value => do
      let (path, origin) ← .task (.walk target none site)
      let x ← .task (.eval value (site.hold origin.toList))
      plain (writeChain path origin x site)
      return .nil
    | .call callee arguments => do
      let (path, origin) ← .task (.walk callee none site)
      let f ← plain (readChain path origin site)
      let xs ← .task (.evalList arguments [] (site.hold (f :: origin.toList)))
      match f with
      | .function f => .task (.callFunction f (origin.getD .nil) xs site)
      | _ => plain (fail .notCallable)
    | .function d => do
      let f ← plain (produce fun w => w.newFunction (.closure d site.frame))
      match d.name? with
      | some name => plain (writeAt (fun w => w.variableSlot site.frame [name]) f)
      | none => pure ()
      return f
    | .chunk body => do
      .task (.runBlock body site)
      return .nil
    | .conditional branches => do
      .task (.runBranches branches site)
      return .nil
    | .whileLoop condition body => do
      let frame ← plain (produce fun w => w.forkLoop site.frame)
      .task (.runWhile condition body (site.enter frame))
      return .nil
    | .forLoop target iterator body => do
      let frame ← plain (produce fun w => w.forkLoop site.frame)
      let inner := site.enter frame
      let (path, origin) ← .task (.walk target none inner)
      let sequence ← .task (.eval iterator (inner.hold origin.toList))
      let items ← plain (read fun w => w.items sequence)
      .task (.runFor items path origin body (inner.hold (sequence :: origin.toList)))
      return .nil
    | .returnFrom argument => do
      match ((← plain get).frame? site.frame).bind (·.call) with
      | none => plain (fail .unexpectedReturn)
      | some _ =>
        let x ← match argument with
          | some a => .task (.eval a site)
          | none => pure .nil
        plain (finishCall site.frame x)
        return .nil
    | .breakLoop => do
      match ((← plain get).frame? site.frame).bind (·.loop) with
      | none => plain (fail .unexpectedBreak)
      | some l =>
        plain (modify fun w => w.modifyFrame l fun f => { f with isBroken := true })
        return .nil
    | .continueLoop => do
      match ((← plain get).frame? site.frame).bind (·.loop) with
      | none => plain (fail .unexpectedContinue)
      | some l =>
        plain (modify fun w => w.modifyFrame l fun f => { f with isContinued := true })
        return .nil
    | .debugger => do
      plain (arm true)
      return .nil
    | .evaluate operator left right => do
      let a ← .task (.eval left site)
      let isTrue := (← plain get).truthy a
      match operator with
      | .and =>
        if isTrue then
          let b ← .task (.eval right (site.hold [a]))
          return .bool ((← plain get).truthy b)
        else return .bool false
      | .or =>
        if isTrue then return .bool true
        else
          let b ← .task (.eval right (site.hold [a]))
          return .bool ((← plain get).truthy b)
      | _ =>
        let b ← .task (.eval right (site.hold [a]))
        plain (produce fun w => w.apply operator a b)
    | .negate argument => do
      let a ← .task (.eval argument site)
      return .bool (!(← plain get).truthy a)
    | .signed operator argument => do
      let a ← .task (.eval argument site)
      match operator with
      | .minus => return .number (-(World.toNumber a))
      | _ => return .number (World.toNumber a)
    | .instantiate argument => do
      match ← .task (.eval argument site) with
      | .map r => plain (produce fun w => w.newMap (w.contents r).instantiate)
      | _ => plain (fail .notInstantiable)
    | .map entries => do
      let made ← .task (.evalEntries entries .empty site)
      plain (produce fun w => w.newMap ⟨made, false⟩)
    | .list items => do
      let xs ← .task (.evalList items [] site)
      plain (produce fun w => w.newList xs)
    | .imported target chunk => do
      let frame ← plain (produce fun w => w.fork site.frame .external true (some target) none)
      .task (.eval chunk (site.enter frame))
  | _, .evalList [] done _ => return done
  | _, .evalList (o :: os) done site => do
    let x ← .task (.eval o (site.hold done))
    .task (.evalList os (done ++ [x]) site)
  | _, .evalEntries [] done _ => return done
  | _, .evalEntries ((key, o) :: rest) done site => do
    let x ← .task (.eval o (site.hold done.values))
    .task (.evalEntries rest (done.insert key x) site)
  | _, .walk [] origin _ => return ([], origin)
  | _, .walk (segment :: rest) origin site =>
    match segment with
    | .root o => do
      let x ← .task (.eval o (site.hold origin.toList))
      .task (.walk rest (some x) site)
    | .name key => .task (.walkKey key rest origin site)
    | .index o => do
      let x ← .task (.eval o (site.hold origin.toList))
      .task (.walkKey ((← plain get).display x) rest origin site)
  | _, .walkKey key rest origin site =>
    if rest.isEmpty then return ([key], origin)
    else do
      let x ← plain (readChain [key] origin site)
      .task (.walk rest (some x) site)
  | _, .runBlock [] _ => return ()
  | _, .runBlock (.mk operation position :: rest) site => do
    .task (.beginStatement position site)
    let _ ← .atLine position.line (.task (.eval operation site))
    if (← plain get).isInterrupted site.frame then return ()
    else .task (.runBlock rest site)
  | _, .runBranches [] _ => return ()
  | _, .runBranches (.mk condition body :: rest) site => do
    let c ← .task (.eval condition site)
    if (← plain get).truthy c then .task (.runBlock body site)
    else .task (.runBranches rest site)
  | _, .runWhile condition body site => do
    let c ← .task (.eval condition site)
    if (← plain get).truthy c then
      plain (modify fun w => w.beginRound site.frame)
      .task (.runBlock body site)
      if (← plain get).leavesLoop site.frame then return ()
      else .task (.runWhile condition body site)
    else return ()
  | _, .runFor [] _ _ _ _ => return ()
  | _, .runFor (item :: rest) path origin body site => do
    plain (modify fun w => w.beginRound site.frame)
    let x ← plain (produce fun w => w.itemValue item)
    plain (writeChain path origin x site)
    .task (.runBlock body (site.hold (rest.map (·.held))))
    if (← plain get).leavesLoop site.frame then return ()
    else .task (.runFor rest path origin body site)
  | _, .callFunction f receiver given site =>
    match f with
    | .builtin b =>
      let defaults := b.parameters.map fun p => Value.ofLiteral p.2
      let a : Arguments := ⟨receiver, b.parameters.map (·.1), Arguments.fill defaults given⟩
      .task (.callBuiltin b a (site.hold (receiver :: a.values)))
    | .made i => do
      match (← plain get).functions.get? i with
      | none => plain (fail .notCallable)
      | some (.closure d frame) =>
        let extra := given.drop d.parameters.length
        .task (.invoke d frame receiver given (site.hold (.function f :: extra)))
      | some (.host _ parameters action) =>
        let a : Arguments :=
          ⟨receiver, parameters.map (·.1), Arguments.fill (parameters.map (·.2)) given⟩
        .task (.callHost action a (site.hold (.function f :: receiver :: a.values)))
  | _, .invoke d scope receiver given site => do
    let frame ← plain (produce fun w => w.fork scope .function false none none)
    let inner := site.enter frame
    plain (bindName frame "self" receiver)
    .task (.bindParameters d.parameters given inner)
    .task (.runBlock d.body inner)
    plain (callResult frame)
  | _, .bindParameters [] _ _ => return ()
  | _, .bindParameters (p :: ps) (x :: xs) site => do
    plain (bindName site.frame p.name x)
    .task (.bindParameters ps xs site)
  | _, .bindParameters (p :: ps) [] site => do
    let x ← match p.default with
      | some o => .task (.eval o site)
      | none => pure .nil
    plain (bindName site.frame p.name x)
    .task (.bindParameters ps [] site)
  | _, .callBuiltin b a site =>
    match b with
    | .string m => plain (produce fun w => w.stringMethod m a)
    | .global f => plain (produce fun w => w.globalFunction f a)
    | .list m => do
      match a.list?, a.callback?, m with
      | some r, some f, .forEach =>
        .task (.callEach f a.receiver (numbered ((← plain get).elements r)) site)
      | some r, some f, .find =>
        .task (.callFind f a.receiver (numbered ((← plain get).elements r)) site)
      | some r, some f, .map => do
        let xs ← .task (.callMap f a.receiver (numbered ((← plain get).elements r)) [] site)
        plain (produce fun w => w.newList xs)
      | some r, some f, .reduce =>
        .task (.callReduce f a.receiver (numbered ((← plain get).elements r))
          (a.named "initalValue") site)
      | _, _, m => plain (produce fun w => w.listMethod m a)
    | .map m => do
      match a.map?, a.callback?, m with
      | some r, some f, .forEach =>
        .task (.callEach f a.receiver (keyed ((← plain get).contents r)) site)
      | some r, some f, .find =>
        .task (.callFind f a.receiver (keyed ((← plain get).contents r)) site)
      | _, _, m => plain (produce fun w => w.mapMethod m a)
  | _, .callEach _ _ [] _ => return .nil
  | _, .callEach f receiver ((x, key) :: rest) site => do
    let _ ← .task (.callFunction f receiver [x, key] (site.hold (rest.map (·.1))))
    .task (.callEach f receiver rest site)
  | _, .callFind _ _ [] _ => return .nil
  | _, .callFind f receiver ((x, key) :: rest) site => do
    let found ← .task (.callFunction f receiver [x, key] (site.hold (x :: rest.map (·.1))))
    if (← plain get).truthy found then return x
    else .task (.callFind f receiver rest site)
  | _, .callMap _ _ [] done _ => return done
  | _, .callMap f receiver ((x, key) :: rest) done site => do
    let y ← .task (.callFunction f receiver [x, key] (site.hold (done ++ rest.map (·.1))))
    .task (.callMap f receiver rest (done ++ [y]) site)
  | _, .callReduce _ _ [] done _ => return done
  | _, .callReduce f receiver ((x, key) :: rest) done site => do
    let y ← .task (.callFunction f receiver [done, x, key] (site.hold (rest.map (·.1))))
    .task (.callReduce f receiver rest y site)
  | _, .callHost action a site =>
    match action with
    | .request => do
      let w ← plain get
      let r := Request.ofScript (w.display (a.named "a")) (requestArgument w (a.named "b"))
      let reply ← .task (.perform r site)
      plain (produce fun w => w.replyValue reply)
    | action => exiting (action == .stop) (hostFunction action a site)
  | _, .beginStatement position site => do
    match (← plain get).frame? site.frame with
    | none => return ()
    | some f =>
      if f.isInjected then return ()
      else
        plain (noteStatement position site.frame)
        if (← plain get).debugger.isArmed then .task (.pauseAt position site)
  | _, .pauseAt position site => do
    match (← plain get).debugger.hook with
    | .standard => plain (arm false)
    | .scripted actions =>
      let action ← plain (takeAction actions)
      let injected ← match action.code with
        | some code => some <$> .task (.injectLast code site)
        | none => pure none
      let exit ← exiting (action.move == .exit) (makeMove action.move)
      plain (notePause position site.frame injected exit)
    plain endPause
  | _, .injectInto code frame site => do
    match ← plain (compile code) with
    | .error e => return .error e
    | .ok operation =>
      let injected ← plain (produce fun w => w.fork frame .call true none (some true))
      let inner := (site.enter frame).enter injected
      match ← .attempt (.task (.eval operation inner)) with
      | .ok _ => return .ok ()
      | .error f => plain (raise (.run f))
  | _, .injectLast code site => do
    let w ← plain get
    match w.lastActive? site.things with
    | some frame =>
      if w.process.isPending then .task (.injectInto code frame site)
      else return .error (.run (.of .cannotInject))
    | none => return .error (.run (.of .cannotInject))
  | _, .runProgram operation site => do
    if (← plain get).process.isPending then return .error (.run (.of .processAlreadyRunning))
    else
      let outcome ← .inRun do
        .step (fun _ => some .began) beginRun
        let global := (← plain get).configuration.global
        .attempt (.task (.eval operation (site.enter global)))
      .step (fun _ => some .ended) endRun
      match outcome with
      | .ok _ => return .ok ()
      | .error f => plain (raise (.run f))
  | _, .runSource code site => do
    match ← plain (compile code) with
    | .error e => return .error e
    | .ok operation => .task (.runProgram operation site)
  | _, .perform request site =>
    match request with
    | .run code => Reply.ofResult <$> .task (.runSource code site)
    | .runTarget => do
      let w ← plain get
      let target := w.configuration.target
      match w.handlers.library.get? target with
      | some code => Reply.ofResult <$> .task (.runSource code site)
      | none => Reply.ofResult <$> plain (raise (.run (.of (.targetNotFound target))))
    | .inject code => do
      let global := (← plain get).configuration.global
      Reply.ofResult <$> .task (.injectInto code global site)
    | .injectLast code => Reply.ofResult <$> .task (.injectLast code site)
    | .runPrepared => do
      match (← plain get).configuration.prepared with
      | none => return .nothing
      | some operation => Reply.ofResult <$> .task (.runProgram operation site)
    | .setTarget target =>
      .step (fun w => if w.process.isPending then none else some .rebuilt)
        (unlessPending .targetLocked (freshFrames target))
    -- What is left needs no other task, so that a bound of one is enough.
    | .exit => exiting true (Run.perform 1 .exit site)
    | request => plain (Run.perform 1 request site)

variable {α : Type}

/-- Nothing is done with a bound of zero. -/
theorem Task.run_zero (t : Task α) : t.run 0 = exhausted := by
  cases t <;> rfl

namespace Plan

variable {β : Type} {run : ∀ {α : Type}, Task α → Run α} {x : Run α} {p : Plan α}

/-- What is done one behind the other may be compared one behind the other. -/
theorem carry_bind {k : α → Run β} {l : α → Plan β} (h : x = p.carry run)
    (hk : ∀ a, k a = (l a).carry run) : (x >>= k) = (p >>= l).carry run := by
  obtain rfl := h
  obtain rfl : k = fun a => (l a).carry run := funext hk
  rfl

theorem carry_get (k : World → Plan α) (w : World) :
    (plain get >>= k).carry run w = (k w).carry run w := rfl

/-- A step that is done gives its value to what follows it. -/
theorem carry_step {k : α → Plan β} {a : α} {w w' : World} (hx : x w = .ok a w') :
    (plain x >>= k).carry run w = (k a).carry run w' := by
  change (x >>= fun a => (k a).carry run) w = _
  rw [bind_apply, hx]

theorem carry_map (f : α → β) (h : x = p.carry run) : f <$> x = (f <$> p).carry run := by
  rw [map_eq_pure_bind]
  exact carry_bind h fun _ => rfl

theorem carry_discard {k : Run β} {l : Plan β} (h : x = p.carry run) (hk : k = l.carry run) :
    (discard x >>= fun _ => k) = (p >>= fun _ => l).carry run := by
  change ((fun _ => ()) <$> x >>= fun _ => k) = _
  rw [bind_map_left]
  exact carry_bind h fun _ => hk

theorem carry_ite {c : Prop} [Decidable c] {y : Run α} {q : Plan α} (h : x = p.carry run)
    (h' : y = q.carry run) : (if c then x else y) = (if c then p else q).carry run := by
  split
  · exact h
  · exact h'

end Plan

open Plan in
/-- A task does what its plan says, with one less for the tasks in it. -/
theorem Task.run_succ (n : Nat) (t : Task α) : t.run (n + 1) = t.plan.carry (Task.run n) := by
  cases t with
  | eval operation site =>
    cases operation with
    | call callee arguments =>
      refine carry_bind rfl fun a => carry_bind rfl fun f => carry_bind rfl fun xs => ?_
      cases f <;> rfl
    | function d =>
      refine carry_bind rfl fun f => ?_
      dsimp only
      cases d.name? <;> rfl
    | returnFrom argument =>
      refine carry_bind rfl fun w => ?_
      dsimp only
      cases (w.frame? site.frame).bind (·.call) with
      | none => rfl
      | some c => cases argument <;> rfl
    | breakLoop =>
      refine carry_bind rfl fun w => ?_
      cases (w.frame? site.frame).bind (·.loop) <;> rfl
    | continueLoop =>
      refine carry_bind rfl fun w => ?_
      cases (w.frame? site.frame).bind (·.loop) <;> rfl
    | evaluate operator left right =>
      refine carry_bind rfl fun a => carry_bind rfl fun w => ?_
      cases operator
      case and => exact carry_ite rfl rfl
      case or => exact carry_ite rfl rfl
      all_goals rfl
    | signed operator argument =>
      refine carry_bind rfl fun a => ?_
      cases operator <;> rfl
    | instantiate argument =>
      refine carry_bind rfl fun a => ?_
      cases a <;> rfl
    | _ => rfl
  | evalList operations done site => cases operations <;> rfl
  | evalEntries entries done site => cases entries <;> rfl
  | walk chain origin site =>
    cases chain with
    | nil => rfl
    | cons segment rest => cases segment <;> rfl
  | walkKey key rest origin site => cases rest <;> rfl
  | runBlock body site =>
    cases body with
    | nil => rfl
    | cons statement rest =>
      cases statement with
      | mk operation position =>
        refine carry_bind rfl fun _ => carry_discard rfl ?_
        exact carry_bind rfl fun w => carry_ite rfl rfl
  | runBranches branches site =>
    cases branches with
    | nil => rfl
    | cons branch rest =>
      cases branch with
      | mk condition body =>
        exact carry_bind rfl fun c => carry_bind rfl fun w => carry_ite rfl rfl
  | runWhile condition body site =>
    refine carry_bind rfl fun c => carry_bind rfl fun w => carry_ite ?_ rfl
    refine carry_bind rfl fun _ => carry_bind rfl fun _ => carry_bind rfl fun w => ?_
    exact carry_ite rfl rfl
  | runFor items path origin body site =>
    cases items with
    | nil => rfl
    | cons item rest =>
      refine carry_bind rfl fun _ => carry_bind rfl fun x => carry_bind rfl fun _ => ?_
      exact carry_bind rfl fun _ => carry_bind rfl fun w => carry_ite rfl rfl
  | callFunction f receiver given site =>
    cases f with
    | builtin b => rfl
    | made i =>
      refine carry_bind rfl fun w => ?_
      dsimp only
      cases w.functions.get? i with
      | none => rfl
      | some f => cases f <;> rfl
  | bindParameters parameters given site =>
    cases parameters with
    | nil => rfl
    | cons p ps =>
      cases given with
      | nil =>
        simp only [run, Run.bindParameters, plan]
        cases p.default <;> rfl
      | cons x xs => rfl
  | callBuiltin b a site =>
    cases b with
    | list m =>
      simp only [run, Run.callBuiltin, plan]
      cases a.list? <;> cases a.callback? <;> cases m <;> rfl
    | map m =>
      simp only [run, Run.callBuiltin, plan]
      cases a.map? <;> cases a.callback? <;> cases m <;> rfl
    | _ => rfl
  | callEach f receiver items site =>
    cases items with
    | nil => rfl
    | cons item rest => exact carry_discard rfl rfl
  | callFind f receiver items site =>
    cases items with
    | nil => rfl
    | cons item rest => exact carry_bind rfl fun y => carry_bind rfl fun w => carry_ite rfl rfl
  | callMap f receiver items done site => cases items <;> rfl
  | callReduce f receiver items done site => cases items <;> rfl
  | callHost action a site => cases action <;> rfl
  | beginStatement position site =>
    refine carry_bind rfl fun w => ?_
    cases w.frame? site.frame with
    | none => rfl
    | some f =>
      exact carry_ite rfl (carry_bind rfl fun _ => carry_bind rfl fun w => carry_ite rfl rfl)
  | pauseAt position site =>
    refine carry_bind rfl fun w => ?_
    dsimp only
    cases w.debugger.hook with
    | standard => rfl
    | scripted actions =>
      refine carry_bind rfl fun action => ?_
      cases action with
      | mk code move =>
        cases code with
        | none => rfl
        | some code =>
          have hinjected : some <$> Run.injectLast n code site =
              (some <$> Plan.task (.injectLast code site)).carry (Task.run n) := carry_map some rfl
          exact carry_bind hinjected fun injected => rfl
  | injectInto code frame site =>
    refine carry_bind rfl fun result => ?_
    cases result with
    | error e => rfl
    | ok operation =>
      refine carry_bind rfl fun injected => carry_bind rfl fun outcome => ?_
      cases outcome <;> rfl
  | injectLast code site =>
    refine carry_bind rfl fun w => ?_
    cases w.lastActive? site.things with
    | none => rfl
    | some frame => exact carry_ite rfl rfl
  | runProgram operation site =>
    refine carry_bind rfl fun w => carry_ite rfl ?_
    -- The plan has the program in one part and what follows it in another.
    have hparts : ∀ finish : Except Fault Value → Run (Except ScriptError Unit), (do
        beginRun
        let global := (← get).configuration.global
        let outcome ← attempt (Run.eval n operation (site.enter global))
        finish outcome) = (do
        beginRun
        let global := (← get).configuration.global
        attempt (Run.eval n operation (site.enter global))) >>= finish := by
      intro finish
      simp only [bind_assoc]
    refine (hparts _).trans (carry_bind rfl fun outcome => carry_bind rfl fun _ => ?_)
    cases outcome <;> rfl
  | runSource code site =>
    refine carry_bind rfl fun result => ?_
    cases result <;> rfl
  | perform request site =>
    cases request with
    | runTarget =>
      refine carry_bind rfl fun w => ?_
      dsimp only
      cases w.handlers.library.get? w.configuration.target <;> exact carry_map _ rfl
    | runPrepared =>
      refine carry_bind rfl fun w => ?_
      cases w.configuration.prepared with
      | none => rfl
      | some operation => exact carry_map _ rfl
    | _ => rfl
  | _ => rfl

/-- The world that is reached, with a result or without. -/
def reached : EStateM.Result Stop World α → World
  | .ok _ w => w
  | .error _ w => w

theorem reached_attempt (x : Run α) (w : World) : reached (attempt x w) = reached (x w) := by
  unfold attempt
  cases x w with
  | ok a w' => rfl
  | error e w' => cases e <;> rfl

theorem reached_atLine (line : Nat) (x : Run α) (w : World) :
    reached (atLine line x w) = reached (x w) := by
  unfold atLine
  cases x w with
  | ok a w' => rfl
  | error e w' => cases e <;> rfl

/-- The steps of a plan from a world, given what its tasks do and of which steps they are made. -/
def Plan.course (run : ∀ {α : Type}, Task α → Run α)
    (below : ∀ {α : Type}, Task α → World → List Moment) :
    {α : Type} → Plan α → World → List Moment
  | _, .step event x, w => [⟨event w, false, reached (x w)⟩]
  | _, .task t, w => below t w
  | _, .bind p k, w =>
    p.course run below w ++
      match p.carry run w with
      | .ok a w' => (k a).course run below w'
      | .error _ _ => []
  | _, .attempt p, w => p.course run below w
  | _, .atLine _ p, w => p.course run below w
  | _, .inRun p, w => (p.course run below w).map Moment.within

/-- The steps of a task from a world. -/
def Task.course : Nat → {α : Type} → Task α → World → List Moment
  | 0, _, _, _ => []
  | n + 1, _, t, w => t.plan.course (Task.run n) (Task.course n) w

end Run

end LineScript
