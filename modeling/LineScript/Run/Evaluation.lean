import LineScript.Run.Steps

/-!
# Running operations

Operations are run in a frame, against a world. A `break`, a `continue` and a `return` are noted in
the frame of the loop or the call that they belong to, and every block looks there after each
statement. A function of the host may ask the session for something in the middle of a run, so
running operations and answering requests call each other.

Every step takes a bound on how deeply steps may nest and lowers it by one for each step it calls. A
run that reaches the bound is exhausted, which is neither a result nor a fault.
-/

namespace LineScript

namespace Run

mutual

/-- Runs an operation and gives its value. -/
def eval : Nat → Operation → Site → Run Value
  | 0, _, _ => exhausted
  | n + 1, operation, site =>
    match operation with
    | .noop => return .nil
    | .literal v => return .ofLiteral v
    | .constant b => return .bool b
    | .resolve chain => do
      let (path, origin) ← walk n chain none site
      readChain path origin site
    | .assign target value => do
      let (path, origin) ← walk n target none site
      let x ← eval n value (site.hold origin.toList)
      writeChain path origin x site
      return .nil
    | .call callee arguments => do
      let (path, origin) ← walk n callee none site
      let f ← readChain path origin site
      let xs ← evalList n arguments [] (site.hold (f :: origin.toList))
      match f with
      | .function f => callFunction n f (origin.getD .nil) xs site
      | _ => fail .notCallable
    | .function d => do
      let f ← produce fun w => w.newFunction (.closure d site.frame)
      match d.name? with
      | some name => writeAt (fun w => w.variableSlot site.frame [name]) f
      | none => pure ()
      return f
    | .chunk body => do
      runBlock n body site
      return .nil
    | .conditional branches => do
      runBranches n branches site
      return .nil
    | .whileLoop condition body => do
      let frame ← produce fun w => w.forkLoop site.frame
      runWhile n condition body (site.enter frame)
      return .nil
    | .forLoop target iterator body => do
      let frame ← produce fun w => w.forkLoop site.frame
      let inner := site.enter frame
      let (path, origin) ← walk n target none inner
      let sequence ← eval n iterator (inner.hold origin.toList)
      let items ← read fun w => w.items sequence
      runFor n items path origin body (inner.hold (sequence :: origin.toList))
      return .nil
    | .returnFrom argument => do
      match ((← get).frame? site.frame).bind (·.call) with
      | none => fail .unexpectedReturn
      | some _ =>
        let x ← match argument with
          | some a => eval n a site
          | none => pure .nil
        finishCall site.frame x
        return .nil
    | .breakLoop => do
      match ((← get).frame? site.frame).bind (·.loop) with
      | none => fail .unexpectedBreak
      | some l =>
        modify fun w => w.modifyFrame l fun f => { f with isBroken := true }
        return .nil
    | .continueLoop => do
      match ((← get).frame? site.frame).bind (·.loop) with
      | none => fail .unexpectedContinue
      | some l =>
        modify fun w => w.modifyFrame l fun f => { f with isContinued := true }
        return .nil
    | .debugger => do
      arm true
      return .nil
    | .evaluate operator left right => do
      let a ← eval n left site
      let isTrue := (← get).truthy a
      match operator with
      | .and =>
        if isTrue then
          let b ← eval n right (site.hold [a])
          return .bool ((← get).truthy b)
        else return .bool false
      | .or =>
        if isTrue then return .bool true
        else
          let b ← eval n right (site.hold [a])
          return .bool ((← get).truthy b)
      | _ =>
        let b ← eval n right (site.hold [a])
        produce fun w => w.apply operator a b
    | .negate argument => do
      let a ← eval n argument site
      return .bool (!(← get).truthy a)
    | .signed operator argument => do
      let a ← eval n argument site
      match operator with
      | .minus => return .number (-(World.toNumber a))
      | _ => return .number (World.toNumber a)
    | .instantiate argument => do
      match ← eval n argument site with
      | .map r => produce fun w => w.newMap (w.contents r).instantiate
      | _ => fail .notInstantiable
    | .map entries => do
      let made ← evalEntries n entries .empty site
      produce fun w => w.newMap ⟨made, false⟩
    | .list items => do
      let xs ← evalList n items [] site
      produce fun w => w.newList xs
    | .imported target chunk => do
      let frame ← produce fun w => w.fork site.frame .external true (some target) none
      eval n chunk (site.enter frame)

/-- Runs operations from left to right and gives their values behind those already there. -/
def evalList : Nat → List Operation → List Value → Site → Run (List Value)
  | 0, _, _, _ => exhausted
  | _ + 1, [], done, _ => return done
  | n + 1, o :: os, done, site => do
    let x ← eval n o (site.hold done)
    evalList n os (done ++ [x]) site

/-- Runs the values of entries from left to right and puts them into a map. -/
def evalEntries : Nat → List (String × Operation) → OrderedMap Value → Site →
    Run (OrderedMap Value)
  | 0, _, _, _ => exhausted
  | _ + 1, [], done, _ => return done
  | n + 1, (key, o) :: rest, done, site => do
    let x ← eval n o (site.hold done.values)
    evalEntries n rest (done.insert key x) site

/-- Walks a chain of access up to its last key. What it gives is that key, and the value in which it
is to be looked up; without one, the key is the name of a variable. -/
def walk : Nat → List Segment → Option Value → Site → Run (Path × Option Value)
  | 0, _, _, _ => exhausted
  | _ + 1, [], origin, _ => return ([], origin)
  | n + 1, segment :: rest, origin, site =>
    match segment with
    | .root o => do
      let x ← eval n o (site.hold origin.toList)
      walk n rest (some x) site
    | .name key => walkKey n key rest origin site
    | .index o => do
      let x ← eval n o (site.hold origin.toList)
      walkKey n ((← get).display x) rest origin site

/-- Goes on with a chain of access at a key. -/
def walkKey : Nat → String → List Segment → Option Value → Site → Run (Path × Option Value)
  | 0, _, _, _, _ => exhausted
  | n + 1, key, rest, origin, site => do
    if rest.isEmpty then return ([key], origin)
    else
      let x ← readChain [key] origin site
      walk n rest (some x) site

/-- Runs statements until one of them leaves the loop or the function they are in, or the run is
asked to end. -/
def runBlock : Nat → List Statement → Site → Run Unit
  | 0, _, _ => exhausted
  | _ + 1, [], _ => return ()
  | n + 1, .mk operation position :: rest, site => do
    beginStatement n position site
    discard (atLine position.line (eval n operation site))
    if (← get).isInterrupted site.frame then return ()
    else runBlock n rest site

/-- Runs the first branch whose condition holds. -/
def runBranches : Nat → List Branch → Site → Run Unit
  | 0, _, _ => exhausted
  | _ + 1, [], _ => return ()
  | n + 1, .mk condition body :: rest, site => do
    let c ← eval n condition site
    if (← get).truthy c then runBlock n body site
    else runBranches n rest site

/-- Runs the rounds of a loop while its condition holds. -/
def runWhile : Nat → Operation → List Statement → Site → Run Unit
  | 0, _, _, _ => exhausted
  | n + 1, condition, body, site => do
    let c ← eval n condition site
    if (← get).truthy c then
      modify fun w => w.beginRound site.frame
      runBlock n body site
      if (← get).leavesLoop site.frame then return ()
      else runWhile n condition body site
    else return ()

/-- Runs a round of a loop for each item. -/
def runFor : Nat → List World.Item → Path → Option Value → List Statement → Site → Run Unit
  | 0, _, _, _, _, _ => exhausted
  | _ + 1, [], _, _, _, _ => return ()
  | n + 1, item :: rest, path, origin, body, site => do
    modify fun w => w.beginRound site.frame
    let x ← produce fun w => w.itemValue item
    writeChain path origin x site
    runBlock n body (site.hold (rest.map (·.held)))
    if (← get).leavesLoop site.frame then return ()
    else runFor n rest path origin body site

/-- Calls a function with a receiver and arguments. -/
def callFunction : Nat → FunctionRef → Value → List Value → Site → Run Value
  | 0, _, _, _, _ => exhausted
  | n + 1, f, receiver, given, site =>
    match f with
    | .builtin b =>
      let defaults := b.parameters.map fun p => Value.ofLiteral p.2
      let a : Arguments := ⟨receiver, b.parameters.map (·.1), Arguments.fill defaults given⟩
      callBuiltin n b a (site.hold (receiver :: a.values))
    | .made i => do
      match (← get).functions.get? i with
      | none => fail .notCallable
      | some (.closure d frame) =>
        let extra := given.drop d.parameters.length
        invoke n d frame receiver given (site.hold (.function f :: extra))
      | some (.host _ parameters action) =>
        let a : Arguments :=
          ⟨receiver, parameters.map (·.1), Arguments.fill (parameters.map (·.2)) given⟩
        callHost n action a (site.hold (.function f :: receiver :: a.values))

/-- Runs the body of a function in a new frame behind the one it was declared in. -/
def invoke : Nat → FunctionDeclaration → FrameRef → Value → List Value → Site → Run Value
  | 0, _, _, _, _, _ => exhausted
  | n + 1, d, scope, receiver, given, site => do
    let frame ← produce fun w => w.fork scope .function false none none
    let inner := site.enter frame
    bindName frame "self" receiver
    bindParameters n d.parameters given inner
    runBlock n d.body inner
    callResult frame

/-- Binds parameters from left to right. One that gets no argument has the value of its default,
which sees the parameters before it. -/
def bindParameters : Nat → List FormalParameter → List Value → Site → Run Unit
  | 0, _, _, _ => exhausted
  | _ + 1, [], _, _ => return ()
  | n + 1, p :: ps, x :: xs, site => do
    bindName site.frame p.name x
    bindParameters n ps xs site
  | n + 1, p :: ps, [], site => do
    let x ← match p.default with
      | some o => eval n o site
      | none => pure .nil
    bindName site.frame p.name x
    bindParameters n ps [] site

/-- Calls a built-in function. -/
def callBuiltin : Nat → Builtin → Arguments → Site → Run Value
  | 0, _, _, _ => exhausted
  | n + 1, b, a, site =>
    match b with
    | .string m => produce fun w => w.stringMethod m a
    | .global f => produce fun w => w.globalFunction f a
    | .list m => do
      match a.list?, a.callback?, m with
      | some r, some f, .forEach => callEach n f a.receiver (numbered ((← get).elements r)) site
      | some r, some f, .find => callFind n f a.receiver (numbered ((← get).elements r)) site
      | some r, some f, .map => do
        let xs ← callMap n f a.receiver (numbered ((← get).elements r)) [] site
        produce fun w => w.newList xs
      | some r, some f, .reduce =>
        callReduce n f a.receiver (numbered ((← get).elements r)) (a.named "initalValue") site
      | _, _, m => produce fun w => w.listMethod m a
    | .map m => do
      match a.map?, a.callback?, m with
      | some r, some f, .forEach => callEach n f a.receiver (keyed ((← get).contents r)) site
      | some r, some f, .find => callFind n f a.receiver (keyed ((← get).contents r)) site
      | _, _, m => produce fun w => w.mapMethod m a

/-- Calls a function for each item, with the item and its index or key. -/
def callEach : Nat → FunctionRef → Value → List (Value × Value) → Site → Run Value
  | 0, _, _, _, _ => exhausted
  | _ + 1, _, _, [], _ => return .nil
  | n + 1, f, receiver, (x, key) :: rest, site => do
    discard (callFunction n f receiver [x, key] (site.hold (rest.map (·.1))))
    callEach n f receiver rest site

/-- Gives the first item for which a function gives something true. -/
def callFind : Nat → FunctionRef → Value → List (Value × Value) → Site → Run Value
  | 0, _, _, _, _ => exhausted
  | _ + 1, _, _, [], _ => return .nil
  | n + 1, f, receiver, (x, key) :: rest, site => do
    let found ← callFunction n f receiver [x, key] (site.hold (x :: rest.map (·.1)))
    if (← get).truthy found then return x
    else callFind n f receiver rest site

/-- Gives what a function gives for each item, behind what is already there. -/
def callMap : Nat → FunctionRef → Value → List (Value × Value) → List Value → Site →
    Run (List Value)
  | 0, _, _, _, _, _ => exhausted
  | _ + 1, _, _, [], done, _ => return done
  | n + 1, f, receiver, (x, key) :: rest, done, site => do
    let y ← callFunction n f receiver [x, key] (site.hold (done ++ rest.map (·.1)))
    callMap n f receiver rest (done ++ [y]) site

/-- Calls a function for each item with what it gave for the item before. -/
def callReduce : Nat → FunctionRef → Value → List (Value × Value) → Value → Site → Run Value
  | 0, _, _, _, _, _ => exhausted
  | _ + 1, _, _, [], done, _ => return done
  | n + 1, f, receiver, (x, key) :: rest, done, site => do
    let y ← callFunction n f receiver [done, x, key] (site.hold (rest.map (·.1)))
    callReduce n f receiver rest y site

/-- Calls a function of the host. -/
def callHost : Nat → HostAction → Arguments → Site → Run Value
  | 0, _, _, _ => exhausted
  | n + 1, action, a, site =>
    match action with
    | .request => do
      let w ← get
      let r := Request.ofScript (w.display (a.named "a")) (requestArgument w (a.named "b"))
      let reply ← perform n r site
      produce fun w => w.replyValue reply
    | action => hostFunction action a site

/-- Begins a statement: notes where it is, and pauses in front of it if the breakpoint is armed.
Injected code is passed over. -/
def beginStatement : Nat → Position → Site → Run Unit
  | 0, _, _ => exhausted
  | n + 1, position, site => do
    match (← get).frame? site.frame with
    | none => return ()
    | some f =>
      if f.isInjected then return ()
      else
        noteStatement position site.frame
        if (← get).debugger.isArmed then pauseAt n position site

/-- Pauses in front of a statement and carries out the answer of the host. -/
def pauseAt : Nat → Position → Site → Run Unit
  | 0, _, _ => exhausted
  | n + 1, position, site => do
    match (← get).debugger.hook with
    | .standard => arm false
    | .scripted actions =>
      let action ← takeAction actions
      let injected ← match action.code with
        | some code => some <$> injectLast n code site
        | none => pure none
      let exit ← makeMove action.move
      notePause position site.frame injected exit
    endPause

/-- Runs code behind a frame, unseen by the breakpoint. -/
def injectInto : Nat → String → FrameRef → Site → Run (Except ScriptError Unit)
  | 0, _, _, _ => exhausted
  | n + 1, code, frame, site => do
    match ← compile code with
    | .error e => return .error e
    | .ok operation =>
      let injected ← produce fun w => w.fork frame .call true none (some true)
      settle (eval n operation ((site.enter frame).enter injected))

/-- Runs code where the run is, unseen by the breakpoint. -/
def injectLast : Nat → String → Site → Run (Except ScriptError Unit)
  | 0, _, _ => exhausted
  | n + 1, code, site => do
    let w ← get
    match w.lastActive? site.things with
    | some frame =>
      if w.process.isPending then injectInto n code frame site
      else return .error (.run (.of .cannotInject))
    | none => return .error (.run (.of .cannotInject))

/-- Runs an operation as a program, unless a run is under way. -/
def runProgram : Nat → Operation → Site → Run (Except ScriptError Unit)
  | 0, _, _ => exhausted
  | n + 1, operation, site => do
    if (← get).process.isPending then return .error (.run (.of .processAlreadyRunning))
    else
      beginRun
      let global := (← get).configuration.global
      let outcome ← attempt (eval n operation (site.enter global))
      endRun
      match outcome with
      | .ok _ => return .ok ()
      | .error f => raise (.run f)

/-- Runs a source text as a program. -/
def runSource : Nat → String → Site → Run (Except ScriptError Unit)
  | 0, _, _ => exhausted
  | n + 1, code, site => do
    match ← compile code with
    | .error e => return .error e
    | .ok operation => runProgram n operation site

/-- Answers a request of the host. -/
def perform : Nat → Request → Site → Run Reply
  | 0, _, _ => exhausted
  | n + 1, request, site =>
    match request with
    | .run code => Reply.ofResult <$> runSource n code site
    | .runTarget => do
      let w ← get
      let target := w.configuration.target
      match w.handlers.library.get? target with
      | some code => Reply.ofResult <$> runSource n code site
      | none => Reply.ofResult <$> raise (.run (.of (.targetNotFound target)))
    | .inject code => do
      let global := (← get).configuration.global
      Reply.ofResult <$> injectInto n code global site
    | .injectLast code => Reply.ofResult <$> injectLast n code site
    | .prepare code => do
      match ← compile code with
      | .error e => return .scriptError e
      | .ok operation =>
        modify fun w => { w with
          configuration := { w.configuration with prepared := some operation } }
        return .text operation.kindName
    | .runPrepared => do
      match (← get).configuration.prepared with
      | none => return .nothing
      | some operation => Reply.ofResult <$> runProgram n operation site
    | .get path => do
      match ← attempt (read fun w => w.getVariable w.configuration.global (Path.parse path)) with
      | .ok v => return .value v
      | .error f => return .fault f
    | .set path value => do
      let v ← produce fun w => World.make [] value w
      match ← attempt (writeAt
          (fun w => w.variableSlot w.configuration.global (Path.parse path)) v) with
      | .ok () => return .done
      | .error f => return .fault f
    | .target => do return .text (← get).configuration.target
    | .setTarget target => unlessPending .targetLocked (freshFrames target)
    | .setArguments arguments => do
      modify fun w => { w with configuration := { w.configuration with arguments := arguments } }
      return .done
    | .setTable table => unlessPending .tableLocked fun w =>
      let made := World.makeEntries [] table w
      { made.2 with configuration :=
          { made.2.configuration with table := (OrderedMap.ofList made.1).entries } }
    | .setHandlers handlers => unlessPending .handlersLocked fun w =>
      { w with handlers := handlers, collected := [] }
    | .setHook hook => unlessPending .hookLocked fun w =>
      { w with debugger := { w.debugger with hook := hook } }
    | .breakpoint armed => do
      arm armed
      return .done
    | .step => do
      grantStep
      return .done
    | .isArmed => do return .flag (← get).debugger.isArmed
    | .pause => armIfPending true
    | .resume => armIfPending false
    | .exit => do
      match ← attempt (update World.exit) with
      | .ok () => return .done
      | .error f => return .fault f
    | .isPending => do
      let pending := (← get).process.isPending
      return .flags pending pending
    | .takeRecovered => do
      let errors := (← get).recovered
      modify fun w => { w with recovered := [] }
      return .recovered errors
    | .takeCollected => do
      let errors := (← get).collected
      modify fun w => { w with collected := [] }
      return .collected errors
    | .countCollected => do return .count (← get).collected.length
    | .globalFrame => do return .frame (← get).configuration.global
    | .unknown => return .nothing

end

end Run

end LineScript
