import LineScript.Run.Evaluation

/-!
# Structured control flow

Statements run without noting control flow anywhere: a statement ends normally, or it breaks off a
loop, goes on with the next round of a loop, or returns a value, and what encloses it goes by that.
A block stops at the first statement that does not end normally. A loop takes up what its own body
breaks off or goes on with, and passes on what is returned. A call takes up what its body returns.

Whether there is a loop to break off or a call to return from is known from where a statement
stands. Values are evaluated as in any other run. Runs that are asked to end, and those in whose
middle a host has other code run, are not described here.
-/

namespace LineScript

/-- How a statement ends. -/
inductive Outcome where
  | normal
  | broken
  | continued
  | returned (v : Value)

/-- What encloses a statement in the call it belongs to. -/
structure Surroundings where
  inLoop : Bool
  inCall : Bool

namespace Surroundings

/-- Code outside of all functions and loops. -/
def outside : Surroundings := ⟨false, false⟩

/-- The body of a function. -/
def body : Surroundings := ⟨false, true⟩

/-- The body of a loop. -/
def loop (s : Surroundings) : Surroundings := ⟨true, s.inCall⟩

end Surroundings

/-- Why a structured run has no result. -/
inductive Halt where
  | fault (f : Fault)
  /-- The bound on nested steps was reached. -/
  | exhausted
  /-- The run is asked to end, or the host has other code run in its middle. -/
  | interference
  /-- A statement stands where a value is expected, or a file is imported. -/
  | misplaced

/-- A step of a structured run. -/
abbrev Structured := EStateM Halt World

/-- Whether an operation is a statement that steers a run. -/
def Operation.steers : Operation → Bool
  | .chunk _ | .conditional _ | .whileLoop _ _ | .forLoop _ _ _ | .returnFrom _ | .breakLoop
  | .continueLoop => true
  | _ => false

/-- Whether a request ends the run or has other code run. A run that is under way can be ended, and
no other can begin beside it. -/
def Request.interferes (pending : Bool) : Request → Bool
  | .inject _ => true
  | .exit | .injectLast _ => pending
  | .run _ | .runTarget | .runPrepared => !pending
  | _ => false

/-- Whether the answer to a pause in front of a statement of a frame ends the run or injects code.
-/
def World.interferesAt (w : World) (r : FrameRef) : Bool :=
  match w.frame? r, w.debugger.hook with
  | some f, .scripted actions =>
    let action := actions.headD ⟨none, .step⟩
    !f.isInjected && w.debugger.isArmed && w.process.isPending &&
      (action.code.isSome || action.move == .exit)
  | _, _ => false

namespace Structured

/-- The end of a run that went deeper than its bound. -/
def exhausted {α : Type} : Structured α := throw .exhausted

/-- Stops with a fault. -/
def fail {α : Type} (kind : FaultKind) : Structured α := throw (.fault (.of kind))

/-- A single step of a run. -/
def step {α : Type} (x : Run α) : Structured α := fun w =>
  match x w with
  | .ok a w' => .ok a w'
  | .error (.fault f) w' => .error (.fault f) w'
  | .error .exhausted w' => .error .exhausted w'

/-- Gives a fault the line of the statement in which it arose, unless it has one. -/
def atLine {α : Type} (line : Nat) (x : Structured α) : Structured α := fun w =>
  match x w with
  | .error (.fault f) w' => .error (.fault (f.orLine line)) w'
  | result => result

/-- Begins a statement. -/
def beginStatement (n : Nat) (position : Position) (site : Site) : Structured Unit := do
  if (← get).interferesAt site.frame then throw .interference
  else step (Run.beginStatement n position site)

/-- Answers a request. -/
def answer (n : Nat) (request : Request) (site : Site) : Structured Reply := do
  if request.interferes (← get).process.isPending then throw .interference
  else step (Run.perform n request site)

/-- Calls a function of the host. -/
def callHost : Nat → HostAction → Arguments → Site → Structured Value
  | 0, _, _, _ => exhausted
  | n + 1, action, a, site =>
    match action with
    | .stop => do
      if (← get).process.isPending then throw .interference
      else step (Run.hostFunction .stop a site)
    | .request => do
      let w ← get
      let r := Request.ofScript (w.display (a.named "a")) (Run.requestArgument w (a.named "b"))
      let reply ← answer n r site
      step (Run.produce fun w => w.replyValue reply)
    | action => step (Run.hostFunction action a site)

mutual

/-- Evaluates an operation that is no statement. -/
def eval : Nat → Operation → Site → Structured Value
  | 0, _, _ => exhausted
  | n + 1, operation, site =>
    match operation with
    | .noop => return .nil
    | .literal v => return .ofLiteral v
    | .constant b => return .bool b
    | .resolve chain => do
      let (path, origin) ← walk n chain none site
      step (Run.readChain path origin site)
    | .assign target value => do
      let (path, origin) ← walk n target none site
      let x ← eval n value (site.hold origin.toList)
      step (Run.writeChain path origin x site)
      return .nil
    | .call callee arguments => do
      let (path, origin) ← walk n callee none site
      let f ← step (Run.readChain path origin site)
      let xs ← evalList n arguments [] (site.hold (f :: origin.toList))
      match f with
      | .function f => callFunction n f (origin.getD .nil) xs site
      | _ => fail .notCallable
    | .function d => do
      let f ← step (Run.produce fun w => w.newFunction (.closure d site.frame))
      match d.name? with
      | some name => step (Run.writeAt (fun w => w.variableSlot site.frame [name]) f)
      | none => pure ()
      return f
    | .debugger => do
      step (Run.arm true)
      return .nil
    | .evaluate operator left right => do
      let a ← eval n left site
      let isTrue := (← get).truthy a
      match operator with
      | .and =>
        if isTrue then
          let b ← eval n right (site.hold [a])
          return .bool ((← get).truthy b)
        else return .bool false
      | .or =>
        if isTrue then return .bool true
        else
          let b ← eval n right (site.hold [a])
          return .bool ((← get).truthy b)
      | _ =>
        let b ← eval n right (site.hold [a])
        step (Run.produce fun w => w.apply operator a b)
    | .negate argument => do
      let a ← eval n argument site
      return .bool (!(← get).truthy a)
    | .signed operator argument => do
      let a ← eval n argument site
      match operator with
      | .minus => return .number (-(World.toNumber a))
      | _ => return .number (World.toNumber a)
    | .instantiate argument => do
      match ← eval n argument site with
      | .map r => step (Run.produce fun w => w.newMap (w.contents r).instantiate)
      | _ => fail .notInstantiable
    | .map entries => do
      let made ← evalEntries n entries .empty site
      step (Run.produce fun w => w.newMap ⟨made, false⟩)
    | .list items => do
      let xs ← evalList n items [] site
      step (Run.produce fun w => w.newList xs)
    | _ => throw .misplaced

/-- Evaluates operations from left to right. -/
def evalList : Nat → List Operation → List Value → Site → Structured (List Value)
  | 0, _, _, _ => exhausted
  | _ + 1, [], done, _ => return done
  | n + 1, o :: os, done, site => do
    let x ← eval n o (site.hold done)
    evalList n os (done ++ [x]) site

/-- Evaluates the values of entries from left to right. -/
def evalEntries : Nat → List (String × Operation) → OrderedMap Value → Site →
    Structured (OrderedMap Value)
  | 0, _, _, _ => exhausted
  | _ + 1, [], done, _ => return done
  | n + 1, (key, o) :: rest, done, site => do
    let x ← eval n o (site.hold done.values)
    evalEntries n rest (done.insert key x) site

/-- Walks a chain of access up to its last key. -/
def walk : Nat → List Segment → Option Value → Site → Structured (Path × Option Value)
  | 0, _, _, _ => exhausted
  | _ + 1, [], origin, _ => return ([], origin)
  | n + 1, segment :: rest, origin, site =>
    match segment with
    | .root o => do
      let x ← eval n o (site.hold origin.toList)
      walk n rest (some x) site
    | .name key => walkKey n key rest origin site
    | .index o => do
      let x ← eval n o (site.hold origin.toList)
      walkKey n ((← get).display x) rest origin site

/-- Goes on with a chain of access at a key. -/
def walkKey : Nat → String → List Segment → Option Value → Site → Structured (Path × Option Value)
  | 0, _, _, _, _ => exhausted
  | n + 1, key, rest, origin, site => do
    if rest.isEmpty then return ([key], origin)
    else
      let x ← step (Run.readChain [key] origin site)
      walk n rest (some x) site

/-- Runs a statement that steers a run. -/
def exec : Nat → Operation → Surroundings → Site → Structured Outcome
  | 0, _, _, _ => exhausted
  | n + 1, operation, around, site =>
    match operation with
    | .chunk body => execBlock n body around site
    | .conditional branches => execBranches n branches around site
    | .whileLoop condition body => do
      let frame ← step (Run.produce fun w => w.forkLoop site.frame)
      execWhile n condition body around.loop (site.enter frame)
    | .forLoop target iterator body => do
      let frame ← step (Run.produce fun w => w.forkLoop site.frame)
      let inner := site.enter frame
      let (path, origin) ← walk n target none inner
      let sequence ← eval n iterator (inner.hold origin.toList)
      let items ← step (Run.read fun w => w.items sequence)
      execFor n items path origin body around.loop (inner.hold (sequence :: origin.toList))
    | .returnFrom argument =>
      if around.inCall then do
        let x ← match argument with
          | some a => eval n a site
          | none => pure .nil
        return .returned x
      else fail .unexpectedReturn
    | .breakLoop => if around.inLoop then return .broken else fail .unexpectedBreak
    | .continueLoop => if around.inLoop then return .continued else fail .unexpectedContinue
    | _ => throw .misplaced

/-- Runs statements up to the first that does not end normally. -/
def execBlock : Nat → List Statement → Surroundings → Site → Structured Outcome
  | 0, _, _, _ => exhausted
  | _ + 1, [], _, _ => return .normal
  | n + 1, .mk operation position :: rest, around, site => do
    beginStatement n position site
    let outcome ← atLine position.line <|
      if operation.steers then exec n operation around site
      else do
        discard (eval n operation site)
        return .normal
    match outcome with
    | .normal => execBlock n rest around site
    | outcome => return outcome

/-- Runs the first branch whose condition holds. -/
def execBranches : Nat → List Branch → Surroundings → Site → Structured Outcome
  | 0, _, _, _ => exhausted
  | _ + 1, [], _, _ => return .normal
  | n + 1, .mk condition body :: rest, around, site => do
    let c ← eval n condition site
    if (← get).truthy c then execBlock n body around site
    else execBranches n rest around site

/-- Runs the rounds of a loop while its condition holds and none of them leaves the loop. -/
def execWhile : Nat → Operation → List Statement → Surroundings → Site → Structured Outcome
  | 0, _, _, _, _ => exhausted
  | n + 1, condition, body, around, site => do
    let c ← eval n condition site
    if (← get).truthy c then
      match ← execBlock n body around site with
      | .broken => return .normal
      | .returned v => return .returned v
      | _ => execWhile n condition body around site
    else return .normal

/-- Runs a round of a loop for each item while none of them leaves the loop. -/
def execFor : Nat → List World.Item → Path → Option Value → List Statement → Surroundings → Site →
    Structured Outcome
  | 0, _, _, _, _, _, _ => exhausted
  | _ + 1, [], _, _, _, _, _ => return .normal
  | n + 1, item :: rest, path, origin, body, around, site => do
    let x ← step (Run.produce fun w => w.itemValue item)
    step (Run.writeChain path origin x site)
    match ← execBlock n body around (site.hold (rest.map (·.held))) with
    | .broken => return .normal
    | .returned v => return .returned v
    | _ => execFor n rest path origin body around site

/-- Calls a function with a receiver and arguments. -/
def callFunction : Nat → FunctionRef → Value → List Value → Site → Structured Value
  | 0, _, _, _, _ => exhausted
  | n + 1, f, receiver, given, site =>
    match f with
    | .builtin b =>
      let defaults := b.parameters.map fun p => Value.ofLiteral p.2
      let a : Arguments := ⟨receiver, b.parameters.map (·.1), Arguments.fill defaults given⟩
      callBuiltin n b a (site.hold (receiver :: a.values))
    | .made i => do
      match (← get).functions.get? i with
      | none => fail .notCallable
      | some (.closure d frame) =>
        let extra := given.drop d.parameters.length
        invoke n d frame receiver given (site.hold (.function f :: extra))
      | some (.host _ parameters action) =>
        let a : Arguments :=
          ⟨receiver, parameters.map (·.1), Arguments.fill (parameters.map (·.2)) given⟩
        callHost n action a (site.hold (.function f :: receiver :: a.values))

/-- Runs the body of a function. The call gives what the body returns, or nothing. -/
def invoke : Nat → FunctionDeclaration → FrameRef → Value → List Value → Site → Structured Value
  | 0, _, _, _, _, _ => exhausted
  | n + 1, d, scope, receiver, given, site => do
    let frame ← step (Run.produce fun w => w.fork scope .function false none none)
    let inner := site.enter frame
    step (Run.bindName frame "self" receiver)
    bindParameters n d.parameters given inner
    match ← execBlock n d.body .body inner with
    | .returned v => return v
    | _ => return .nil

/-- Binds parameters from left to right. -/
def bindParameters : Nat → List FormalParameter → List Value → Site → Structured Unit
  | 0, _, _, _ => exhausted
  | _ + 1, [], _, _ => return ()
  | n + 1, p :: ps, x :: xs, site => do
    step (Run.bindName site.frame p.name x)
    bindParameters n ps xs site
  | n + 1, p :: ps, [], site => do
    let x ← match p.default with
      | some o => eval n o site
      | none => pure .nil
    step (Run.bindName site.frame p.name x)
    bindParameters n ps [] site

/-- Calls a built-in function. -/
def callBuiltin : Nat → Builtin → Arguments → Site → Structured Value
  | 0, _, _, _ => exhausted
  | n + 1, b, a, site =>
    match b with
    | .string m => step (Run.produce fun w => w.stringMethod m a)
    | .global f => step (Run.produce fun w => w.globalFunction f a)
    | .list m => do
      match a.list?, a.callback?, m with
      | some r, some f, .forEach => callEach n f a.receiver (numbered ((← get).elements r)) site
      | some r, some f, .find => callFind n f a.receiver (numbered ((← get).elements r)) site
      | some r, some f, .map => do
        let xs ← callMap n f a.receiver (numbered ((← get).elements r)) [] site
        step (Run.produce fun w => w.newList xs)
      | some r, some f, .reduce =>
        callReduce n f a.receiver (numbered ((← get).elements r)) (a.named "initalValue") site
      | _, _, m => step (Run.produce fun w => w.listMethod m a)
    | .map m => do
      match a.map?, a.callback?, m with
      | some r, some f, .forEach => callEach n f a.receiver (keyed ((← get).contents r)) site
      | some r, some f, .find => callFind n f a.receiver (keyed ((← get).contents r)) site
      | _, _, m => step (Run.produce fun w => w.mapMethod m a)

/-- Calls a function for each item, with the item and its index or key. -/
def callEach : Nat → FunctionRef → Value → List (Value × Value) → Site → Structured Value
  | 0, _, _, _, _ => exhausted
  | _ + 1, _, _, [], _ => return .nil
  | n + 1, f, receiver, (x, key) :: rest, site => do
    discard (callFunction n f receiver [x, key] (site.hold (rest.map (·.1))))
    callEach n f receiver rest site

/-- Gives the first item for which a function gives something true. -/
def callFind : Nat → FunctionRef → Value → List (Value × Value) → Site → Structured Value
  | 0, _, _, _, _ => exhausted
  | _ + 1, _, _, [], _ => return .nil
  | n + 1, f, receiver, (x, key) :: rest, site => do
    let found ← callFunction n f receiver [x, key] (site.hold (x :: rest.map (·.1)))
    if (← get).truthy found then return x
    else callFind n f receiver rest site

/-- Gives what a function gives for each item, behind what is already there. -/
def callMap : Nat → FunctionRef → Value → List (Value × Value) → List Value → Site →
    Structured (List Value)
  | 0, _, _, _, _, _ => exhausted
  | _ + 1, _, _, [], done, _ => return done
  | n + 1, f, receiver, (x, key) :: rest, done, site => do
    let y ← callFunction n f receiver [x, key] (site.hold (done ++ rest.map (·.1)))
    callMap n f receiver rest (done ++ [y]) site

/-- Calls a function for each item with what it gave for the item before. -/
def callReduce : Nat → FunctionRef → Value → List (Value × Value) → Value → Site → Structured Value
  | 0, _, _, _, _, _ => exhausted
  | _ + 1, _, _, [], done, _ => return done
  | n + 1, f, receiver, (x, key) :: rest, done, site => do
    let y ← callFunction n f receiver [done, x, key] (site.hold (rest.map (·.1)))
    callReduce n f receiver rest y site

end

end Structured

end LineScript
