import LineScript.Proofs.Run.Places
import LineScript.Session

/-!
# Notes of control flow implement structured control flow

A run takes notes of control flow in frames and looks them up after every statement. It does the
same as a structured run, which has no such notes: the same lines are printed, the same values are
bound, the same objects are made, and the same faults arise.
-/

namespace LineScript

namespace Run

open Operation (Plain Tame)

variable {pending : Bool} {n : Nat}

/-- Up to a bound on nested steps, runs match structured runs. -/
structure Level (pending : Bool) (n : Nat) : Prop where
  eval (o : Operation) (site : Site) (ho : o.Plain) :
    Same pending site.frame (eval n o site) (Structured.eval n o site)
  evalList (os : List Operation) (done : List Value) (site : Site) (hos : ∀ o ∈ os, o.Plain) :
    Same pending site.frame (evalList n os done site) (Structured.evalList n os done site)
  evalEntries (es : List (String × Operation)) (done : OrderedMap Value) (site : Site)
    (hes : ∀ o ∈ es.map (·.2), o.Plain) :
    Same pending site.frame (evalEntries n es done site) (Structured.evalEntries n es done site)
  walk (chain : List Segment) (origin : Option Value) (site : Site)
    (hchain : ∀ o ∈ chain.flatMap Segment.parts, o.Plain) :
    Same pending site.frame (walk n chain origin site) (Structured.walk n chain origin site)
  walkKey (key : String) (rest : List Segment) (origin : Option Value) (site : Site)
    (hrest : ∀ o ∈ rest.flatMap Segment.parts, o.Plain) :
    Same pending site.frame (walkKey n key rest origin site)
      (Structured.walkKey n key rest origin site)
  exec (o : Operation) (site : Site) (inLoop : Bool) (call : Option FrameRef)
    (hsteers : o.steers = true) (ho : o.Tame) :
    Statements pending ⟨site.frame, inLoop, call⟩ (Run.eval n o site)
      (Structured.exec n o ⟨inLoop, call.isSome⟩ site)
  block (body : List Statement) (site : Site) (inLoop : Bool) (call : Option FrameRef)
    (hbody : ∀ o ∈ body.map Statement.operation, o.Tame) :
    Statements pending ⟨site.frame, inLoop, call⟩ (runBlock n body site)
      (Structured.execBlock n body ⟨inLoop, call.isSome⟩ site)
  branches (branches : List Branch) (site : Site) (inLoop : Bool) (call : Option FrameRef)
    (hbranches : (Operation.conditional branches).Tame) :
    Statements pending ⟨site.frame, inLoop, call⟩ (runBranches n branches site)
      (Structured.execBranches n branches ⟨inLoop, call.isSome⟩ site)
  whileLoop (condition : Operation) (body : List Statement) (site : Site)
    (call : Option FrameRef) (hcondition : condition.Plain)
    (hbody : ∀ o ∈ body.map Statement.operation, o.Tame) :
    Rounds pending ⟨site.frame, true, call⟩ (runWhile n condition body site)
      (Structured.execWhile n condition body ⟨true, call.isSome⟩ site)
  forLoop (items : List World.Item) (path : Path) (origin : Option Value) (body : List Statement)
    (site : Site) (call : Option FrameRef) (hbody : ∀ o ∈ body.map Statement.operation, o.Tame) :
    Rounds pending ⟨site.frame, true, call⟩ (runFor n items path origin body site)
      (Structured.execFor n items path origin body ⟨true, call.isSome⟩ site)
  callFunction (f : FunctionRef) (receiver : Value) (given : List Value) (site : Site) :
    Same pending site.frame (callFunction n f receiver given site)
      (Structured.callFunction n f receiver given site)
  invoke (d : FunctionDeclaration) (scope : FrameRef) (receiver : Value) (given : List Value)
    (site : Site) (hd : (Operation.function d).Tame) (w : World) (hw : w.Steady pending)
    (hscope : (w.frame? scope).isSome = true) :
    Matches (Gives pending w) (invoke n d scope receiver given site w)
      (Structured.invoke n d scope receiver given site w.calm)
  bindParameters (ps : List FormalParameter) (given : List Value) (site : Site)
    (hps : ∀ o ∈ ps.flatMap (·.default.toList), o.Plain) :
    Same pending site.frame (bindParameters n ps given site)
      (Structured.bindParameters n ps given site)
  callBuiltin (b : Builtin) (a : Arguments) (site : Site) :
    Same pending site.frame (callBuiltin n b a site) (Structured.callBuiltin n b a site)
  callEach (f : FunctionRef) (receiver : Value) (items : List (Value × Value)) (site : Site) :
    Same pending site.frame (callEach n f receiver items site)
      (Structured.callEach n f receiver items site)
  callFind (f : FunctionRef) (receiver : Value) (items : List (Value × Value)) (site : Site) :
    Same pending site.frame (callFind n f receiver items site)
      (Structured.callFind n f receiver items site)
  callMap (f : FunctionRef) (receiver : Value) (items : List (Value × Value)) (done : List Value)
    (site : Site) :
    Same pending site.frame (callMap n f receiver items done site)
      (Structured.callMap n f receiver items done site)
  callReduce (f : FunctionRef) (receiver : Value) (items : List (Value × Value)) (done : Value)
    (site : Site) :
    Same pending site.frame (callReduce n f receiver items done site)
      (Structured.callReduce n f receiver items done site)

theorem level_zero : Level pending 0 where
  eval _ _ _ := .exhausted
  evalList _ _ _ _ := .exhausted
  evalEntries _ _ _ _ := .exhausted
  walk _ _ _ _ := .exhausted
  walkKey _ _ _ _ _ := .exhausted
  exec _ _ _ _ _ _ := .exhausted
  block _ _ _ _ _ := .exhausted
  branches _ _ _ _ _ := .exhausted
  whileLoop _ _ _ _ _ _ := .exhausted
  forLoop _ _ _ _ _ _ _ := .exhausted
  callFunction _ _ _ _ := .exhausted
  invoke _ _ _ _ _ _ w _ _ := .exhausted w
  bindParameters _ _ _ _ := .exhausted
  callBuiltin _ _ _ := .exhausted
  callEach _ _ _ _ := .exhausted
  callFind _ _ _ _ := .exhausted
  callMap _ _ _ _ _ := .exhausted
  callReduce _ _ _ _ _ := .exhausted

section Values

/-- A new closure of tame code behind a frame that was made. -/
theorem newFunction_same {d : FunctionDeclaration} (hd : (Operation.function d).Tame)
    (r : FrameRef) :
    Same pending r (produce fun w => w.newFunction (.closure d r))
      (Structured.step (produce fun w => w.newFunction (.closure d r))) := by
  intro w hw hr
  refine .result (w := (w.newFunction (.closure d r)).2) ⟨rfl, ⟨hw.goes, hw.isPending, ?_⟩,
    .of_eq fun _ _ hf => hf⟩
  intro i e s hi
  change (w.functions.push _).get? i = _ at hi
  rw [Heap.get?_push] at hi
  split at hi
  · cases hi
    exact ⟨hd, hr⟩
  · exact hw.closures i e s hi

theorem eval_succ (h : Level pending n) (o : Operation) (site : Site) (ho : o.Plain) :
    Same pending site.frame (eval (n + 1) o site) (Structured.eval (n + 1) o site) := by
  obtain ⟨hsteers, htame⟩ := ho
  have operands : ∀ c ∈ o.operands, c.Plain := fun c hc => htame.operand hc
  have chained : ∀ path origin, Same pending site.frame (readChain path origin site)
      (Structured.step (readChain path origin site)) :=
    fun path origin => (Quiet.readChain path origin site).same _
  -- What steers a run is no value, and an import, the last case, is not tame.
  cases o
  all_goals try cases hsteers
  all_goals simp only [eval, Structured.eval]
  case noop => exact .pure _
  case literal v => exact .pure _
  case constant b => exact .pure _
  case resolve chain =>
    exact (h.walk chain none site operands).bind fun ⟨path, origin⟩ => chained path origin
  case assign target value =>
    obtain ⟨htarget, hvalue⟩ := List.forall_mem_append.1 operands
    refine (h.walk target none site htarget).bind fun ⟨path, origin⟩ => ?_
    refine (h.eval value (site.hold origin.toList) (hvalue value List.mem_cons_self)).bind
      fun x => ?_
    exact ((Quiet.writeChain path origin x site).same _).bind fun _ => .pure _
  case call callee arguments =>
    obtain ⟨hcallee, harguments⟩ := List.forall_mem_append.1 operands
    refine (h.walk callee none site hcallee).bind fun ⟨path, origin⟩ => ?_
    refine (chained path origin).bind fun f => ?_
    refine (h.evalList arguments [] (site.hold (f :: origin.toList)) harguments).bind fun xs => ?_
    cases f with
    | function f => exact h.callFunction f _ xs site
    | _ => exact .fail _
  case function d =>
    refine (newFunction_same htame site.frame).bind fun f => ?_
    cases d.name? with
    | none => exact .pure f
    | some name =>
      exact ((Quiet.writeAt (fun w => World.slotFrom_calm w _ _ _) f).same _).bind fun _ => .pure f
  case debugger => exact ((Quiet.arm true).same _).bind fun _ => .pure _
  case evaluate operator left right =>
    have hleft : left.Plain := operands left List.mem_cons_self
    have hright : right.Plain := operands right (List.mem_cons_of_mem _ List.mem_cons_self)
    refine (h.eval left site hleft).bind fun a => .get fun w => ?_
    rw [World.truthy_withFrames]
    have second : Same pending site.frame
        (do let b ← Run.eval n right (site.hold [a]); return Value.bool ((← get).truthy b))
        (do let b ← Structured.eval n right (site.hold [a])
            return Value.bool ((← get).truthy b)) := by
      refine (h.eval right (site.hold [a]) hright).bind fun b => .get fun w => ?_
      rw [World.truthy_withFrames]
      exact .pure _
    have applied : ∀ operator, Same pending site.frame
        (do let b ← Run.eval n right (site.hold [a]); produce fun w => w.apply operator a b)
        (do let b ← Structured.eval n right (site.hold [a])
            Structured.step (produce fun w => w.apply operator a b)) :=
      fun operator => (h.eval right (site.hold [a]) hright).bind fun b =>
        (Quiet.aloof (.apply operator a b)).same _
    cases operator
    case and =>
      dsimp only
      split
      · exact second
      · exact .pure _
    case or =>
      dsimp only
      split
      · exact .pure _
      · exact second
    all_goals exact applied _
  case negate argument =>
    refine (h.eval argument site (operands argument List.mem_cons_self)).bind fun a => ?_
    refine .get fun w => ?_
    rw [World.truthy_withFrames]
    exact .pure _
  case signed operator argument =>
    refine (h.eval argument site (operands argument List.mem_cons_self)).bind fun a => ?_
    cases operator <;> exact .pure _
  case instantiate argument =>
    refine (h.eval argument site (operands argument List.mem_cons_self)).bind fun a => ?_
    cases a with
    | map r => exact (Quiet.aloof (.newMapOf fun _ _ => rfl)).same _
    | _ => exact .fail _
  case map entries =>
    refine (h.evalEntries entries .empty site operands).bind fun made => ?_
    exact (Quiet.aloof (.newMap _)).same _
  case list items =>
    refine (h.evalList items [] site operands).bind fun xs => ?_
    exact (Quiet.aloof (.newList xs)).same _
  case imported target chunk => cases htame.target?_eq

theorem evalList_succ (h : Level pending n) (os : List Operation) (done : List Value) (site : Site)
    (hos : ∀ o ∈ os, o.Plain) :
    Same pending site.frame (evalList (n + 1) os done site)
      (Structured.evalList (n + 1) os done site) := by
  cases os with
  | nil => exact .pure done
  | cons o os =>
    obtain ⟨ho, hos⟩ := List.forall_mem_cons.1 hos
    rw [evalList, Structured.evalList]
    exact (h.eval o (site.hold done) ho).bind fun x => h.evalList os _ site hos

theorem evalEntries_succ (h : Level pending n) (es : List (String × Operation))
    (done : OrderedMap Value) (site : Site) (hes : ∀ o ∈ es.map (·.2), o.Plain) :
    Same pending site.frame (evalEntries (n + 1) es done site)
      (Structured.evalEntries (n + 1) es done site) := by
  cases es with
  | nil => exact .pure done
  | cons e es =>
    obtain ⟨he, hes⟩ := List.forall_mem_cons.1 hes
    rw [evalEntries, Structured.evalEntries]
    exact (h.eval e.2 (site.hold done.values) he).bind fun x => h.evalEntries es _ site hes

theorem walk_succ (h : Level pending n) (chain : List Segment) (origin : Option Value)
    (site : Site) (hchain : ∀ o ∈ chain.flatMap Segment.parts, o.Plain) :
    Same pending site.frame (walk (n + 1) chain origin site)
      (Structured.walk (n + 1) chain origin site) := by
  cases chain with
  | nil => exact .pure _
  | cons segment rest =>
    obtain ⟨hsegment, hrest⟩ := List.forall_mem_append.1 hchain
    cases segment with
    | root o =>
      have ho := h.eval o (site.hold origin.toList) (hsegment o List.mem_cons_self)
      rw [walk, Structured.walk]
      exact ho.bind fun x => h.walk rest _ site hrest
    | name key =>
      rw [walk, Structured.walk]
      exact h.walkKey key rest origin site hrest
    | index o =>
      have ho := h.eval o (site.hold origin.toList) (hsegment o List.mem_cons_self)
      rw [walk, Structured.walk]
      refine ho.bind fun x => .get fun w => ?_
      rw [World.display_withFrames]
      exact h.walkKey _ rest origin site hrest

theorem walkKey_succ (h : Level pending n) (key : String) (rest : List Segment)
    (origin : Option Value) (site : Site) (hrest : ∀ o ∈ rest.flatMap Segment.parts, o.Plain) :
    Same pending site.frame (walkKey (n + 1) key rest origin site)
      (Structured.walkKey (n + 1) key rest origin site) := by
  rw [walkKey, Structured.walkKey]
  split
  · exact .pure _
  · exact ((Quiet.readChain [key] origin site).same _).bind fun x => h.walk rest _ site hrest

theorem bindParameters_succ (h : Level pending n) (ps : List FormalParameter) (given : List Value)
    (site : Site) (hps : ∀ o ∈ ps.flatMap (·.default.toList), o.Plain) :
    Same pending site.frame (bindParameters (n + 1) ps given site)
      (Structured.bindParameters (n + 1) ps given site) := by
  cases ps with
  | nil => exact .pure ()
  | cons p ps =>
    obtain ⟨hp, hps⟩ := List.forall_mem_append.1 hps
    have bound : ∀ x given, Same pending site.frame
        (do bindName site.frame p.name x; Run.bindParameters n ps given site)
        (do Structured.step (bindName site.frame p.name x)
            Structured.bindParameters n ps given site) :=
      fun x given => ((Quiet.bindName site.frame p.name x).same _).bind fun _ =>
        h.bindParameters ps given site hps
    cases given with
    | cons x xs =>
      rw [bindParameters, Structured.bindParameters]
      exact bound x xs
    | nil =>
      rw [bindParameters, Structured.bindParameters]
      cases hdefault : p.default with
      | none => exact (Same.pure Value.nil).bind fun x => bound x []
      | some o => exact (h.eval o site (hp o (by simp [hdefault]))).bind fun x => bound x []

end Values

section Functions

theorem callFunction_succ (h : Level pending n) (f : FunctionRef) (receiver : Value)
    (given : List Value) (site : Site) :
    Same pending site.frame (callFunction (n + 1) f receiver given site)
      (Structured.callFunction (n + 1) f receiver given site) := by
  cases f with
  | builtin b =>
    rw [callFunction, Structured.callFunction]
    exact h.callBuiltin b _ (site.hold _)
  | made i =>
    intro w hw hr
    have hfunctions : w.calm.functions = w.functions := rfl
    rw [callFunction, Structured.callFunction, get_bind_apply, get_bind_apply, hfunctions]
    cases hi : w.functions.get? i with
    | none => exact .fault _ w
    | some f =>
      cases f with
      | closure d frame =>
        obtain ⟨hd, hframe⟩ := hw.closures i d frame hi
        exact h.invoke d frame receiver given _ hd w hw hframe
      | host name parameters action => exact callHost_same n action _ _ site.frame w hw hr

theorem invoke_succ (h : Level pending n) (d : FunctionDeclaration) (scope : FrameRef)
    (receiver : Value) (given : List Value) (site : Site) (hd : (Operation.function d).Tame)
    (w : World) (hw : w.Steady pending) (hscope : (w.frame? scope).isSome = true) :
    Matches (Gives pending w) (invoke (n + 1) d scope receiver given site w)
      (Structured.invoke (n + 1) d scope receiver given site w.calm) := by
  obtain ⟨before, hbefore⟩ := Option.isSome_iff_exists.1 hscope
  have hfresh := (World.fork_fresh hbefore .function false none none).1
  have hkept := w.kept_fork scope .function false none none
  have hstands := World.stands_call hbefore
  have hsteady := hw.fork scope .function false none none
  rw [invoke, Structured.invoke]
  refine matches_fork ?_
  generalize hfork : w.fork scope .function false none none = made at hfresh hkept hstands hsteady
  obtain ⟨frame, w₁⟩ := made
  dsimp only at hfresh hkept hstands hsteady ⊢
  refine ((Quiet.bindName frame "self" receiver) w₁ hsteady).bind ?_
  rintro _ _ w₂ ⟨-, hw₂, hkept₂⟩
  have hstands₂ := hstands.kept hkept₂
  refine (h.bindParameters d.parameters given (site.enter frame) (fun o ho => hd.operand ho) w₂ hw₂
    hstands₂.made).bind ?_
  rintro _ _ w₃ ⟨-, hw₃, hkept₃⟩
  have hstands₃ := hstands₂.kept hkept₃
  refine (h.block d.body (site.enter frame) false (some frame)
    (fun o ho => hd.part (List.mem_append_right _ ho)) w₃ hw₃ hstands₃).bind ?_
  rintro _ o w₄ ⟨hfits, hw₄, hkept₄⟩
  obtain ⟨f, hf, _, hresult⟩ := ((World.Stands.noted hstands₃ hfits).kept hkept₄).call frame rfl
  have hcall : callResult frame w₄ = .ok o.value w₄ := by
    change EStateM.Result.ok (((w₄.frame? frame).map (·.result)).getD .nil) w₄ = _
    rw [hf, ← hresult]
    rfl
  -- All that the body noted it noted in the frame of the call, which was not there before.
  have hwhole : w.Kept w₄ := by
    have hbody := (World.KeptBut.noted_call w₃ frame false o).trans (.but hkept₄)
    exact ((((World.KeptBut.but hkept).trans (.but hkept₂)).trans (.but hkept₃)).trans hbody).kept
      hfresh
  rw [hcall]
  cases o <;> exact .result ⟨rfl, hw₄, hwhole⟩

theorem callBuiltin_succ (h : Level pending n) (b : Builtin) (a : Arguments) (site : Site) :
    Same pending site.frame (callBuiltin (n + 1) b a site)
      (Structured.callBuiltin (n + 1) b a site) := by
  cases b with
  | string m =>
    rw [callBuiltin, Structured.callBuiltin]
    exact (Quiet.aloof (.stringMethod m a)).same _
  | global f =>
    rw [callBuiltin, Structured.callBuiltin]
    exact (Quiet.aloof (.globalFunction f a)).same _
  | list m =>
    have plain : Same pending site.frame (produce fun w => w.listMethod m a)
        (Structured.step (produce fun w => w.listMethod m a)) :=
      (Quiet.aloof (.listMethod m a)).same _
    rw [callBuiltin.eq_def, Structured.callBuiltin.eq_def]
    dsimp only
    cases a.list? with
    | none => exact plain
    | some r =>
      cases a.callback? with
      | none => exact plain
      | some f =>
        cases m
        case forEach => exact .get fun w => h.callEach f a.receiver _ site
        case find => exact .get fun w => h.callFind f a.receiver _ site
        case map =>
          refine .get fun w => ?_
          exact (h.callMap f a.receiver _ [] site).bind fun xs =>
            (Quiet.aloof (.newList xs)).same _
        case reduce => exact .get fun w => h.callReduce f a.receiver _ _ site
        all_goals exact plain
  | map m =>
    have plain : Same pending site.frame (produce fun w => w.mapMethod m a)
        (Structured.step (produce fun w => w.mapMethod m a)) :=
      (Quiet.aloof (.mapMethod m a)).same _
    rw [callBuiltin.eq_def, Structured.callBuiltin.eq_def]
    dsimp only
    cases a.map? with
    | none => exact plain
    | some r =>
      cases a.callback? with
      | none => exact plain
      | some f =>
        cases m
        case forEach => exact .get fun w => h.callEach f a.receiver _ site
        case find => exact .get fun w => h.callFind f a.receiver _ site
        all_goals exact plain

theorem callEach_succ (h : Level pending n) (f : FunctionRef) (receiver : Value)
    (items : List (Value × Value)) (site : Site) :
    Same pending site.frame (callEach (n + 1) f receiver items site)
      (Structured.callEach (n + 1) f receiver items site) := by
  cases items with
  | nil => exact .pure _
  | cons item rest =>
    rw [callEach, Structured.callEach]
    have hcall := h.callFunction f receiver [item.1, item.2] (site.hold (rest.map (·.1)))
    exact hcall.discard.bind fun _ => h.callEach f receiver rest site

theorem callFind_succ (h : Level pending n) (f : FunctionRef) (receiver : Value)
    (items : List (Value × Value)) (site : Site) :
    Same pending site.frame (callFind (n + 1) f receiver items site)
      (Structured.callFind (n + 1) f receiver items site) := by
  cases items with
  | nil => exact .pure _
  | cons item rest =>
    rw [callFind, Structured.callFind]
    have hcall := h.callFunction f receiver [item.1, item.2] (site.hold (item.1 :: rest.map (·.1)))
    refine hcall.bind fun found => .get fun w => ?_
    rw [World.truthy_withFrames]
    split
    · exact .pure _
    · exact h.callFind f receiver rest site

theorem callMap_succ (h : Level pending n) (f : FunctionRef) (receiver : Value)
    (items : List (Value × Value)) (done : List Value) (site : Site) :
    Same pending site.frame (callMap (n + 1) f receiver items done site)
      (Structured.callMap (n + 1) f receiver items done site) := by
  cases items with
  | nil => exact .pure _
  | cons item rest =>
    rw [callMap, Structured.callMap]
    have hcall := h.callFunction f receiver [item.1, item.2] (site.hold (done ++ rest.map (·.1)))
    exact hcall.bind fun y => h.callMap f receiver rest _ site

theorem callReduce_succ (h : Level pending n) (f : FunctionRef) (receiver : Value)
    (items : List (Value × Value)) (done : Value) (site : Site) :
    Same pending site.frame (callReduce (n + 1) f receiver items done site)
      (Structured.callReduce (n + 1) f receiver items done site) := by
  cases items with
  | nil => exact .pure _
  | cons item rest =>
    rw [callReduce, Structured.callReduce]
    have hcall := h.callFunction f receiver [done, item.1, item.2] (site.hold (rest.map (·.1)))
    exact hcall.bind fun y => h.callReduce f receiver rest y site

end Functions

section Statements

variable {inLoop : Bool} {call : Option FrameRef}

/-- A `break` or a `continue` is noted in the loop around it. -/
theorem leave_noted (site : Site) (inLoop : Bool) (call : Option FrameRef) (kind : FaultKind)
    {o : Outcome} {g : Frame → Frame} (hfits : o.Fits ⟨true, call.isSome⟩)
    (hg : ∀ w : World, w.noted ⟨site.frame, true, call⟩ o = w.modifyFrame site.frame g) :
    Statements pending ⟨site.frame, inLoop, call⟩
      (MonadState.get >>= fun w : World => match (w.frame? site.frame).bind (·.loop) with
        | none => fail kind
        | some l => modify (fun w => w.modifyFrame l g) >>= fun _ => pure Value.nil)
      (if inLoop = true then pure o else Structured.fail kind) := by
  cases inLoop with
  | false =>
    refine statement_fault fun w hs => ?_
    rw [get_bind_apply, hs.loop_eq]
    rfl
  | true =>
    refine statement_noted (a := .nil) hfits fun w hs => ?_
    rw [get_bind_apply, hs.loop_eq, hg]
    rfl

/-- A `return` is noted in the call around it. -/
theorem return_noted (site : Site) (inLoop : Bool) (c : FrameRef) (x : Value) :
    Statements pending ⟨site.frame, inLoop, some c⟩
      (finishCall site.frame x >>= fun _ => pure Value.nil) (pure (.returned x)) := by
  refine statement_noted (a := .nil) rfl fun w hs => ?_
  refine congrArg (EStateM.Result.ok Value.nil) ?_
  dsimp only
  rw [hs.call_eq]
  rfl

theorem exec_succ (h : Level pending n) (o : Operation) (site : Site) (inLoop : Bool)
    (call : Option FrameRef) (hsteers : o.steers = true) (ho : o.Tame) :
    Statements pending ⟨site.frame, inLoop, call⟩ (eval (n + 1) o site)
      (Structured.exec (n + 1) o ⟨inLoop, call.isSome⟩ site) := by
  cases o
  all_goals try cases hsteers
  all_goals simp only [eval, Structured.exec]
  case chunk body => exact (h.block body site inLoop call fun o hb => ho.part hb).andThen _
  case conditional branches => exact (h.branches branches site inLoop call ho).andThen _
  case whileLoop condition body =>
    refine statements_loop (p := ⟨site.frame, inLoop, call⟩) fun frame => ?_
    exact (h.whileLoop condition body (site.enter frame) call (ho.operand List.mem_cons_self)
      fun o hb => ho.part (List.mem_cons_of_mem _ hb)).andThen _
  case forLoop target iterator body =>
    refine statements_loop (p := ⟨site.frame, inLoop, call⟩) fun frame => ?_
    -- The target and the sequence are evaluated in the frame of the loop, in front of all rounds.
    have hlasting := Lasting.beginRound ⟨frame, true, call⟩
    refine .seq hlasting (h.walk target none (site.enter frame) fun c hc =>
      ho.operand (List.mem_append_left _ hc)) fun ⟨path, origin⟩ => ?_
    refine .seq hlasting (h.eval iterator ((site.enter frame).hold origin.toList)
      (ho.operand (List.mem_append_right _ List.mem_cons_self))) fun sequence => ?_
    refine .seq hlasting ((Quiet.read fun w => by rw [World.items_withFrames]).same _)
      fun items => ?_
    exact (h.forLoop items path origin body ((site.enter frame).hold (sequence :: origin.toList))
      call fun o hb => ho.part (List.mem_append_right _ (List.mem_cons_of_mem _ hb))).andThen _
  case returnFrom argument =>
    cases call with
    | none =>
      refine statement_fault fun w hs => ?_
      rw [get_bind_apply, hs.call_eq]
      rfl
    | some c =>
      intro w hw hs
      rw [get_bind_apply, hs.call_eq]
      cases argument with
      | none => exact Ends.seq (Lasting.stands _) (.pure _) (return_noted site inLoop c) w hw hs
      | some a =>
        have ha := h.eval a site (ho.operand List.mem_cons_self)
        exact Ends.seq (Lasting.stands _) ha (return_noted site inLoop c) w hw hs
  case breakLoop => exact leave_noted site inLoop call .unexpectedBreak rfl fun _ => rfl
  case continueLoop => exact leave_noted site inLoop call .unexpectedContinue rfl fun _ => rfl

theorem block_succ (h : Level pending n) (body : List Statement) (site : Site) (inLoop : Bool)
    (call : Option FrameRef) (hbody : ∀ o ∈ body.map Statement.operation, o.Tame) :
    Statements pending ⟨site.frame, inLoop, call⟩ (runBlock (n + 1) body site)
      (Structured.execBlock (n + 1) body ⟨inLoop, call.isSome⟩ site) := by
  cases body with
  | nil => exact .pure ()
  | cons statement rest =>
    cases statement with
    | mk operation position =>
      obtain ⟨hoperation, hrest⟩ := List.forall_mem_cons.1 hbody
      have hstatement : Statements pending ⟨site.frame, inLoop, call⟩ (eval n operation site)
          (if operation.steers then Structured.exec n operation ⟨inLoop, call.isSome⟩ site
            else discard (Structured.eval n operation site) >>= fun _ => pure .normal) := by
        cases hsteers : operation.steers with
        | true => exact h.exec operation site inLoop call hsteers hoperation
        | false => exact statement_of_same (h.eval operation site ⟨hsteers, hoperation⟩)
      rw [runBlock, Structured.execBlock]
      refine .seq (Lasting.stands ⟨site.frame, inLoop, call⟩) (beginStatement_same n position site)
        fun _ => ?_
      exact statements_next (hstatement.atLine position.line) (h.block rest site inLoop call hrest)

theorem branches_succ (h : Level pending n) (branches : List Branch) (site : Site) (inLoop : Bool)
    (call : Option FrameRef) (hbranches : (Operation.conditional branches).Tame) :
    Statements pending ⟨site.frame, inLoop, call⟩ (runBranches (n + 1) branches site)
      (Structured.execBranches (n + 1) branches ⟨inLoop, call.isSome⟩ site) := by
  cases branches with
  | nil => exact .pure ()
  | cons branch rest =>
    cases branch with
    | mk condition body =>
      obtain ⟨hcondition, hbody, hrest⟩ := Operation.tame_conditional_cons.1 hbranches
      rw [runBranches, Structured.execBranches]
      refine .seq (Lasting.stands ⟨site.frame, inLoop, call⟩) (h.eval condition site hcondition)
        fun c => .get fun w => ?_
      rw [World.truthy_withFrames]
      split
      · exact h.block body site inLoop call hbody
      · exact h.branches rest site inLoop call hrest

theorem whileLoop_succ (h : Level pending n) (condition : Operation) (body : List Statement)
    (site : Site) (call : Option FrameRef) (hcondition : condition.Plain)
    (hbody : ∀ o ∈ body.map Statement.operation, o.Tame) :
    Rounds pending ⟨site.frame, true, call⟩ (runWhile (n + 1) condition body site)
      (Structured.execWhile (n + 1) condition body ⟨true, call.isSome⟩ site) := by
  rw [runWhile, Structured.execWhile]
  refine .seq (Lasting.beginRound ⟨site.frame, true, call⟩) (h.eval condition site hcondition)
    fun c => .get fun w => ?_
  rw [World.truthy_withFrames]
  split
  · exact rounds_begin (round_finish rfl (h.block body site true call hbody)
      (h.whileLoop condition body site call hcondition hbody))
  · exact .pure ()

theorem forLoop_succ (h : Level pending n) (items : List World.Item) (path : Path)
    (origin : Option Value) (body : List Statement) (site : Site) (call : Option FrameRef)
    (hbody : ∀ o ∈ body.map Statement.operation, o.Tame) :
    Rounds pending ⟨site.frame, true, call⟩ (runFor (n + 1) items path origin body site)
      (Structured.execFor (n + 1) items path origin body ⟨true, call.isSome⟩ site) := by
  cases items with
  | nil => exact .pure ()
  | cons item rest =>
    have hlasting := Lasting.stands ⟨site.frame, true, call⟩
    rw [runFor, Structured.execFor]
    refine rounds_begin (.seq hlasting ((Quiet.aloof (.itemValue item)).same _) fun x => ?_)
    refine .seq hlasting ((Quiet.writeChain path origin x site).same _) fun _ => ?_
    exact round_finish rfl (h.block body (site.hold (rest.map World.Item.held)) true call hbody)
      (h.forLoop rest path origin body site call hbody)

end Statements

/-- Runs match structured runs, however deeply steps nest. -/
theorem level (pending : Bool) (n : Nat) : Level pending n := by
  induction n with
  | zero => exact level_zero
  | succ n ih =>
    exact
      { eval := eval_succ ih
        evalList := evalList_succ ih
        evalEntries := evalEntries_succ ih
        walk := walk_succ ih
        walkKey := walkKey_succ ih
        exec := exec_succ ih
        block := block_succ ih
        branches := branches_succ ih
        whileLoop := whileLoop_succ ih
        forLoop := forLoop_succ ih
        callFunction := callFunction_succ ih
        invoke := invoke_succ ih
        bindParameters := bindParameters_succ ih
        callBuiltin := callBuiltin_succ ih
        callEach := callEach_succ ih
        callFind := callFind_succ ih
        callMap := callMap_succ ih
        callReduce := callReduce_succ ih }

/-- A chunk gives nothing. -/
theorem eval_chunk {body : List Statement} {site : Site} {w w' : World} {v : Value}
    (h : eval n (.chunk body) site w = .ok v w') : v = .nil := by
  cases n with
  | zero => cases h
  | succ n =>
    rw [eval, bind_apply] at h
    cases hbody : runBlock n body site w with
    | ok a w₁ =>
      rw [hbody] at h
      cases h
      rfl
    | error e w₁ =>
      rw [hbody] at h
      cases h

/-- Notes of control flow implement structured control flow. A program without imports that is run
in a global frame does what the structured run of the same program does, up to any bound on nested
steps: it ends normally, stops with the same fault or goes beyond the bound, and leads to the same
world, notes of control flow in frames apart. The structured run is never stuck, and nothing is
said of runs that are interfered with. -/
theorem eval_structured {mode : ReadingMode} {source target : String} {p : Parsed}
    {library : Library} {o : Operation} {l : Linker} {pending : Bool} {w : World} {site : Site}
    {f : Frame} (hparse : parse mode source = .ok p) (hfree : p.chunk.ImportFree)
    (hlower : p.chunk.lowerWith library mode (.ofTarget target) = .ok o l)
    (hw : w.Steady pending) (hf : w.frame? site.frame = some f) (hkind : f.kind = .global)
    (hloop : f.loop = none) (hcall : f.call = none) (n : Nat) :
    match Structured.exec n o .outside site w.calm with
    | .ok outcome s => outcome = .normal ∧
        ∃ w', eval n o site w = .ok .nil w' ∧ w'.calm = s ∧ w'.Steady pending
    | .error (.fault e) s => ∃ w', eval n o site w = .error (.fault e) w' ∧ w'.calm = s
    | .error .exhausted s => ∃ w', eval n o site w = .error .exhausted w' ∧ w'.calm = s
    | .error .interference _ => True
    | .error .misplaced _ => False := by
  obtain ⟨htame, body, rfl⟩ := lowered_tame hparse hfree hlower
  have hstands : w.Stands ⟨site.frame, false, none⟩ :=
    ⟨⟨f, hf, hkind, hloop, hcall, fun h => by cases h⟩, fun c hc => by cases hc⟩
  have hmatches : Matches (fun _ => Left pending none ⟨site.frame, false, none⟩ w)
      (eval n (.chunk body) site w) (Structured.exec n (.chunk body) .outside site w.calm) :=
    (level pending n).exec (.chunk body) site false none rfl htame w hw hstands
  generalize hx : eval n (.chunk body) site w = x,
    Structured.exec n (.chunk body) .outside site w.calm = y at hmatches
  cases hmatches with
  | @result v outcome w' h =>
    obtain ⟨hfits, hw', _⟩ := h
    obtain rfl := eval_chunk hx
    refine ⟨?_, w', rfl, rfl, hw'⟩
    -- There is no loop and no call around the chunk that it could leave.
    cases outcome with
    | normal => rfl
    | broken => cases hfits
    | continued => cases hfits
    | returned v => cases hfits
  | fault e w' => exact ⟨w', rfl, rfl⟩
  | exhausted w' => exact ⟨w', rfl, rfl⟩
  | interference x s => trivial

/-- A loop that is broken off, and behind it a statement with nothing to break off. -/
def breakTwice : Node :=
  .chunk ⟨⟨1, 1⟩, ⟨2, 6⟩⟩
    [.whileLoop ⟨⟨1, 1⟩, ⟨1, 17⟩⟩ (.literal ⟨⟨1, 7⟩, ⟨1, 11⟩⟩ (.bool true) "true")
      [.breakStatement ⟨⟨1, 12⟩, ⟨1, 17⟩⟩],
    .breakStatement ⟨⟨2, 1⟩, ⟨2, 6⟩⟩] []

theorem parse_breakTwice :
    parse ⟨false, 1⟩ "while true break\nbreak" = .ok ⟨breakTwice, []⟩ := rfl

theorem breakTwice_importFree : breakTwice.ImportFree := by
  have leaf : ∀ e, (Node.breakStatement e).ImportFree :=
    fun e => .mk rfl (by simp [Node.operands]) (by simp [Node.statements])
  refine .mk rfl (by simp [breakTwice, Node.operands]) (Node.forall_mem_pair.2 ⟨?_, leaf _⟩)
  refine .mk rfl (List.forall_mem_singleton.2 ?_) (List.forall_mem_singleton.2 (leaf _))
  exact .mk rfl (by simp [Node.operands]) (by simp [Node.statements])

/-- The world of a new session whose host has no table. -/
def untouched : World := World.bare ⟨"main", [], ⟨false, 1⟩, default, .standard, default⟩

theorem untouched_steady : untouched.Steady false where
  goes := rfl
  isPending := rfl
  closures i d r h := by
    cases i <;> cases h

/-- The fault with which the structured run of a program in a new session stops. -/
def structuredFault? (program : Node) : Option Fault :=
  match program.lowerWith .empty ⟨false, 1⟩ (.ofTarget "main") with
  | .ok o _ =>
    match Structured.exec 40 o .outside ⟨⟨1⟩, []⟩ untouched.calm with
    | .error (.fault f) _ => some f
    | _ => none
  | .error _ _ => none

theorem eval_structured_breakTwice :
    ∃ o l w', breakTwice.lowerWith .empty ⟨false, 1⟩ (.ofTarget "main") = .ok o l ∧
      eval 40 o ⟨⟨1⟩, []⟩ untouched = .error (.fault ⟨.unexpectedBreak, some 2⟩) w' := by
  have hrun : structuredFault? breakTwice = some ⟨.unexpectedBreak, some 2⟩ := by decide +kernel
  have hframe : untouched.frame? (Site.frame ⟨⟨1⟩, []⟩) = some _ := rfl
  unfold structuredFault? at hrun
  split at hrun
  next o l hlower =>
    have h := eval_structured parse_breakTwice breakTwice_importFree hlower untouched_steady hframe
      rfl rfl rfl 40
    split at hrun
    next f s hs =>
      cases hrun
      rw [hs] at h
      obtain ⟨w', heval, _⟩ := h
      exact ⟨o, l, w', hlower, heval⟩
    · cases hrun
  · cases hrun

end Run

end LineScript
