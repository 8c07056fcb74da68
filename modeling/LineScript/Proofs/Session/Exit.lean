import LineScript.Proofs.Session.Locking
import Mathlib

/-!
# Injected code behind a run that was asked to end

A run that is asked to end stops behind the statement that it is at. That it was asked stays noted
until another run begins, and injected code sees it. Main statement: behind such a run an injected
program runs its first statement only, so that two sessions that differ in nothing but the end of
their last runs treat injected code alike just if these ended alike.
-/

namespace LineScript

open Run

/-- Whether a run was asked to end, behind a step. -/
def Run.Moment.exits (m : Moment) (earlier : Bool) : Bool :=
  match m.event with
  | some .began => false
  | some .exited => true
  | _ => earlier

/-- Whether the last run that began was asked to end. -/
def exited (ms : List Moment) : Bool := ms.foldl (fun earlier m => m.exits earlier) false

theorem Run.Moment.isExit_after (m : Moment) (s : World.Standing) :
    (m.after s).isExit = m.exits s.isExit := by
  obtain ⟨event, inRun, world⟩ := m
  cases event with
  | none => rfl
  | some e => cases e <;> simp only [after, exits]

namespace Run.Account

variable {s s' : World.Standing} {ms : List Moment}

theorem isExit_eq (h : Account s ms s') :
    s'.isExit = ms.foldl (fun earlier m => m.exits earlier) s.isExit := by
  rw [h.last_eq]
  exact (List.foldl_hom World.Standing.isExit fun s m => (m.isExit_after s).symm).symm

/-- A run that was asked to end stays so until another begins. -/
theorem isExit_of_quiet (h : Account s ms s') (hexit : s.isExit = true)
    (hquiet : ∀ m ∈ ms, m.event ≠ some .began) : s'.isExit = true := by
  induction h with
  | nil => exact hexit
  | @cons s s' m ms _ here _ ih =>
    apply ih
    · rw [here, Moment.isExit_after, Moment.exits]
      split
      next hbegan => exact absurd hbegan (hquiet m List.mem_cons_self)
      · rfl
      · exact hexit
    · intro m' hm'
      exact hquiet m' (List.mem_cons_of_mem _ hm')

end Run.Account

namespace World

/-- The world as it is if its last run was asked to end, or was not. -/
def withExit (w : World) (isExit : Bool) : World :=
  { w with process := { w.process with isExit := isExit } }

/-- The frame in which injected code runs, and the world in which it begins. -/
def openInjected (w : World) (p : Program) : FrameRef × World :=
  ({ w with recovered := w.recovered ++ p.errors ++ p.importErrors } : World).fork
    w.configuration.global .call true none (some true)

/-- The site of injected code. -/
def injectedSite (w : World) (p : Program) : Site :=
  (w.hostSite.enter w.configuration.global).enter (w.openInjected p).1

end World

namespace Run

/-- What comes about, but for whether a run was asked to end. -/
def forgetExit {α : Type} : EStateM.Result Stop World α → EStateM.Result Stop World α
  | .ok a w => .ok a (w.withExit false)
  | .error e w => .error e (w.withExit false)

/-- Runs a program behind the global frame, unseen by the breakpoint. -/
def injectProgram (n : Nat) (p : Program) (w : World) : EStateM.Result Stop World Reply :=
  (Reply.ofResult <$> settle (eval n p.operation (w.injectedSite p))) (w.openInjected p).2

section Injected

variable {w : World} {code : String} {p : Program} {n : Nat}

/-- Code that is accepted is run as a program. -/
theorem perform_inject
    (h : prepare w.handlers.library w.configuration.mode w.configuration.target code = .ok p) :
    perform (n + 2) (.inject code) w.hostSite w = injectProgram n p w := by
  rw [perform, get_bind_apply]
  rw [injectInto, map_eq_pure_bind, bind_apply, bind_apply, compile_accepted h]
  rw [injectProgram, map_eq_pure_bind, bind_apply]
  rfl

/-- Injected code runs in a frame of its own, which the breakpoint passes over. -/
theorem openInjected_frame (hw : w.Sealed false) (p : Program) :
    (w.openInjected p).2.Sealed false ∧ (w.openInjected p).2.process = w.process ∧
      ∃ f, (w.openInjected p).2.frame? (w.openInjected p).1 = some f ∧
        f.kind = .call ∧ f.isInjected = true ∧ f.locals.isSome = true := by
  have hread : World.Inert false w
      { w with recovered := w.recovered ++ p.errors ++ p.importErrors } := .aside hw
  have hglobal := hw.global_site.mono hread.later
  obtain ⟨hfork, f, hf, hlocals⟩ := World.Inert.fork hread.isSealed none (some true) hglobal
    (show FrameKind.call.isForked = true from rfl)
  have hframe : f.kind = .call ∧ f.isInjected = true := by
    obtain ⟨g, hg, -⟩ := hglobal
    rw [World.fork, hg] at hf
    simp only [World.frame?, Heap.get?_push_size, Option.some.injEq] at hf
    rw [← hf]
    exact ⟨rfl, rfl⟩
  exact ⟨hfork.isSealed, (World.fork_same _ _ _ _ _ _).1, f, hf, hframe.1, hframe.2, hlocals⟩

theorem isInterrupted_of_exit (hexit : w.process.isExit = true) (r : FrameRef) :
    w.isInterrupted r = true := by
  unfold World.isInterrupted
  rw [hexit]
  cases w.frame? r <;> rfl

theorem reached_runBlock_nil (site : Site) : reached (runBlock n [] site w) = w := by
  cases n <;> rfl

/-- A run that was asked to end stops behind the statement that it is at. -/
theorem runBlock_exited {pending : Bool} {site : Site} (hw : w.Sealed pending)
    (hsite : w.IsSite site.frame) (hexit : w.process.isExit = true) {statement : Statement}
    (rest : List Statement)
    (hquiet : ∀ m ∈ (Task.runBlock [statement] site).course n w, m.event ≠ some .began) :
    runBlock n (statement :: rest) site w = runBlock n [statement] site w := by
  cases n with
  | zero => rfl
  | succ n =>
    obtain ⟨operation, position⟩ := statement
    have haccount := (trusted (n + 1) (.runBlock [.mk operation position] site) hw hsite).account
    have hlast :
        (reached (runBlock (n + 1) [.mk operation position] site w)).process.isExit = true :=
      haccount.isExit_of_quiet hexit hquiet
    rw [runBlock, bind_apply] at hlast ⊢
    rw [runBlock, bind_apply]
    cases hbegin : beginStatement n position site w with
    | error e w₁ => rfl
    | ok _ w₁ =>
      rw [hbegin] at hlast
      dsimp only at hlast ⊢
      rw [bind_apply] at hlast ⊢
      rw [bind_apply]
      cases hstatement : (discard (atLine position.line (eval n operation site)) : Run Unit) w₁ with
      | error e w₂ => rfl
      | ok _ w₂ =>
        rw [hstatement] at hlast
        dsimp only at hlast ⊢
        rw [get_bind_apply] at hlast ⊢
        rw [get_bind_apply]
        have hw₂ : w₂.process.isExit = true := by
          split at hlast
          · exact hlast
          · rw [reached_runBlock_nil] at hlast
            exact hlast
        rw [if_pos (isInterrupted_of_exit hw₂ site.frame),
          if_pos (isInterrupted_of_exit hw₂ site.frame)]

theorem settle_congr {α : Type} {x y : Run α} (h : x w = y w) : settle x w = settle y w := by
  rw [settle, settle, bind_apply, bind_apply, attempt, attempt, h]

/-- Behind a run that was asked to end, an injected program runs its first statement only, unless a
run begins in it. -/
theorem injectProgram_exited (hw : w.Sealed false) (hexit : w.process.isExit = true)
    {statement : Statement} {rest : List Statement} (hp : p.operation = .chunk (statement :: rest))
    (hquiet : ∀ m ∈ (Task.runBlock [statement] (w.injectedSite p)).course n (w.openInjected p).2,
      m.event ≠ some .began) :
    injectProgram (n + 1) p w =
      injectProgram (n + 1) { p with operation := .chunk [statement] } w := by
  obtain ⟨hopened, hprocess, f, hf, -, -, hlocals⟩ := openInjected_frame hw p
  have hexit' : (w.openInjected p).2.process.isExit = true := by rw [hprocess, hexit]
  have hblock := runBlock_exited hopened ⟨f, hf, hlocals⟩ hexit' rest hquiet
  have heval : eval (n + 1) (.chunk (statement :: rest)) (w.injectedSite p) (w.openInjected p).2 =
      eval (n + 1) (.chunk [statement]) (w.injectedSite p) (w.openInjected p).2 := by
    rw [eval, eval, bind_apply, bind_apply, hblock]
  rw [injectProgram, hp, map_eq_pure_bind, bind_apply, settle_congr heval]
  rw [injectProgram, map_eq_pure_bind, bind_apply]
  rfl

end Injected

/-- A statement that always fails. -/
def failing : Statement :=
  .mk (.assign [.name "x"] (.instantiate (.literal (.bool true)))) ⟨2, 1⟩

/-- A statement that does nothing, and one that always fails. -/
def failsSecond : Program := ⟨.chunk [.mk (.literal (.bool true)) ⟨1, 1⟩, failing], [], []⟩

/-- The tree of the two statements. -/
def failsSecondTree : Node :=
  .chunk ⟨⟨1, 1⟩, ⟨2, 11⟩⟩
    [.literal ⟨⟨1, 1⟩, ⟨1, 5⟩⟩ (.bool true) "true",
    .assignment ⟨⟨2, 1⟩, ⟨2, 11⟩⟩ (.identifier ⟨⟨2, 1⟩, ⟨2, 2⟩⟩ "x")
      (.unary ⟨⟨2, 3⟩, ⟨2, 11⟩⟩ .new (.literal ⟨⟨2, 7⟩, ⟨2, 11⟩⟩ (.bool true) "true"))] ["x"]

theorem prepare_failsSecond (library : Library) (mode : ReadingMode) (target : String) :
    prepare library mode target "true\nx=new true" = .ok failsSecond := by
  have hparse : parse mode "true\nx=new true" = .ok ⟨failsSecondTree, []⟩ := by
    obtain ⟨lenient, tabWidth⟩ := mode
    cases lenient <;> cbv
  delta prepare
  rw [hparse]
  rfl

section FailsSecond

variable {w : World}

/-- Code that runs unseen by the breakpoint begins its statements at once. -/
theorem runBlock_injected {site : Site} {f : Frame} (hf : w.frame? site.frame = some f)
    (hinjected : f.isInjected = true) (n : Nat) (operation : Operation) (position : Position)
    (rest : List Statement) :
    runBlock (n + 2) (.mk operation position :: rest) site w = (do
      discard (atLine position.line (eval (n + 1) operation site))
      if (← get).isInterrupted site.frame then return ()
      else runBlock (n + 1) rest site : Run Unit) w := by
  have hbegin : beginStatement (n + 1) position site w = .ok () w := by
    rw [beginStatement, get_bind_apply, hf]
    dsimp only
    rw [if_pos hinjected]
    rfl
  rw [runBlock, bind_apply, hbegin]

/-- The second statement fails, unless the run was asked to end. -/
theorem eval_failsSecond {site : Site} {f : Frame} (hf : w.frame? site.frame = some f)
    (hkind : f.kind = .call) (hinjected : f.isInjected = true) :
    eval 10 failsSecond.operation site w =
      if w.process.isExit then .ok .nil w else .error (.fault ⟨.notInstantiable, some 2⟩) w := by
  have hinterrupted : w.isInterrupted site.frame = w.process.isExit := by
    unfold World.isInterrupted
    rw [hf]
    simp only [hkind, Bool.or_false]
  have hsecond : runBlock 8 [failing] site w = .error (.fault ⟨.notInstantiable, some 2⟩) w :=
    runBlock_injected hf hinjected 6 _ _ _
  have hboth : runBlock 9 [.mk (.literal (.bool true)) ⟨1, 1⟩, failing] site w =
      if w.process.isExit then .ok () w else .error (.fault ⟨.notInstantiable, some 2⟩) w := by
    rw [runBlock_injected hf hinjected]
    change (if w.isInterrupted site.frame then (pure () : Run Unit)
      else runBlock 8 [failing] site) w = _
    rw [hinterrupted]
    cases w.process.isExit with
    | true => rfl
    | false => exact hsecond
  rw [failsSecond, eval, bind_apply, hboth]
  cases w.process.isExit <;> rfl

theorem openInjected_collected (w : World) (p : Program) :
    (w.openInjected p).2.collected = w.collected := by
  unfold World.openInjected World.fork
  split <;> rfl

/-- What the host is told of the two statements: if the last run was asked to end, nothing fails,
and else the failure is collected or handed back. -/
theorem inject_failsSecond (hw : w.Sealed false) :
    ∃ w', w'.collected = w.collected ∧
      perform 12 (.inject "true\nx=new true") w.hostSite w =
        if w.process.isExit then .ok .done w'
        else if w'.handlers.collects then
          .ok .done { w' with collected := w'.collected ++ [.run ⟨.notInstantiable, some 2⟩] }
        else .ok (.scriptError (.run ⟨.notInstantiable, some 2⟩)) w' := by
  obtain ⟨-, hprocess, f, hf, hkind, hinjected, -⟩ := openInjected_frame hw failsSecond
  refine ⟨(w.openInjected failsSecond).2, openInjected_collected w failsSecond, ?_⟩
  have heval : eval 10 failsSecond.operation (w.injectedSite failsSecond)
      (w.openInjected failsSecond).2 = _ := eval_failsSecond hf hkind hinjected
  rw [hprocess] at heval
  rw [perform_inject (prepare_failsSecond _ _ _), injectProgram, map_eq_pure_bind, bind_apply,
    settle, bind_apply, attempt, heval]
  cases w.process.isExit with
  | true => rfl
  | false =>
    simp only [Bool.false_eq_true, if_false, raise]
    cases (w.openInjected failsSecond).2.handlers.collects <;> rfl

/-- The two statements tell whether the last run was asked to end. -/
theorem inject_failsSecond_ne {w₁ w₂ : World} (hw₁ : w₁.Sealed false) (hw₂ : w₂.Sealed false)
    (hcollected : w₁.collected = w₂.collected) (h₁ : w₁.process.isExit = true)
    (h₂ : w₂.process.isExit = false) :
    forgetExit (perform 12 (.inject "true\nx=new true") w₁.hostSite w₁) ≠
      forgetExit (perform 12 (.inject "true\nx=new true") w₂.hostSite w₂) := by
  obtain ⟨w₁', hkept₁, hrun₁⟩ := inject_failsSecond hw₁
  obtain ⟨w₂', hkept₂, hrun₂⟩ := inject_failsSecond hw₂
  have hsame : w₁'.collected = w₂'.collected := hkept₁.trans (hcollected.trans hkept₂.symm)
  rw [hrun₁, hrun₂, if_pos h₁, if_neg (by simp [h₂])]
  cases w₂'.handlers.collects with
  | false =>
    intro hboth
    injection hboth with hreply
    cases hreply
  | true =>
    intro hboth
    injection hboth with _ hworld
    have hgrown : w₁'.collected = w₂'.collected ++ [ScriptError.run ⟨.notInstantiable, some 2⟩] :=
      congrArg World.collected hworld
    rw [hsame] at hgrown
    simp at hgrown

end FailsSecond

end Run

/-- What a run ended by decides about injected code. -/
theorem Session.inject_exited {s₁ s₂ : Setup}
    {definitions₁ definitions₂ : List (String × Description)} {ms₁ ms₂ : List Moment}
    {w₁ w₂ : World} (h₁ : Session s₁ definitions₁ ms₁ w₁) (h₂ : Session s₂ definitions₂ ms₂ w₂)
    (hsame : w₁.withExit false = w₂.withExit false) :
    w₁.process.isExit = exited ms₁ ∧
    (exited ms₁ = true → ∀ n code p statement rest,
      prepare w₁.handlers.library w₁.configuration.mode w₁.configuration.target code = .ok p →
      p.operation = .chunk (statement :: rest) →
      (∀ m ∈ (Task.runBlock [statement] (w₁.injectedSite p)).course n (w₁.openInjected p).2,
        m.event ≠ some .began) →
      Run.perform (n + 3) (.inject code) w₁.hostSite w₁ =
        injectProgram (n + 1) { p with operation := .chunk [statement] } w₁) ∧
    ((∀ n code, forgetExit (Run.perform n (.inject code) w₁.hostSite w₁) =
        forgetExit (Run.perform n (.inject code) w₂.hostSite w₂)) ↔
      exited ms₁ = exited ms₂) := by
  have hexit₁ : w₁.process.isExit = exited ms₁ := h₁.account.isExit_eq
  have hexit₂ : w₂.process.isExit = exited ms₂ := h₂.account.isExit_eq
  refine ⟨hexit₁, ?_, ?_, ?_⟩
  · intro hexited n code p statement rest hcode hp hquiet
    rw [perform_inject hcode]
    exact injectProgram_exited h₁.sealed (hexit₁.trans hexited) hp hquiet
  · intro hinject
    have hcollected : (w₁.withExit false).collected = (w₂.withExit false).collected := by
      rw [hsame]
    rw [← hexit₁, ← hexit₂]
    cases hflag₁ : w₁.process.isExit with
    | true =>
      cases hflag₂ : w₂.process.isExit with
      | true => rfl
      | false =>
        exact absurd (hinject 12 _)
          (inject_failsSecond_ne h₁.sealed h₂.sealed hcollected hflag₁ hflag₂)
    | false =>
      cases hflag₂ : w₂.process.isExit with
      | false => rfl
      | true =>
        exact absurd (hinject 12 _).symm
          (inject_failsSecond_ne h₂.sealed h₁.sealed hcollected.symm hflag₂ hflag₁)
  · intro hexited n code
    have hworlds : w₁ = w₂ := by
      have hflag : w₁.process.isExit = w₂.process.isExit := hexit₁.trans (hexited.trans hexit₂.symm)
      have hback : ∀ w : World, w = (w.withExit false).withExit w.process.isExit := fun _ => rfl
      rw [hback w₁, hback w₂, hsame, hflag]
    rw [hworlds]

/-- A run that pauses in front of its statement, for the host to make a move. -/
def pausedRun (move : HookMove) : List Request :=
  [.setHook (.scripted [⟨none, move⟩]), .breakpoint true, .run "true"]

/-- Two sessions that differ in nothing but the end of their last runs: one was asked to end. -/
theorem Session.inject_exited_pausedRun :
    ∃ ms₁ ms₂ w₁ w₂, Session .plain [] ms₁ w₁ ∧ Session .plain [] ms₂ w₂ ∧
      w₁.withExit false = w₂.withExit false ∧ exited ms₁ = true ∧ exited ms₂ = false ∧
      ¬ ∀ n code, forgetExit (Run.perform n (.inject code) w₁.hostSite w₁) =
        forgetExit (Run.perform n (.inject code) w₂.hostSite w₂) := by
  have hexit : ((World.initial .plain []).replay 20 (pausedRun .exit)).map
      (fun p => p.2.process.isExit) = some true := by decide +kernel
  have hstep : ((World.initial .plain []).replay 20 (pausedRun .step)).map
      (fun p => p.2.process.isExit) = some false := by decide +kernel
  have hsame : ((World.initial .plain []).replay 20 (pausedRun .exit)).map
        (fun p => p.2.withExit false) =
      ((World.initial .plain []).replay 20 (pausedRun .step)).map
        (fun p => p.2.withExit false) := by rfl
  obtain ⟨⟨ms₁, w₁⟩, hreplay₁, hflag₁⟩ := Option.map_eq_some_iff.1 hexit
  obtain ⟨⟨ms₂, w₂⟩, hreplay₂, hflag₂⟩ := Option.map_eq_some_iff.1 hstep
  rw [hreplay₁, hreplay₂] at hsame
  have hworlds : w₁.withExit false = w₂.withExit false := Option.some.inj hsame
  have h₁ := Session.start.replay hreplay₁
  have h₂ := Session.start.replay hreplay₂
  obtain ⟨hexited₁, -, hiff⟩ := Session.inject_exited h₁ h₂ hworlds
  have hexited₂ := (Session.inject_exited h₂ h₁ hworlds.symm).1
  refine ⟨_, _, w₁, w₂, h₁, h₂, hworlds, hexited₁.symm.trans hflag₁, hexited₂.symm.trans hflag₂, ?_⟩
  intro halike
  have hends := hiff.1 halike
  rw [← hexited₁, ← hexited₂] at hends
  cases hflag₁.symm.trans (hends.trans hflag₂)

end LineScript
