import LineScript.Proofs.Session.History

/-!
# A run locks its session

While a program runs, what it runs with cannot be replaced and no other program can run. Main
statement: over every history, requests made in the middle of a run included, a run is under way in
the steps of programs and in no others; while one is under way, such requests are refused and change
nothing; and while none is, no code can be injected where a run is.
-/

namespace LineScript

namespace Run

variable {w : World}

theorem unlessPending_locked (h : w.process.isPending = true) (locked : FaultKind)
    (change : World → World) :
    unlessPending locked change w = .ok (.fault (.of locked)) w := by
  unfold unlessPending
  rw [h]
  rfl

/-- A program does not run while another does. -/
theorem runProgram_locked (h : w.process.isPending = true) (n : Nat) (operation : Operation)
    (site : Site) :
    runProgram (n + 1) operation site w = .ok (.error (.run (.of .processAlreadyRunning))) w := by
  rw [runProgram, get_bind_apply, h]
  rfl

/-- What is accepted leaves behind the errors that were passed over. -/
theorem compile_accepted {code : String} {p : Program}
    (h : prepare w.handlers.library w.configuration.mode w.configuration.target code = .ok p) :
    compile code w = .ok (.ok p.operation)
      { w with recovered := w.recovered ++ p.errors ++ p.importErrors } := by
  rw [compile, get_bind_apply, h]
  rfl

/-- A source text is read before it is refused. -/
theorem runSource_locked (hpending : w.process.isPending = true) (n : Nat) {code : String}
    {p : Program}
    (h : prepare w.handlers.library w.configuration.mode w.configuration.target code = .ok p)
    (site : Site) :
    runSource (n + 2) code site w = .ok (.error (.run (.of .processAlreadyRunning)))
      { w with recovered := w.recovered ++ p.errors ++ p.importErrors } := by
  rw [runSource, bind_apply, compile_accepted h]
  have hlocked : ({ w with
      recovered := w.recovered ++ p.errors ++ p.importErrors } : World).process.isPending = true :=
    hpending
  exact runProgram_locked hlocked n p.operation site

/-- Without a run there is no place where a run is. -/
theorem injectLast_idle (h : w.process.isPending = false) (n : Nat) (code : String) (site : Site) :
    injectLast (n + 1) code site w = .ok (.error (.run (.of .cannotInject))) w := by
  rw [injectLast, get_bind_apply, h]
  cases w.lastActive? site.things <;> rfl

/-- The host is told of an error that is handed back. -/
theorem ofResult_error {x : Run (Except ScriptError Unit)} {e : ScriptError} {w' : World}
    (h : x w = .ok (.error e) w') : (Reply.ofResult <$> x) w = .ok (.scriptError e) w' := by
  rw [map_eq_pure_bind, bind_apply, h]
  rfl

end Run

open Run

/-- What is refused while a run is under way. Nothing changes then, but for the errors that are
passed over in reading a source text. -/
structure Locked (w : World) : Prop where
  setTarget : ∀ n target site, Run.perform (n + 1) (.setTarget target) site w =
    .ok (.fault (.of .targetLocked)) w
  setTable : ∀ n table site, Run.perform (n + 1) (.setTable table) site w =
    .ok (.fault (.of .tableLocked)) w
  setHandlers : ∀ n handlers site, Run.perform (n + 1) (.setHandlers handlers) site w =
    .ok (.fault (.of .handlersLocked)) w
  setHook : ∀ n hook site, Run.perform (n + 1) (.setHook hook) site w =
    .ok (.fault (.of .hookLocked)) w
  run : ∀ n code p site,
    prepare w.handlers.library w.configuration.mode w.configuration.target code = .ok p →
    Run.perform (n + 3) (.run code) site w =
      .ok (.scriptError (.run (.of .processAlreadyRunning)))
        { w with recovered := w.recovered ++ p.errors ++ p.importErrors }
  runTarget : ∀ n code p site, w.handlers.library.get? w.configuration.target = some code →
    prepare w.handlers.library w.configuration.mode w.configuration.target code = .ok p →
    Run.perform (n + 3) .runTarget site w =
      .ok (.scriptError (.run (.of .processAlreadyRunning)))
        { w with recovered := w.recovered ++ p.errors ++ p.importErrors }
  runPrepared : ∀ n operation site, w.configuration.prepared = some operation →
    Run.perform (n + 2) .runPrepared site w =
      .ok (.scriptError (.run (.of .processAlreadyRunning))) w

theorem locked_of_pending {w : World} (h : w.process.isPending = true) : Locked w where
  setTarget n target site := by
    rw [Run.perform]
    exact unlessPending_locked h _ _
  setTable n table site := by
    rw [Run.perform]
    exact unlessPending_locked h _ _
  setHandlers n handlers site := by
    rw [Run.perform]
    exact unlessPending_locked h _ _
  setHook n hook site := by
    rw [Run.perform]
    exact unlessPending_locked h _ _
  run n code p site hcode := by
    rw [Run.perform]
    exact ofResult_error (runSource_locked h n hcode site)
  runTarget n code p site htarget hcode := by
    rw [Run.perform, get_bind_apply, htarget]
    exact ofResult_error (runSource_locked h n hcode site)
  runPrepared n operation site hprepared := by
    rw [Run.perform, get_bind_apply, hprepared]
    exact ofResult_error (runProgram_locked h n operation site)

/-- A run is under way in the steps of programs and in no others, and none is behind a run, however
it came out. Where one is under way, requests that would change what it runs with are refused, and
where none is, there is no place to inject code at. -/
theorem Session.locking (s : Setup) (definitions : List (String × Description)) :
    (∀ ms, IsHistory s definitions ms → ∀ m ∈ ms, m.world.process.isPending = m.inRun) ∧
    (∀ ms w, Session s definitions ms w → w.process.isPending = false ∧
      ∀ n operation site result w', Run.runProgram n operation site w = .ok result w' →
        w'.process.isPending = false) ∧
    (∀ w : World, w.process.isPending = true → Locked w) ∧
    (∀ w : World, w.process.isPending = false → ∀ n code site,
      Run.perform (n + 2) (.injectLast code) site w =
        .ok (.scriptError (.run (.of .cannotInject))) w) := by
  refine ⟨fun ms h => h.inRun, ?_, fun w h => locked_of_pending h, ?_⟩
  · intro ms w h
    refine ⟨h.sealed.isPending, ?_⟩
    intro n operation site result w' hrun
    have hlands : Lands false w (fun _ _ => True) (Run.runProgram n operation site w) :=
      (trusted n (.runProgram operation site) h.sealed trivial).lands
    rw [hrun] at hlands
    exact hlands.1.isPending
  · intro w h n code site
    rw [Run.perform]
    exact ofResult_error (injectLast_idle h n code site)

/-- A program that asks for a new table. -/
def tableInRun : Request := .run "sys(\"set_api\")"

/-- The world in front of that program, as the first of a session. -/
def beforeTableInRun : World := World.initial .plain callbacks

theorem Session.locking_tableInRun :
    (∃ m ∈ (Task.perform tableInRun beforeTableInRun.hostSite).course 20 beforeTableInRun,
        m.inRun = true ∧ Locked m.world) ∧
      Run.perform 2 (.injectLast "a = 1") beforeTableInRun.hostSite beforeTableInRun =
        .ok (.scriptError (.run (.of .cannotInject))) beforeTableInRun := by
  have hruns : ((Task.perform tableInRun beforeTableInRun.hostSite).course 20
      beforeTableInRun).any (·.inRun) = true := by decide +kernel
  obtain ⟨hinRun, hidle, hlocked, hnoPlace⟩ := Session.locking .plain callbacks
  obtain ⟨m, hm, hrunning⟩ := List.any_eq_true.1 hruns
  have hpending := hinRun _ (.of_first tableInRun 20) m hm
  have hstart := (hidle [] beforeTableInRun .start).1
  exact ⟨⟨m, hm, hrunning, hlocked m.world (hpending.trans hrunning)⟩,
    hnoPlace beforeTableInRun hstart 0 "a = 1" beforeTableInRun.hostSite⟩

end LineScript
