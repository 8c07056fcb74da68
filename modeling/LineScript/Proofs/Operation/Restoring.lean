import LineScript.Proofs.Operation.Reentry

/-!
# What lowering leaves behind

Every file that is imported is entered and left again, also when something in it stops lowering. The
texts come from resources, of which a library is one kind. What lowering reads is told here by the
nodes that it visits, without the operations that it makes. Main statement: however lowering a node
ends, the file that it is in and the opened files are what they were, and what was recorded is
followed by the errors of the texts that were read, in the order in which they were read.
-/

namespace LineScript

/-- Where imported texts come from: the name of the file that a path leads to, seen from a file, and
the text under a name. -/
structure Resources where
  resolve? : String → String → Option String
  get? : String → Option String

/-- A library as resources. -/
def Library.resources (library : Library) : Resources := ⟨library.resolve?, library.get?⟩

/-- What visiting a node comes to. -/
inductive Visit where
  /-- Nothing is read. -/
  | pass
  /-- Lowering stops. -/
  | stop (e : ScriptError)
  /-- A file is entered, with what its text was read to. -/
  | enter (name : String) (text : Parsed)

namespace Resources

/-- What visiting an import comes to, in a file and with files opened. -/
def lead (r : Resources) (mode : ReadingMode) (target : String) (opened : List String)
    (path : String) : Visit :=
  match r.resolve? target path with
  | none => .stop (.run (.of (.importNotFound path)))
  | some key =>
    if opened.contains key then .pass
    else
      match r.get? key with
      | none => .stop (.run (.of (.importNotFound path)))
      | some source =>
        match parse mode source with
        | .error e => .stop (.ofSource e)
        | .ok p => .enter key p

/-- What visiting a node comes to, in a file and with files opened. -/
def visit (r : Resources) (mode : ReadingMode) (target : String) (opened : List String) :
    Node → Visit
  | .importStatement _ path => r.lead mode target opened path
  | n =>
    match n.refusal? with
    | some fault => .stop (.run fault)
    | none => .pass

section Visit

variable {r : Resources} {mode : ReadingMode} {target : String} {opened : List String} {n : Node}

theorem visit_of_none (himport : n.isImport = false) (hn : n.refusal? = none) :
    r.visit mode target opened n = .pass := by
  unfold visit
  split
  · cases himport
  · rw [hn]

theorem visit_of_refusal {fault : Fault} (hn : n.refusal? = some fault) :
    r.visit mode target opened n = .stop (.run fault) := by
  unfold visit
  split
  · cases hn
  · rw [hn]

end Visit

/-- Visiting nodes, in a file and with files opened, reads texts one behind the other, and stops or
does not. An imported text is followed by those that are imported in it. -/
inductive Reads (r : Resources) (mode : ReadingMode) :
    String → List String → List Node → List Parsed → Bool → Prop where
  | done {target : String} {opened : List String} : Reads r mode target opened [] [] false
  | pass {target : String} {opened : List String} {n : Node} {ns : List Node} {ps : List Parsed}
      {stopped : Bool} (here : r.visit mode target opened n = .pass)
      (rest : Reads r mode target opened ns ps stopped) :
      Reads r mode target opened (n :: ns) ps stopped
  | stop {target : String} {opened : List String} {n : Node} {ns : List Node} {e : ScriptError}
      (here : r.visit mode target opened n = .stop e) : Reads r mode target opened (n :: ns) [] true
  | enter {target key : String} {opened : List String} {n : Node} {ns : List Node} {p : Parsed}
      {ps ps' : List Parsed} {stopped : Bool} (here : r.visit mode target opened n = .enter key p)
      (inner : Reads r mode key (key :: opened) p.chunk.visited ps false)
      (rest : Reads r mode target opened ns ps' stopped) :
      Reads r mode target opened (n :: ns) (p :: ps ++ ps') stopped
  | broken {target key : String} {opened : List String} {n : Node} {ns : List Node} {p : Parsed}
      {ps : List Parsed} (here : r.visit mode target opened n = .enter key p)
      (inner : Reads r mode key (key :: opened) p.chunk.visited ps true) :
      Reads r mode target opened (n :: ns) (p :: ps) true

end Resources

namespace Linker

/-- The state in which the errors of further texts are recorded. -/
def record (l : Linker) (ps : List Parsed) : Linker :=
  { l with recovered := l.recovered ++ ps.flatMap fun p => p.errors.map .ofSource }

@[simp] theorem record_nil (l : Linker) : l.record [] = l := by simp [record]

theorem record_append (l : Linker) (ps ps' : List Parsed) :
    l.record (ps ++ ps') = (l.record ps).record ps' := by simp [record]

end Linker

namespace Lowering

variable {α β : Type}

/-- What becomes of an import of a file of resources, given what becomes of the imports in it. -/
def importFrom (r : Resources) (mode : ReadingMode) (inner : String → Lowering Operation)
    (path : String) : Lowering Operation := do
  let l ← get
  match r.resolve? l.target path with
  | none => fail (.importNotFound path)
  | some target =>
    if l.opened.contains target then return .noop
    else
      match r.get? target with
      | none => fail (.importNotFound path)
      | some source =>
        match parse mode source with
        | .error e => throw (.ofSource e)
        | .ok p =>
          modify fun l => { l with recovered := l.recovered ++ p.errors.map .ofSource }
          let chunk ← within target (p.chunk.lower inner)
          return .imported target chunk

theorem importStep_eq (library : Library) (mode : ReadingMode) :
    importStep library mode = importFrom library.resources mode := rfl

/-- Imports from resources that nest up to a number of times, with anything at all in the place of
those below. -/
def nestedFrom (r : Resources) (mode : ReadingMode) (below : String → Lowering Operation) :
    Nat → String → Lowering Operation
  | 0 => below
  | k + 1 => importFrom r mode (nestedFrom r mode below k)

theorem nestedFrom_add (r : Resources) (mode : ReadingMode) (below : String → Lowering Operation)
    (j k : Nat) :
    nestedFrom r mode below (j + k) = nestedFrom r mode (nestedFrom r mode below j) k := by
  induction k with
  | zero => rfl
  | succ k ih => rw [Nat.add_succ, nestedFrom, nestedFrom, ih]

theorem importNested_eq (library : Library) (mode : ReadingMode)
    (below : String → Lowering Operation) (k : Nat) :
    importNested library mode below k = nestedFrom library.resources mode below k := by
  induction k with
  | zero => rfl
  | succ k ih => rw [importNested, nestedFrom, ih, importStep_eq]

/-- The state that a step of lowering leaves behind, and whether it stops there. -/
def ending : EStateM.Result ScriptError Linker α → Linker × Bool
  | .ok _ l => (l, false)
  | .error _ l => (l, true)

/-- An import does what visiting it comes to. -/
theorem importFrom_apply (r : Resources) (mode : ReadingMode)
    (inner : String → Lowering Operation) (path : String) (l : Linker) :
    importFrom r mode inner path l =
      match r.lead mode l.target l.opened path with
      | .pass => .ok .noop l
      | .stop e => .error e l
      | .enter key p => ((within key (p.chunk.lower inner)) >>= fun chunk =>
          return .imported key chunk) (l.record [p]) := by
  have hget : (get : Lowering Linker) l = .ok l l := rfl
  unfold importFrom Resources.lead
  rw [bind_apply, hget]
  dsimp only
  cases r.resolve? l.target path with
  | none => rfl
  | some key =>
    dsimp only
    cases l.opened.contains key with
    | true => rfl
    | false =>
      simp only [Bool.false_eq_true, if_false]
      cases r.get? key with
      | none => rfl
      | some source =>
        dsimp only
        cases parse mode source with
        | error e => rfl
        | ok p =>
          have hmodify : ∀ change : Linker → Linker,
              (modify change : Lowering PUnit) l = .ok ⟨⟩ (change l) := fun _ => rfl
          dsimp only
          rw [bind_apply, hmodify]
          simp only [Linker.record, List.flatMap_singleton]

end Lowering

namespace Resources.Reads

variable {r : Resources} {mode : ReadingMode} {target : String} {opened : List String}
  {ms ns : List Node} {ps ps' : List Parsed} {stopped stopped' : Bool}

/-- What is read in visiting nodes, and whether that stops, is determined. -/
theorem unique (h : Reads r mode target opened ns ps stopped)
    (h' : Reads r mode target opened ns ps' stopped') : ps = ps' ∧ stopped = stopped' := by
  induction h generalizing ps' stopped' with
  | done =>
    cases h'
    exact ⟨rfl, rfl⟩
  | pass here _ ih =>
    cases h' with
    | pass _ rest => exact ih rest
    | stop here' | enter here' | broken here' =>
      rw [here] at here'
      cases here'
  | stop here =>
    cases h' with
    | stop => exact ⟨rfl, rfl⟩
    | pass here' | enter here' | broken here' =>
      rw [here] at here'
      cases here'
  | enter here _ _ ihInner ihRest =>
    cases h' with
    | pass here' | stop here' =>
      rw [here] at here'
      cases here'
    | enter here' inner rest =>
      rw [here] at here'
      cases here'
      obtain ⟨rfl, -⟩ := ihInner inner
      obtain ⟨rfl, rfl⟩ := ihRest rest
      exact ⟨rfl, rfl⟩
    | broken here' inner =>
      rw [here] at here'
      cases here'
      cases (ihInner inner).2
  | broken here _ ih =>
    cases h' with
    | pass here' | stop here' =>
      rw [here] at here'
      cases here'
    | enter here' inner rest =>
      rw [here] at here'
      cases here'
      cases (ih inner).2
    | broken here' inner =>
      rw [here] at here'
      cases here'
      obtain ⟨rfl, -⟩ := ih inner
      exact ⟨rfl, rfl⟩

/-- Behind nodes at which lowering does not stop, the next ones are visited. -/
theorem append (h : Reads r mode target opened ms ps stopped) (hstopped : stopped = false)
    (h' : Reads r mode target opened ns ps' stopped') :
    Reads r mode target opened (ms ++ ns) (ps ++ ps') stopped' := by
  induction h with
  | done => exact h'
  | pass here _ ih => exact .pass here (ih hstopped h')
  | enter here inner _ _ ih =>
    rw [List.append_assoc]
    exact .enter here inner (ih hstopped h')
  | stop => cases hstopped
  | broken => cases hstopped

/-- Behind a node at which lowering stops, none is visited. -/
theorem append_of_stopped (h : Reads r mode target opened ms ps stopped)
    (hstopped : stopped = true) (ns : List Node) :
    Reads r mode target opened (ms ++ ns) ps true := by
  induction h with
  | done => cases hstopped
  | pass here _ ih => exact .pass here (ih hstopped)
  | stop here => exact .stop here
  | enter here inner _ _ ih => exact .enter here inner (ih hstopped)
  | broken here inner => exact .broken here inner

end Resources.Reads

namespace Lowering

open Resources (Reads)

variable {α β : Type} {r : Resources} {mode : ReadingMode} {e : ScriptError}
  {f : String → Lowering Operation}

/-- A step of lowering leaves behind what visiting nodes tells, unless it comes to what stands in
the place of deeper imports: an error that is marked. -/
def Accounts (r : Resources) (mode : ReadingMode) (e : ScriptError) (x : Lowering α)
    (ns : List Node) : Prop :=
  ∀ l, (∃ l', x l = .error e l') ∨
    ∃ ps stopped, Reads r mode l.target l.opened ns ps stopped ∧
      ending (x l) = (l.record ps, stopped)

theorem Accounts.bind {x : Lowering α} {k : α → Lowering β} {ms ns : List Node}
    (hx : Accounts r mode e x ms) (hk : ∀ a, Accounts r mode e (k a) ns) :
    Accounts r mode e (x >>= k) (ms ++ ns) := by
  intro l
  rw [bind_apply]
  rcases hx l with ⟨l', hmark⟩ | ⟨ps, stopped, hreads, hending⟩
  · rw [hmark]
    exact .inl ⟨l', rfl⟩
  · cases hxl : x l with
    | error e' l' =>
      rw [hxl] at hending
      cases hending
      exact .inr ⟨ps, true, hreads.append_of_stopped rfl ns, rfl⟩
    | ok a l' =>
      rw [hxl] at hending
      cases hending
      rcases hk a (l.record ps) with hmark | ⟨ps', stopped', hreads', hending'⟩
      · exact .inl hmark
      · rw [← Linker.record_append] at hending'
        exact .inr ⟨ps ++ ps', stopped', hreads.append rfl hreads', hending'⟩

/-- A line is given to no marked error. -/
theorem Accounts.atLine {x : Lowering α} {ns : List Node} (he : ∀ line, e.orLine line = e)
    (line : Nat) (hx : Accounts r mode e x ns) :
    Accounts r mode e (Lowering.atLine line x) ns := by
  intro l
  unfold Lowering.atLine
  rcases hx l with ⟨l', hmark⟩ | ⟨ps, stopped, hreads, hending⟩
  · rw [hmark]
    exact .inl ⟨l', congrArg (EStateM.Result.error · l') (he line)⟩
  · refine .inr ⟨ps, stopped, hreads, ?_⟩
    rw [← hending]
    cases x l <;> rfl

/-- If imports leave behind what visiting them tells, lowering does. -/
theorem visiting_accounts (he : ∀ line, e.orLine line = e)
    (hf : ∀ extent path, Accounts r mode e (f path) [.importStatement extent path]) :
    Visiting f fun _ x ns => Accounts r mode e x ns where
  pure a l := .inr ⟨[], false, .done, by rw [Linker.record_nil]; rfl⟩
  bind := Accounts.bind
  atLine line hx := hx.atLine he line
  visit himport hn hx l := by
    rcases hx l with hmark | ⟨ps, stopped, hreads, hending⟩
    · exact .inl hmark
    · exact .inr ⟨ps, stopped, .pass (Resources.visit_of_none himport hn) hreads, hending⟩
  refuse hn l :=
    .inr ⟨[], true, .stop (Resources.visit_of_refusal hn), by rw [Linker.record_nil]; rfl⟩
  imported e path := (hf e path).atLine he _

/-- What becomes of an import leaves behind what visiting it tells, however deeply imports nest
above the mark. -/
theorem nestedFrom_accounts (he : ∀ line, e.orLine line = e) (k : Nat) (extent : Extent)
    (path : String) :
    Accounts r mode e (nestedFrom r mode (fun _ => throw e) k path)
      [.importStatement extent path] := by
  induction k generalizing extent path with
  | zero => exact fun l => .inl ⟨l, rfl⟩
  | succ k ih =>
    intro l
    rw [nestedFrom, importFrom_apply]
    cases hlead : r.lead mode l.target l.opened path with
    | pass => exact .inr ⟨[], false, .pass hlead .done, by rw [Linker.record_nil]; rfl⟩
    | stop e' => exact .inr ⟨[], true, .stop hlead, by rw [Linker.record_nil]; rfl⟩
    | enter key p =>
      dsimp only
      rw [bind_apply, within]
      have hinner := Node.lower_visits (visiting_accounts he ih) p.chunk
        ((l.record [p]).enter key)
      rcases hinner with ⟨l', hmark⟩ | ⟨ps, stopped, hreads, hending⟩
      · rw [hmark]
        exact .inl ⟨_, rfl⟩
      · -- what is recorded inside stays when the file is left, and nothing else differs
        have hleave : (((l.record [p]).enter key).record ps).leave l.target =
            l.record (p :: ps) := (l.record_append [p] ps).symm
        cases hlower : p.chunk.lower (nestedFrom r mode (fun _ => throw e) k)
            ((l.record [p]).enter key) with
        | ok chunk l' =>
          rw [hlower] at hending
          cases hending
          refine .inr ⟨p :: ps ++ [], false, .enter hlead hreads .done, ?_⟩
          rw [List.append_nil, ← hleave]
          rfl
        | error e' l' =>
          rw [hlower] at hending
          cases hending
          refine .inr ⟨p :: ps, true, .broken hlead hreads, ?_⟩
          rw [← hleave]
          rfl

end Lowering

namespace Node

open Lowering (ending nestedFrom)

/-- Lowering a node with imports from resources ends with a result: imports nest only so deeply, and
nothing depends on what deeper ones would become. -/
def LowersTo (r : Resources) (mode : ReadingMode) (n : Node) (l : Linker)
    (result : EStateM.Result ScriptError Linker Operation) : Prop :=
  ∃ k, ∀ below, n.lower (nestedFrom r mode below k) l = result

/-- What lowering a node leaves behind, if it ended with a result: the file that it is in and the
opened files as they were, and behind the errors that were recorded those of the texts that visiting
the nodes reads. Lowering stopped if the visit does. -/
structure Restores (r : Resources) (mode : ReadingMode) (n : Node) (l : Linker)
    (result : EStateM.Result ScriptError Linker Operation) : Prop where
  target_eq : (ending result).1.target = l.target
  opened_eq : (ending result).1.opened = l.opened
  recovered_eq : ∃ ps, r.Reads mode l.target l.opened n.visited ps (ending result).2 ∧
    (ending result).1.recovered = l.recovered ++ ps.flatMap fun p => p.errors.map .ofSource

variable {r : Resources} {mode : ReadingMode} {n : Node} {l : Linker}
  {result : EStateM.Result ScriptError Linker Operation}

/-- Lowering ends with one result at most. -/
theorem LowersTo.unique {result' : EStateM.Result ScriptError Linker Operation}
    (h : n.LowersTo r mode l result) (h' : n.LowersTo r mode l result') : result = result' := by
  obtain ⟨k, hk⟩ := h
  obtain ⟨j, hj⟩ := h'
  let below : String → Lowering Operation := fun _ => return .noop
  calc result = n.lower (nestedFrom r mode (nestedFrom r mode below j) k) l := (hk _).symm
    _ = n.lower (nestedFrom r mode (nestedFrom r mode below k) j) l := by
      rw [← Lowering.nestedFrom_add, Nat.add_comm, Lowering.nestedFrom_add]
    _ = result' := hj _

/-- Lowering with imports from a library ends, in every state. -/
theorem lowersTo_lowerWith (library : Library) (mode : ReadingMode) (n : Node) (l : Linker) :
    n.LowersTo library.resources mode l (n.lowerWith library mode l) := by
  refine ⟨library.files.length + 1, fun below => ?_⟩
  have hless := Nat.lt_succ_of_le (library.unopened_length_le l.opened)
  have hagree : ∀ path, Lowering.Agree l.opened l.target (·.Fresh library l.opened)
      (Lowering.importNested library mode below (library.files.length + 1) path)
      (Lowering.importNested library mode (fun _ => return .noop) (library.files.length + 1)
        path) :=
    Lowering.importNested_agree below (fun _ => return .noop) hless hless
  rw [lowerWith, Lowering.importFile_eq, ← Lowering.importNested_eq]
  exact (lower_agree (Closed.fresh library l.opened) hagree n l rfl rfl).1

theorem LowersTo.restores (h : n.LowersTo r mode l result) : n.Restores r mode l result := by
  obtain ⟨k, hk⟩ := h
  have haccounts : ∀ e : ScriptError, (∀ line, e.orLine line = e) →
      (∃ l', result = .error e l') ∨
        ∃ ps stopped, r.Reads mode l.target l.opened n.visited ps stopped ∧
          ending result = (l.record ps, stopped) := by
    intro e he
    have hvisited : Lowering.Accounts r mode e (n.lower (nestedFrom r mode (fun _ => throw e) k))
        n.visited :=
      lower_visits (Lowering.visiting_accounts he (Lowering.nestedFrom_accounts he k)) n
    rw [← hk fun _ => throw e]
    exact hvisited l
  -- two errors of source texts, which get no lines, mark what is not reached
  have hreads : ∃ ps stopped, r.Reads mode l.target l.opened n.visited ps stopped ∧
      ending result = (l.record ps, stopped) := by
    rcases haccounts (.lexer default) (fun _ => rfl) with ⟨l₁, hlexer⟩ | hreads
    · rcases haccounts (.grammar default) (fun _ => rfl) with ⟨l₂, hgrammar⟩ | hreads
      · rw [hlexer] at hgrammar
        cases hgrammar
      · exact hreads
    · exact hreads
  obtain ⟨ps, stopped, hreads, hending⟩ := hreads
  exact ⟨by rw [hending]; rfl, by rw [hending]; rfl, ps, by rw [hending]; exact hreads,
    by rw [hending]; rfl⟩

/-- Lowering leaves the state as it was, but for what is recorded. Whatever the node, the resources
and the state, if lowering ends, with an operation or with an error, then the file that it is in and
the opened files are what they were. Behind the recorded errors stand those of the texts that were
read, in the order in which they were read. With imports from a library, lowering always ends. -/
theorem lower_restores (mode : ReadingMode) (n : Node) (l : Linker) :
    (∀ r result, n.LowersTo r mode l result → n.Restores r mode l result) ∧
    ∀ library : Library, n.LowersTo library.resources mode l (n.lowerWith library mode l) ∧
      n.Restores library.resources mode l (n.lowerWith library mode l) := by
  refine ⟨fun _ _ h => h.restores, fun library => ?_⟩
  have hlowers := lowersTo_lowerWith library mode n l
  exact ⟨hlowers, hlowers.restores⟩

/-- Resources of two texts, under the paths that they are imported with. The first one begins with
what is passed over, and imports the second one, which assigns to a call. -/
def flawedResources : Resources where
  resolve? _ path := some path
  get? name := if name = "outer" then some "*\nimport \"inner\"" else some "f() = b"

/-- What the first text is read to. -/
def flawedOuter : Parsed :=
  ⟨.chunk ⟨⟨1, 1⟩, ⟨2, 15⟩⟩
    [.invalid ⟨⟨1, 1⟩, ⟨1, 2⟩⟩, .importStatement ⟨⟨2, 1⟩, ⟨2, 15⟩⟩ "inner"] [],
    [.parse ⟨.unexpectedAssignmentOrCall, "*", ⟨1, 1⟩⟩]⟩

/-- What the second text is read to. -/
def flawedInner : Parsed :=
  ⟨.chunk ⟨⟨1, 1⟩, ⟨1, 8⟩⟩
    [.assignment ⟨⟨1, 1⟩, ⟨1, 8⟩⟩
      (.call ⟨⟨1, 1⟩, ⟨1, 4⟩⟩ (.identifier ⟨⟨1, 1⟩, ⟨1, 2⟩⟩ "f") [])
      (.identifier ⟨⟨1, 7⟩, ⟨1, 8⟩⟩ "b")] ["f", "b"], []⟩

/-- The import of the first text. -/
def flawedImport : Node := .importStatement ⟨⟨3, 1⟩, ⟨3, 15⟩⟩ "outer"

/-- The fault of the second text. -/
def flaw : ScriptError := .run ⟨.unexpectedNode "CallExpression", some 1⟩

/-- The error that is passed over in the first text. -/
def passedOver : ScriptError := .grammar ⟨.unexpectedAssignmentOrCall, "*", ⟨1, 1⟩⟩

/-- Importing the first text from a file that was imported itself stops two files further down. -/
theorem flawedImport_lowersTo :
    flawedImport.LowersTo flawedResources ⟨true, 1⟩ ⟨"side", ["side", "main"], []⟩
      (.error flaw ⟨"side", ["side", "main"], [passedOver]⟩) := by
  have houter : parse ⟨true, 1⟩ "*\nimport \"inner\"" = .ok flawedOuter := by cbv
  have hinner : parse ⟨true, 1⟩ "f() = b" = .ok flawedInner := by cbv
  have hleadOuter : flawedResources.lead ⟨true, 1⟩ "side" ["side", "main"] "outer" =
      .enter "outer" flawedOuter := by
    simp [Resources.lead, flawedResources, houter]
  have hleadInner : flawedResources.lead ⟨true, 1⟩ "outer" ["outer", "side", "main"] "inner" =
      .enter "inner" flawedInner := by
    simp [Resources.lead, flawedResources, hinner]
  refine ⟨2, fun below => ?_⟩
  have hinnerStep : nestedFrom flawedResources ⟨true, 1⟩ below 1 "inner"
      ⟨"outer", ["outer", "side", "main"], [passedOver]⟩ =
        .error flaw ⟨"outer", ["outer", "side", "main"], [passedOver]⟩ := by
    rw [nestedFrom, Lowering.importFrom_apply, hleadInner]
    rfl
  have hchunk : flawedOuter.chunk.lower (nestedFrom flawedResources ⟨true, 1⟩ below 1)
      ⟨"outer", ["outer", "side", "main"], [passedOver]⟩ =
        .error flaw ⟨"outer", ["outer", "side", "main"], [passedOver]⟩ := by
    have hpass : (pure .noop : Lowering Operation)
        ⟨"outer", ["outer", "side", "main"], [passedOver]⟩ =
          .ok .noop ⟨"outer", ["outer", "side", "main"], [passedOver]⟩ := rfl
    simp only [flawedOuter, lower, lowerBlock, Lowering.atLine, Lowering.bind_apply, hpass,
      hinnerStep]
    rfl
  have houterStep : nestedFrom flawedResources ⟨true, 1⟩ below 2 "outer"
      ⟨"side", ["side", "main"], []⟩ = .error flaw ⟨"side", ["side", "main"], [passedOver]⟩ := by
    have hentered : (Linker.record ⟨"side", ["side", "main"], []⟩ [flawedOuter]).enter "outer" =
        ⟨"outer", ["outer", "side", "main"], [passedOver]⟩ := rfl
    rw [nestedFrom, Lowering.importFrom_apply, hleadOuter]
    dsimp only
    rw [Lowering.bind_apply, Lowering.within, hentered, hchunk]
    rfl
  rw [flawedImport, lower, Lowering.atLine, houterStep]
  rfl

theorem lower_restores_flawedImport :
    flawedImport.LowersTo flawedResources ⟨true, 1⟩ ⟨"side", ["side", "main"], []⟩
      (.error flaw ⟨"side", ["side", "main"], [passedOver]⟩) ∧
    flawedImport.Restores flawedResources ⟨true, 1⟩ ⟨"side", ["side", "main"], []⟩
      (.error flaw ⟨"side", ["side", "main"], [passedOver]⟩) :=
  ⟨flawedImport_lowersTo, (lower_restores _ _ _).1 _ _ flawedImport_lowersTo⟩

end Node

end LineScript
