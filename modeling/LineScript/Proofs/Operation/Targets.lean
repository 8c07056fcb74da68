import LineScript.Proofs.Operation.Tame
import Mathlib

/-!
# What keeps a tree from being lowered

Lowering visits every node of a tree once, each in front of the nodes below it. It stops at the
first node that assigns to what is not a chain of access, and at nothing else unless it imports a
file. Main statement: which source texts are read but cannot be lowered, and with which fault.
-/

namespace LineScript

namespace Node

/-- The children of a node in the order in which they are lowered. -/
def children : Node → List Node
  | .conditional _ clauses => clauses.flatMap fun k => k.condition.toList ++ k.body
  | n => n.operands ++ n.statements

theorem mem_children {n c : Node} : c ∈ n.children ↔ c ∈ n.operands ∨ c ∈ n.statements := by
  cases n with
  | conditional e clauses =>
    simp only [children, operands, statements, List.mem_flatMap, List.mem_append]
    constructor
    · rintro ⟨k, hk, hc | hc⟩
      · exact .inl ⟨k, hk, hc⟩
      · exact .inr ⟨k, hk, hc⟩
    · rintro (⟨k, hk, hc⟩ | ⟨k, hk, hc⟩)
      · exact ⟨k, hk, .inl hc⟩
      · exact ⟨k, hk, .inr hc⟩
  | _ => exact List.mem_append

theorem sizeOf_child {n c : Node} (h : c ∈ n.children) : sizeOf c < sizeOf n := by
  rcases mem_children.1 h with h | h
  · exact sizeOf_operand h
  · exact sizeOf_statement h

/-- The nodes of a tree in the order in which they are lowered. -/
def visited (n : Node) : List Node :=
  n :: n.children.attach.flatMap fun c => visited c.1
termination_by sizeOf n
decreasing_by exact sizeOf_child c.2

theorem visited_eq (n : Node) : n.visited = n :: n.children.flatMap visited := by
  rw [visited]
  congr 1
  conv_rhs => rw [← List.attach_map_subtype_val n.children, List.flatMap_map]

/-- What holds everywhere in a tree holds of the nodes that are visited. -/
theorem everywhere_iff {P : Node → Prop} {n : Node} :
    n.Everywhere P ↔ ∀ m ∈ n.visited, P m := by
  constructor
  · intro h
    induction h with
    | @mk n here _ _ ihOperands ihStatements =>
      intro m hm
      rw [visited_eq] at hm
      rcases List.mem_cons.1 hm with rfl | hm
      · exact here
      · obtain ⟨c, hc, hm⟩ := List.mem_flatMap.1 hm
        rcases mem_children.1 hc with hc | hc
        · exact ihOperands c hc m hm
        · exact ihStatements c hc m hm
  · intro h
    induction n using Node.induction with
    | step n ihOperands ihStatements =>
      rw [visited_eq] at h
      have below : ∀ c ∈ n.children, ∀ m ∈ c.visited, P m := by
        intro c hc m hm
        exact h m (List.mem_cons_of_mem _ (List.mem_flatMap.2 ⟨c, hc, hm⟩))
      apply Everywhere.mk
      · exact h n List.mem_cons_self
      · intro c hc
        exact ihOperands c hc (below c (mem_children.2 (.inl hc)))
      · intro c hc
        exact ihStatements c hc (below c (mem_children.2 (.inr hc)))

/-- The node that a statement assigns to. -/
def assigned? : Node → Option Node
  | .assignment _ target _ => some target
  | .forLoop _ target _ _ => some target
  | _ => none

/-- A node assigns to nothing but a chain of access. -/
def Assignable (n : Node) : Prop := ∀ t ∈ n.assigned?, t.isChain = true

/-- The fault of a node that assigns to what is not a chain of access. -/
def mistake? (n : Node) : Option Fault :=
  match n.assigned? with
  | some t => if t.isChain then none else some ⟨.unexpectedNode t.kindName, some n.line⟩
  | none => none

theorem mistake?_eq_none {n : Node} : n.mistake? = none ↔ n.Assignable := by
  unfold mistake? Assignable
  cases n.assigned? with
  | none => simp
  | some t => simp

theorem mistake?_eq_some {n : Node} {fault : Fault} :
    n.mistake? = some fault ↔
      ∃ t, n.assigned? = some t ∧ t.isChain = false ∧
        fault = ⟨.unexpectedNode t.kindName, some n.line⟩ := by
  unfold mistake?
  cases n.assigned? with
  | none => simp
  | some t =>
    dsimp only
    constructor
    · intro h
      split at h
      · cases h
      next hchain => exact ⟨t, rfl, by simpa using hchain, (Option.some.inj h).symm⟩
    · rintro ⟨u, hu, hchain, rfl⟩
      cases hu
      simp [hchain]

/-- The fault that a node is refused with before the nodes below it are visited: its operator is one
that other kinds of nodes have, or it assigns to what is not a chain of access. -/
def refusal? (n : Node) : Option Fault :=
  if n.isKnown then n.mistake? else some ⟨.unknownUnary, some n.line⟩

theorem refusal?_of_known {n : Node} (h : n.isKnown = true) : n.refusal? = n.mistake? := if_pos h

end Node

/-- A line is given once. -/
theorem ScriptError.orLine_orLine (e : ScriptError) (line line' : Nat) :
    (e.orLine line).orLine line' = e.orLine line := by
  cases e with
  | run fault =>
    cases fault with
    | mk kind place => cases place <;> rfl
  | _ => rfl

namespace Lowering

variable {α β : Type}

/-- A step of lowering, without what it gives. -/
def discard (x : Lowering α) : Lowering Unit := (fun _ => ()) <$> x

/-- What visiting a node can stop with, given what becomes of an import. -/
def inspect (f : String → Lowering Operation) : Node → Lowering Unit
  | .importStatement e path => atLine e.start.line (discard (f path))
  | n =>
    match n.mistake? with
    | some fault => throw (.run fault)
    | none => pure ()

/-- Visits nodes one behind the other. -/
def check (f : String → Lowering Operation) : List Node → Lowering Unit
  | [] => pure ()
  | n :: ns => do
    inspect f n
    check f ns

/-- All a step of lowering can stop with is what visiting some nodes can stop with. -/
def Checks (f : String → Lowering Operation) (x : Lowering α) (ns : List Node) : Prop :=
  discard x = check f ns

variable {f : String → Lowering Operation} {x : Lowering α} {ns : List Node}

theorem discard_apply (x : Lowering α) (l : Linker) :
    discard x l =
      match x l with
      | .ok _ l' => .ok () l'
      | .error e l' => .error e l' := by
  change EStateM.map _ x l = _
  unfold EStateM.map
  cases x l with
  | ok a l' => rfl
  | error e l' => rfl

theorem inspect_of_none {n : Node} (himport : n.isImport = false) (hn : n.mistake? = none) :
    inspect f n = pure () := by
  unfold inspect
  split
  · cases himport
  · rw [hn]

theorem inspect_of_mistake {n : Node} {fault : Fault} (hn : n.mistake? = some fault) :
    inspect f n = throw (.run fault) := by
  unfold inspect
  split
  · cases hn
  · rw [hn]

theorem check_append (ms ns : List Node) :
    check f (ms ++ ns) = (check f ms >>= fun _ => check f ns) := by
  induction ms with
  | nil => simp [check]
  | cons m ms ih => simp [check, ih]

/-- What visiting nodes stops with has a line. -/
theorem line_of_check {ns : List Node} {l l' : Linker} {e : ScriptError}
    (h : check f ns l = .error e l') (line : Nat) : e.orLine line = e := by
  induction ns generalizing l with
  | nil => cases h
  | cons n ns ih =>
    rw [check, bind_apply] at h
    cases hn : inspect f n l with
    | ok a l₁ =>
      rw [hn] at h
      exact ih h
    | error e₁ l₁ =>
      rw [hn] at h
      cases h
      unfold inspect at hn
      split at hn
      · unfold atLine at hn
        split at hn
        · cases hn
        · cases hn
          exact ScriptError.orLine_orLine _ _ _
      · cases hfault : n.mistake? with
        | none =>
          rw [hfault] at hn
          cases hn
        | some fault =>
          rw [hfault] at hn
          obtain ⟨t, _, _, rfl⟩ := Node.mistake?_eq_some.1 hfault
          cases hn
          rfl

namespace Checks

theorem pure (a : α) : Checks f (pure a) [] := by
  unfold Checks discard check
  exact map_pure _ _

theorem bind {k : α → Lowering β} {ms : List Node} (hx : Checks f x ms)
    (hk : ∀ a, Checks f (k a) ns) : Checks f (x >>= k) (ms ++ ns) := by
  unfold Checks discard at *
  rw [check_append, ← hx, map_bind, bind_map_left]
  simp only [hk]

/-- The line of a node is not given to what arises below it. -/
theorem atLine (line : Nat) (hx : Checks f x ns) : Checks f (atLine line x) ns := by
  funext l
  have hl := congrFun hx l
  rw [discard_apply, Lowering.atLine]
  rw [discard_apply] at hl
  cases h : x l with
  | ok a l' =>
    rw [h] at hl
    exact hl
  | error e l' =>
    rw [h] at hl
    dsimp only
    rw [line_of_check hl.symm line]
    exact hl

/-- A node without a mistake of its own is visited in front of those below it. -/
theorem visit {n : Node} (himport : n.isImport = false) (hn : n.mistake? = none)
    (hx : Checks f x ns) : Checks f x (n :: ns) := by
  have hcheck : check f (n :: ns) = check f ns := by
    rw [check, inspect_of_none himport hn]
    exact pure_bind _ _
  exact Eq.trans hx hcheck.symm

/-- Nothing below a node with a mistake is visited. -/
theorem fail {n : Node} {kind : FaultKind} {line : Nat}
    (hn : n.mistake? = some ⟨kind, some line⟩) :
    Checks f (Lowering.atLine line (Lowering.fail kind : Lowering α)) (n :: ns) := by
  unfold Checks
  rw [check, inspect_of_mistake hn]
  rfl

/-- An import stops with what becomes of it. -/
theorem imported (e : Extent) (path : String) :
    Checks f (Lowering.atLine e.start.line (f path)) [.importStatement e path] := by
  have hdiscard : discard (Lowering.atLine e.start.line (f path)) =
      Lowering.atLine e.start.line (discard (f path)) := by
    funext l
    simp only [discard_apply, Lowering.atLine]
    cases f path l with
    | ok a l' => rfl
    | error e l' => rfl
  unfold Checks
  rw [hdiscard, check, check]
  exact (bind_pure _).symm

end Checks

end Lowering

namespace Lowering

/-- A property of steps of lowering and of the nodes that they visit, which goes along with the way
in which nodes are lowered, given what becomes of an import. -/
structure Visiting (f : String → Lowering Operation)
    (P : (α : Type) → Lowering α → List Node → Prop) : Prop where
  pure {α : Type} (a : α) : P α (pure a) []
  bind {α β : Type} {x : Lowering α} {k : α → Lowering β} {ms ns : List Node} (hx : P α x ms)
    (hk : ∀ a, P β (k a) ns) : P β (x >>= k) (ms ++ ns)
  atLine {α : Type} {x : Lowering α} {ns : List Node} (line : Nat) (hx : P α x ns) :
    P α (atLine line x) ns
  visit {α : Type} {x : Lowering α} {n : Node} {ns : List Node} (himport : n.isImport = false)
    (hn : n.refusal? = none) (hx : P α x ns) : P α x (n :: ns)
  refuse {α : Type} {n : Node} {ns : List Node} {kind : FaultKind} {line : Nat}
    (hn : n.refusal? = some ⟨kind, some line⟩) :
    P α (Lowering.atLine line (Lowering.fail kind)) (n :: ns)
  imported (e : Extent) (path : String) :
    P Operation (Lowering.atLine e.start.line (f path)) [.importStatement e path]

theorem Visiting.map {f : String → Lowering Operation}
    {P : (α : Type) → Lowering α → List Node → Prop} (hP : Visiting f P) {α β : Type}
    {x : Lowering α} {ns : List Node} {k : α → β} (hx : P α x ns) :
    P β (x >>= fun a => Pure.pure (k a)) ns := by
  have h := hP.bind hx fun a => hP.pure (k a)
  rwa [List.append_nil] at h

end Lowering

namespace Node

open Lowering (Visiting Checks)

section Visits

variable {f : String → Lowering Operation} {P : (α : Type) → Lowering α → List Node → Prop}

theorem lowerList_visits (hP : Visiting f P) {ns : List Node}
    (h : ∀ n ∈ ns, P _ (n.lower f) n.visited) : P _ (lowerList f ns) (ns.flatMap visited) := by
  induction ns with
  | nil =>
    rw [lowerList]
    exact hP.pure _
  | cons n ns ih =>
    obtain ⟨hn, hns⟩ := List.forall_mem_cons.1 h
    rw [lowerList, List.flatMap_cons]
    exact hP.bind hn fun o => hP.map (ih hns)

theorem lowerBlock_visits (hP : Visiting f P) {ns : List Node}
    (h : ∀ n ∈ ns, P _ (n.lower f) n.visited) : P _ (lowerBlock f ns) (ns.flatMap visited) := by
  induction ns with
  | nil =>
    rw [lowerBlock]
    exact hP.pure _
  | cons n ns ih =>
    obtain ⟨hn, hns⟩ := List.forall_mem_cons.1 h
    rw [lowerBlock, List.flatMap_cons]
    exact hP.bind hn fun o => hP.map (ih hns)

theorem lowerParameters_visits (hP : Visiting f P) {ps : List Parameter}
    (h : ∀ n ∈ ps.flatMap (·.default.toList), P _ (n.lower f) n.visited) :
    P _ (lowerParameters f ps) ((ps.flatMap (·.default.toList)).flatMap visited) := by
  induction ps with
  | nil =>
    rw [lowerParameters]
    exact hP.pure _
  | cons p ps ih =>
    have hps := ih fun n hn => h n (by simp_all)
    cases p with
    | mk e name default =>
      cases default with
      | none =>
        rw [lowerParameters]
        exact hP.map hps
      | some d =>
        rw [lowerParameters]
        have hd := h d (by simp [Parameter.default])
        exact hP.bind hd fun o => hP.map hps

theorem lowerClauses_visits (hP : Visiting f P) {cs : List Clause}
    (h : ∀ n ∈ cs.flatMap fun k => k.condition.toList ++ k.body, P _ (n.lower f) n.visited) :
    P _ (lowerClauses f cs)
      ((cs.flatMap fun k => k.condition.toList ++ k.body).flatMap visited) := by
  induction cs with
  | nil =>
    rw [lowerClauses]
    exact hP.pure _
  | cons c cs ih =>
    have hcs := ih fun n hn => h n (by simp_all)
    cases c with
    | mk e kind condition body =>
      have hbody : P _ (lowerBlock f body) (body.flatMap visited) :=
        lowerBlock_visits hP fun n hn => h n (by simp [Clause.body, hn])
      rw [List.flatMap_cons, List.flatMap_append]
      cases condition with
      | none =>
        rw [lowerClauses]
        exact hP.bind hbody fun b => hP.map hcs
      | some n =>
        rw [lowerClauses]
        have hn := h n (by simp [Clause.condition])
        have hclause := hP.bind hn fun o => hP.bind hbody fun b =>
          hP.map (k := fun bs => Branch.mk o b :: bs) hcs
        simpa [Clause.condition, Clause.body] using hclause

theorem lowerFields_visits (hP : Visiting f P) {fs : List Field}
    (h : ∀ n ∈ fs.map (·.value), P _ (n.lower f) n.visited) :
    P _ (lowerFields f fs) ((fs.map (·.value)).flatMap visited) := by
  induction fs with
  | nil =>
    rw [lowerFields]
    exact hP.pure _
  | cons c fs ih =>
    obtain ⟨hvalue, hrest⟩ := List.forall_mem_cons.1 h
    cases c with
    | mk e key value =>
      rw [lowerFields]
      exact hP.bind hvalue fun o => hP.map (ih hrest)

/-- A property that goes along with the way in which nodes are lowered holds of lowering a tree, and
of all the nodes of the tree. -/
theorem lower_visits (hP : Visiting f P) (n : Node) : P _ (n.lower f) n.visited := by
  induction n using Node.induction with
  | step n operands statements =>
    have below : ∀ c ∈ n.children, P _ (c.lower f) c.visited := by
      intro c hc
      rcases mem_children.1 hc with hc | hc
      · exact operands c hc
      · exact statements c hc
    clear operands statements
    rw [visited_eq]
    cases n <;> simp only [children, operands, statements, List.append_nil, List.nil_append]
      at below ⊢
    all_goals try simp only [lower]
    case chunk e body names =>
      exact hP.visit rfl rfl (hP.atLine _ (hP.map (lowerBlock_visits hP below)))
    case assignment e assigned value =>
      obtain ⟨hassigned, hvalue⟩ := forall_mem_pair.1 below
      split
      next hchain =>
        apply hP.visit rfl (by simp [refusal?, isKnown, mistake?, assigned?, hchain])
        apply hP.atLine
        rw [List.flatMap_cons, List.flatMap_singleton]
        exact hP.bind hassigned fun t => hP.map hvalue
      next hchain =>
        apply hP.refuse
        simp [refusal?, isKnown, mistake?, assigned?, hchain, line, extent]
    case callStatement e expression =>
      rw [List.flatMap_singleton]
      exact hP.visit rfl rfl (hP.atLine _ (below expression List.mem_cons_self))
    case function e name parameters body =>
      obtain ⟨hparameters, hbody⟩ := List.forall_mem_append.1 below
      rw [List.flatMap_append]
      have hps := lowerParameters_visits hP hparameters
      exact hP.visit rfl rfl
        (hP.atLine _ (hP.bind hps fun ps => hP.map (lowerBlock_visits hP hbody)))
    case returnStatement e argument =>
      cases argument with
      | none =>
        rw [lower]
        exact hP.visit rfl rfl (hP.atLine _ (hP.pure _))
      | some a =>
        rw [lower, Option.toList_some, List.flatMap_singleton]
        exact hP.visit rfl rfl (hP.atLine _ (hP.map (below a (by simp))))
    case conditional e clauses =>
      exact hP.visit rfl rfl (hP.atLine _ (hP.map (lowerClauses_visits hP below)))
    case whileLoop e condition body =>
      obtain ⟨hcondition, hbody⟩ := List.forall_mem_cons.1 below
      exact hP.visit rfl rfl
        (hP.atLine _ (hP.bind hcondition fun o => hP.map (lowerBlock_visits hP hbody)))
    case forLoop e assigned iterator body =>
      obtain ⟨hassigned, hrest⟩ := List.forall_mem_cons.1 below
      obtain ⟨hiterator, hbody⟩ := List.forall_mem_cons.1 hrest
      split
      next hchain =>
        apply hP.visit rfl (by simp [refusal?, isKnown, mistake?, assigned?, hchain])
        apply hP.atLine
        exact hP.bind hassigned fun t =>
          hP.bind hiterator fun i => hP.map (lowerBlock_visits hP hbody)
      next hchain =>
        apply hP.refuse
        simp [refusal?, isKnown, mistake?, assigned?, hchain, line, extent]
    case importStatement e path => exact hP.imported e path
    case member e origin name =>
      obtain ⟨horigin, hname⟩ := forall_mem_pair.1 below
      rw [List.flatMap_cons, List.flatMap_singleton]
      exact hP.visit rfl rfl (hP.atLine _ (hP.bind horigin fun o => hP.map hname))
    case index e origin key =>
      obtain ⟨horigin, hkey⟩ := forall_mem_pair.1 below
      rw [List.flatMap_cons, List.flatMap_singleton]
      exact hP.visit rfl rfl (hP.atLine _ (hP.bind horigin fun o => hP.map hkey))
    case call e origin arguments =>
      obtain ⟨horigin, harguments⟩ := List.forall_mem_cons.1 below
      exact hP.visit rfl rfl
        (hP.atLine _ (hP.bind horigin fun o => hP.map (lowerList_visits hP harguments)))
    case negation e argument | signed e operator argument =>
      rw [List.flatMap_singleton]
      exact hP.visit rfl rfl (hP.atLine _ (hP.map (below argument List.mem_cons_self)))
    case unary e operator argument =>
      rw [List.flatMap_singleton]
      cases operator with
      | new => exact hP.visit rfl rfl (hP.atLine _ (hP.map (below argument List.mem_cons_self)))
      | _ => exact hP.refuse rfl
    case binary e operator left right | logical e operator left right =>
      obtain ⟨hleft, hright⟩ := forall_mem_pair.1 below
      rw [List.flatMap_cons, List.flatMap_singleton]
      exact hP.visit rfl rfl (hP.atLine _ (hP.bind hleft fun o => hP.map hright))
    case mapLiteral e fields =>
      exact hP.visit rfl rfl (hP.atLine _ (hP.map (lowerFields_visits hP below)))
    case listLiteral e items =>
      exact hP.visit rfl rfl (hP.atLine _ (hP.map (lowerList_visits hP below)))
    all_goals exact hP.visit rfl rfl (hP.pure _)

end Visits

variable {f : String → Lowering Operation}

/-- Where all operators belong, a step of lowering stops at what visiting its nodes stops at. -/
theorem visiting_checks :
    Visiting f fun _ x ns => (∀ n ∈ ns, n.isKnown = true) → Checks f x ns where
  pure a _ := .pure a
  bind hx hk hknown := by
    obtain ⟨hms, hns⟩ := List.forall_mem_append.1 hknown
    exact (hx hms).bind fun a => hk a hns
  atLine line hx hknown := (hx hknown).atLine line
  visit himport hn hx hknown := by
    obtain ⟨hhere, hns⟩ := List.forall_mem_cons.1 hknown
    exact .visit himport ((refusal?_of_known hhere).symm.trans hn) (hx hns)
  refuse hn hknown :=
    .fail ((refusal?_of_known (List.forall_mem_cons.1 hknown).1).symm.trans hn)
  imported e path _ := .imported e path

/-- Lowering a tree stops at the first of its nodes that has to stop it. -/
theorem lower_checks (n : Node) (hknown : n.Everywhere fun m => m.isKnown = true) :
    Checks f (n.lower f) n.visited :=
  lower_visits visiting_checks n (everywhere_iff.1 hknown)

end Node

namespace Lowering

variable {α : Type} {f : String → Lowering Operation}

/-- A step of lowering does not stop at an operator that it does not know. -/
def Knows (x : Lowering α) : Prop :=
  ∀ l fault l', x l = .error (.run fault) l' → fault.kind ≠ .unknownUnary

theorem Knows.bind {β : Type} {x : Lowering α} {k : α → Lowering β} (hx : Knows x)
    (hk : ∀ a, Knows (k a)) : Knows (x >>= k) := by
  intro l fault l' h
  rw [bind_apply] at h
  cases hxl : x l with
  | ok a l₁ =>
    rw [hxl] at h
    exact hk a l₁ fault l' h
  | error e l₁ =>
    rw [hxl] at h
    cases h
    exact hx l fault l' hxl

theorem Knows.pure (a : α) : Knows (Pure.pure a : Lowering α) := by
  intro l fault l' h
  cases h

theorem Knows.fail {kind : FaultKind} (hkind : kind ≠ .unknownUnary) :
    Knows (Lowering.fail kind : Lowering α) := by
  intro l fault l' h
  cases h
  exact hkind

theorem Knows.within {x : Lowering α} (hx : Knows x) (target : String) :
    Knows (Lowering.within target x) := by
  intro l fault l' h
  unfold Lowering.within at h
  cases hxl : x (l.enter target) with
  | ok a l₁ =>
    rw [hxl] at h
    cases h
  | error e l₁ =>
    rw [hxl] at h
    cases h
    exact hx _ fault l₁ hxl

theorem inspect_knows (hf : ∀ path, Knows (f path)) (n : Node) : Knows (inspect f n) := by
  intro l fault l' h
  cases hn : n.mistake? with
  | some fault' =>
    rw [inspect_of_mistake hn] at h
    obtain ⟨t, _, _, rfl⟩ := Node.mistake?_eq_some.1 hn
    cases h
    simp
  | none =>
    cases n with
    | importStatement e path =>
      rw [inspect, atLine, discard_apply] at h
      cases hpath : f path l with
      | ok o l₁ =>
        rw [hpath] at h
        cases h
      | error e₁ l₁ =>
        rw [hpath] at h
        cases e₁ with
        | run fault₁ =>
          have hkind := hf path l fault₁ l₁ hpath
          cases h
          unfold Fault.orLine
          split <;> exact hkind
        | _ => cases h
    | _ =>
      rw [inspect_of_none rfl hn] at h
      cases h

theorem check_knows (hf : ∀ path, Knows (f path)) (ns : List Node) : Knows (check f ns) := by
  induction ns with
  | nil => exact .pure ()
  | cons n ns ih => exact (inspect_knows hf n).bind fun _ => ih

theorem Checks.knows {x : Lowering α} {ns : List Node} (hx : Checks f x ns)
    (hf : ∀ path, Knows (f path)) : Knows x := by
  intro l fault l' h
  apply check_knows hf ns l fault l'
  rw [← hx, discard_apply, h]

end Lowering

/-- All operators of what is read belong where they stand. -/
theorem parse_known {mode : ReadingMode} {source : String} {p : Parsed}
    (h : parse mode source = .ok p) : p.chunk.Everywhere fun m => m.isKnown = true := by
  obtain ⟨e, body, names, hchunk, hwell⟩ := parse_eq_chunk h
  rw [hchunk]
  apply Node.Everywhere.mk
  · rfl
  · simp [Node.operands]
  · intro c hc
    exact (hwell c hc).known

/-- No import stops at an operator that is not known. -/
theorem Lowering.importFile_knows (library : Library) (mode : ReadingMode) (n : Nat)
    (path : String) : Knows (importFile library mode n path) := by
  induction n generalizing path with
  | zero => exact .pure _
  | succ n ih =>
    unfold importFile importStep
    apply Knows.bind
    · intro l fault l' h
      cases h
    · intro l
      split
      · exact .fail (by simp)
      · split
        · exact .pure _
        · split
          · exact .fail (by simp)
          · split
            next e _ =>
              intro l fault l' h
              cases e <;> cases h
            next p hparse =>
              apply Knows.bind
              · intro l fault l' h
                cases h
              · intro _
                have hlower := (Node.lower_checks p.chunk (parse_known hparse)).knows ih
                exact (hlower.within _).bind fun _ => .pure _

namespace Lowering

variable {f : String → Lowering Operation} {ns : List Node}

/-- Visiting nodes without a mistake does nothing. -/
theorem check_of_assignable (himport : ∀ n ∈ ns, n.isImport = false)
    (hns : ∀ n ∈ ns, n.mistake? = none) : check f ns = pure () := by
  induction ns with
  | nil => rfl
  | cons n ns ih =>
    obtain ⟨hn, himport⟩ := List.forall_mem_cons.1 himport
    obtain ⟨hnone, hns⟩ := List.forall_mem_cons.1 hns
    rw [check, inspect_of_none hn hnone, ih himport hns]
    exact pure_bind _ _

variable {α : Type} {x : Lowering α}

theorem Checks.ok (hx : Checks f x ns) (himport : ∀ n ∈ ns, n.isImport = false)
    (hns : ∀ n ∈ ns, n.mistake? = none) (l : Linker) : ∃ a, x l = .ok a l := by
  have hl := congrFun hx l
  rw [check_of_assignable himport hns, discard_apply] at hl
  cases h : x l with
  | ok a l' =>
    rw [h] at hl
    cases hl
    exact ⟨a, rfl⟩
  | error e l' =>
    rw [h] at hl
    cases hl

/-- The first mistake among the nodes to visit is the one that is reported. -/
theorem Checks.error {before after : List Node} {m : Node} {fault : Fault}
    (hx : Checks f x (before ++ m :: after)) (himport : ∀ n ∈ before, n.isImport = false)
    (hbefore : ∀ n ∈ before, n.mistake? = none) (hm : m.mistake? = some fault) (l : Linker) :
    x l = .error (.run fault) l := by
  have hl := congrFun hx l
  rw [check_append, check_of_assignable himport hbefore, pure_bind, check, inspect_of_mistake hm,
    discard_apply] at hl
  cases h : x l with
  | ok a l' =>
    rw [h] at hl
    cases hl
  | error e l' =>
    rw [h] at hl
    cases hl
    rfl

end Lowering

/-- Among nodes of which one has a mistake there is a first. -/
theorem Node.exists_first_mistake {ns : List Node} (h : ¬ ∀ n ∈ ns, n.Assignable) :
    ∃ before m after fault, ns = before ++ m :: after ∧ (∀ n ∈ before, n.Assignable) ∧
      m.mistake? = some fault := by
  induction ns with
  | nil => exact absurd (by simp) h
  | cons n ns ih =>
    cases hn : n.mistake? with
    | some fault => exact ⟨[], n, ns, fault, rfl, by simp, hn⟩
    | none =>
      have hnone := mistake?_eq_none.1 hn
      have hns : ¬ ∀ n ∈ ns, n.Assignable := fun hall =>
        h (List.forall_mem_cons.2 ⟨hnone, hall⟩)
      obtain ⟨before, m, after, fault, rfl, hbefore, hm⟩ := ih hns
      exact ⟨n :: before, m, after, fault, rfl, List.forall_mem_cons.2 ⟨hnone, hbefore⟩, hm⟩

/-- Which trees that were read can be lowered. A tree without imports can be if and only if
everything in it that is assigned to is a chain of access. Otherwise lowering stops at the first
node it visits that assigns to something else, with a fault that names the kind of the target and
the line of the node. No tree that was read, with imports or without, has an operator that lowering
does not know. -/
theorem lowerWith_parsed {mode : ReadingMode} {source : String} {p : Parsed}
    (hparse : parse mode source = .ok p) (library : Library) (target : String) :
    (p.chunk.ImportFree →
      ((∃ o l, p.chunk.lowerWith library mode (.ofTarget target) = .ok o l) ↔
        p.chunk.Everywhere Node.Assignable) ∧
      (¬ p.chunk.Everywhere Node.Assignable → ∃ before m after t,
        p.chunk.visited = before ++ m :: after ∧ (∀ n ∈ before, n.Assignable) ∧
          m.assigned? = some t ∧ t.isChain = false ∧
          p.chunk.lowerWith library mode (.ofTarget target) =
            .error (.run ⟨.unexpectedNode t.kindName, some m.line⟩) (.ofTarget target))) ∧
    ∀ fault l, p.chunk.lowerWith library mode (.ofTarget target) = .error (.run fault) l →
      fault.kind ≠ .unknownUnary := by
  have hchecks : Lowering.Checks _ (p.chunk.lowerWith library mode) p.chunk.visited :=
    Node.lower_checks p.chunk (parse_known hparse)
  constructor
  · intro hfree
    have himport : ∀ n ∈ p.chunk.visited, n.isImport = false := Node.everywhere_iff.1 hfree
    have hfails : ¬ p.chunk.Everywhere Node.Assignable → ∃ before m after t,
        p.chunk.visited = before ++ m :: after ∧ (∀ n ∈ before, n.Assignable) ∧
          m.assigned? = some t ∧ t.isChain = false ∧
          p.chunk.lowerWith library mode (.ofTarget target) =
            .error (.run ⟨.unexpectedNode t.kindName, some m.line⟩) (.ofTarget target) := by
      intro hnot
      rw [Node.everywhere_iff] at hnot
      obtain ⟨before, m, after, fault, hsplit, hbefore, hm⟩ := Node.exists_first_mistake hnot
      obtain ⟨t, ht, hchain, rfl⟩ := Node.mistake?_eq_some.1 hm
      rw [hsplit] at hchecks himport
      have himport := (List.forall_mem_append.1 himport).1
      have hnone : ∀ n ∈ before, n.mistake? = none :=
        fun n hn => Node.mistake?_eq_none.2 (hbefore n hn)
      exact ⟨before, m, after, t, hsplit, hbefore, ht, hchain,
        hchecks.error himport hnone hm (.ofTarget target)⟩
    refine ⟨⟨?_, ?_⟩, hfails⟩
    · rintro ⟨o, l, hok⟩
      by_contra hnot
      obtain ⟨_, _, _, _, _, _, _, _, herror⟩ := hfails hnot
      rw [hok] at herror
      cases herror
    · intro hall
      have hnone : ∀ n ∈ p.chunk.visited, n.mistake? = none :=
        fun n hn => Node.mistake?_eq_none.2 (Node.everywhere_iff.1 hall n hn)
      obtain ⟨o, ho⟩ := hchecks.ok himport hnone (.ofTarget target)
      exact ⟨o, _, ho⟩
  · intro fault l h
    exact hchecks.knows (Lowering.importFile_knows library mode _) (.ofTarget target) fault l h

/-- Two assignments, the second to a call. -/
def assignedCall : Node :=
  .chunk ⟨⟨1, 1⟩, ⟨2, 8⟩⟩
    [.assignment ⟨⟨1, 1⟩, ⟨1, 6⟩⟩ (.identifier ⟨⟨1, 1⟩, ⟨1, 2⟩⟩ "a")
      (.identifier ⟨⟨1, 5⟩, ⟨1, 6⟩⟩ "b"),
    .assignment ⟨⟨2, 1⟩, ⟨2, 8⟩⟩
      (.call ⟨⟨2, 1⟩, ⟨2, 4⟩⟩ (.identifier ⟨⟨2, 1⟩, ⟨2, 2⟩⟩ "f") [])
      (.identifier ⟨⟨2, 7⟩, ⟨2, 8⟩⟩ "b")] ["a", "b", "f"]

theorem lowerWith_parsed_assignedCall :
    parse ⟨false, 1⟩ "a = b\nf() = b" = .ok ⟨assignedCall, []⟩ ∧
      assignedCall.ImportFree ∧ ¬ assignedCall.Everywhere Node.Assignable ∧
      ∃ m t : Node, m.assigned? = some t ∧ t.kindName = "CallExpression" ∧ m.line = 2 ∧
        assignedCall.lowerWith .empty ⟨false, 1⟩ (.ofTarget "main") =
          .error (.run ⟨.unexpectedNode t.kindName, some m.line⟩) (.ofTarget "main") := by
  have hparse : parse ⟨false, 1⟩ "a = b\nf() = b" = .ok ⟨assignedCall, []⟩ := by cbv
  have hfree : assignedCall.ImportFree := by
    apply Node.everywhere_iff.2
    simp [assignedCall, Node.visited_eq, Node.children, Node.operands, Node.statements,
      Node.isImport]
  have hnot : ¬ assignedCall.Everywhere Node.Assignable := by
    intro h
    have hall := Node.everywhere_iff.1 h
    simp [assignedCall, Node.visited_eq, Node.children, Node.operands, Node.statements,
      Node.Assignable, Node.assigned?, Node.isChain] at hall
  obtain ⟨before, m, after, t, -, -, ht, -, herror⟩ :=
    ((lowerWith_parsed hparse .empty "main").1 hfree).2 hnot
  have hlower : assignedCall.lowerWith .empty ⟨false, 1⟩ (.ofTarget "main") =
      .error (.run ⟨.unexpectedNode "CallExpression", some 2⟩) (.ofTarget "main") := rfl
  have hfault := herror.symm.trans hlower
  simp only [EStateM.Result.error.injEq, ScriptError.run.injEq, Fault.mk.injEq,
    FaultKind.unexpectedNode.injEq, Option.some.injEq, and_true] at hfault
  exact ⟨hparse, hfree, hnot, m, t, ht, hfault.1, hfault.2, herror⟩

end LineScript
