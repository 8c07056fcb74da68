import LineScript.Proofs.Grammar.Whole
import LineScript.Proofs.Operation.Imports
import LineScript.Proofs.Run.Structured

/-!
# Trees in which statements stand where statements belong

A tree of operations is tame if it imports no file and no statement that steers a run stands in it
where a value is expected. What a source text without imports is lowered to is tame.
-/

namespace LineScript

/-- The condition of a branch. -/
def Branch.condition : Branch → Operation
  | .mk condition _ => condition

namespace Operation

/-- The operations right below an operation that stand for values. -/
def operands : Operation → List Operation
  | .function d => d.parameters.flatMap (·.default.toList)
  | .chunk _ => []
  | .conditional branches => branches.map Branch.condition
  | .whileLoop condition _ => [condition]
  | .forLoop target iterator _ => target.flatMap Segment.parts ++ [iterator]
  | o => o.parts

/-- A tree imports no file, and no operand in it steers a run. -/
inductive Tame : Operation → Prop where
  | mk {o : Operation} (here : o.target? = none) (operands : ∀ c ∈ o.operands, c.steers = false)
      (parts : ∀ c ∈ o.parts, Tame c) : Tame o

/-- A tame tree that may stand for a value. -/
def Plain (o : Operation) : Prop := o.steers = false ∧ o.Tame

theorem operands_subset (o : Operation) : o.operands ⊆ o.parts := by
  intro c hc
  cases o with
  | conditional branches =>
    obtain ⟨b, hb, rfl⟩ := List.mem_map.1 hc
    refine List.mem_flatMap.2 ⟨b, hb, ?_⟩
    cases b with
    | mk condition body => exact List.mem_cons_self
  | function d => exact List.mem_append_left _ hc
  | chunk body => cases hc
  | whileLoop condition body =>
    obtain rfl := List.mem_singleton.1 hc
    exact List.mem_cons_self
  | forLoop target iterator body =>
    rcases List.mem_append.1 hc with hc | hc
    · exact List.mem_append_left _ hc
    · obtain rfl := List.mem_singleton.1 hc
      exact List.mem_append_right _ List.mem_cons_self
  | _ => exact hc

namespace Tame

variable {o c : Operation}

theorem target?_eq (h : o.Tame) : o.target? = none := by
  cases h with
  | mk here _ _ => exact here

theorem part (h : o.Tame) (hc : c ∈ o.parts) : c.Tame := by
  cases h with
  | mk _ _ parts => exact parts c hc

theorem operand (h : o.Tame) (hc : c ∈ o.operands) : c.Plain := by
  refine ⟨?_, h.part (o.operands_subset hc)⟩
  cases h with
  | mk _ operands _ => exact operands c hc

/-- A tree all of whose parts stand for values. -/
theorem of_plain (ho : o.target? = none) (he : o.operands = o.parts)
    (h : ∀ c ∈ o.parts, c.Plain) : o.Tame :=
  .mk ho (fun c hc => (h c (he ▸ hc)).1) fun c hc => (h c hc).2

end Tame

theorem tame_conditional_cons {condition : Operation} {body : List Statement}
    {branches : List Branch} :
    (conditional (.mk condition body :: branches)).Tame ↔
      condition.Plain ∧ (∀ o ∈ body.map Statement.operation, o.Tame) ∧
        (conditional branches).Tame := by
  constructor
  · intro h
    refine ⟨h.operand List.mem_cons_self, fun o ho => h.part ?_, .mk rfl ?_ ?_⟩
    · exact List.mem_append_left _ (List.mem_cons_of_mem _ ho)
    · exact fun c hc => (h.operand (List.mem_cons_of_mem _ hc)).1
    · exact fun c hc => h.part (List.mem_append_right _ hc)
  · rintro ⟨hcondition, hbody, hrest⟩
    refine .mk rfl (List.forall_mem_cons.2 ⟨hcondition.1, ?_⟩) ?_
    · exact fun c hc => (hrest.operand hc).1
    · exact List.forall_mem_append.2 ⟨List.forall_mem_cons.2 ⟨hcondition.2, hbody⟩,
        fun c hc => hrest.part hc⟩

/-- The segments of a node that was lowered hold nothing new. -/
theorem Plain.segments {o : Operation} (h : o.Plain) (n : Node) :
    ∀ c ∈ (n.segments o).flatMap Segment.parts, c.Plain := by
  intro c hc
  unfold Node.segments at hc
  split at hc
  · exact h.2.operand hc
  · obtain rfl := List.mem_singleton.1 (show c ∈ [_] from hc)
    exact h

end Operation

theorem Lowering.Agree.mono {α : Type} {opened : List String} {target : String} {V W : α → Prop}
    {x y : Lowering α} (h : Agree opened target V x y) (hVW : ∀ a, V a → W a) :
    Agree opened target W x y := by
  intro l hopened htarget
  obtain ⟨heq, hok⟩ := h l hopened htarget
  exact ⟨heq, fun a l' ha => ⟨hVW a (hok a l' ha).1, (hok a l' ha).2⟩⟩

namespace Node

open Lowering (Agree)
open Operation (Tame Plain)

/-- Whether a node imports a file. -/
def isImport : Node → Bool
  | .importStatement _ _ => true
  | _ => false

/-- A tree in which no file is imported. -/
def ImportFree (n : Node) : Prop := n.Everywhere fun m => m.isImport = false

variable {opened : List String} {target : String} {f : String → Lowering Operation}

theorem lowerClauses_tame {cs : List Clause}
    (hconditions : ∀ n ∈ cs.flatMap (·.condition.toList),
      Agree opened target Plain (n.lower f) (n.lower f))
    (hbodies : ∀ n ∈ cs.flatMap (·.body), Agree opened target Tame (n.lower f) (n.lower f)) :
    Agree opened target (fun bs => (Operation.conditional bs).Tame) (lowerClauses f cs)
      (lowerClauses f cs) := by
  induction cs with
  | nil =>
    rw [lowerClauses]
    exact .pure (.of_plain rfl rfl (by simp [Operation.parts]))
  | cons c cs ih =>
    have hcs := ih (fun n hn => hconditions n (by simp_all)) fun n hn => hbodies n (by simp_all)
    cases c with
    | mk e kind condition body =>
      have hbody : Agree opened target (fun ss => ∀ o ∈ ss.map Statement.operation, o.Tame)
          (lowerBlock f body) (lowerBlock f body) :=
        lowerBlock_agree fun n hn => hbodies n (by simp [Clause.body, hn])
      cases condition with
      | none =>
        rw [lowerClauses]
        refine .bind hbody fun ss hss => .bind hcs fun bs hbs => .pure ?_
        have htrue : (Operation.constant true).Tame := .of_plain rfl rfl (by simp [Operation.parts])
        exact Operation.tame_conditional_cons.2 ⟨⟨rfl, htrue⟩, hss, hbs⟩
      | some n =>
        rw [lowerClauses]
        refine .bind (hconditions n (by simp [Clause.condition])) fun o ho => ?_
        refine .bind hbody fun ss hss => .bind hcs fun bs hbs => .pure ?_
        exact Operation.tame_conditional_cons.2 ⟨ho, hss, hbs⟩

/-- What a well-formed tree without imports is lowered to is tame, and steers no run if the tree
stands for a value. -/
theorem lower_tame {allow : Bool} (n : Node) (hwell : n.WellFormed allow) (hfree : n.ImportFree) :
    Agree opened target (fun o => o.Tame ∧ (n.isValue = true → o.steers = false)) (n.lower f)
      (n.lower f) := by
  induction n using Node.induction with
  | step n ihOperands ihStatements =>
    obtain ⟨⟨-, hvalues, -⟩, hwellOperands, hwellStatements⟩ := hwell
    obtain ⟨himport, hfreeOperands, hfreeStatements⟩ := hfree
    have operands : ∀ c ∈ n.operands, Agree opened target Plain (c.lower f) (c.lower f) :=
      fun c hc => (ihOperands c hc (hwellOperands c hc) (hfreeOperands c hc)).mono
        fun o ho => ⟨ho.2 (hvalues c hc), ho.1⟩
    have statements : ∀ c ∈ n.statements, Agree opened target Tame (c.lower f) (c.lower f) :=
      fun c hc => (ihStatements c hc (hwellStatements c hc) (hfreeStatements c hc)).mono
        fun o ho => ho.1
    clear ihOperands ihStatements hvalues hwellOperands hwellStatements hfreeOperands
      hfreeStatements
    have leaf : ∀ o : Operation, o.target? = none → o.parts = [] → o.operands = [] →
        (n.isValue = true → o.steers = false) →
        Agree opened target (fun o => o.Tame ∧ (n.isValue = true → o.steers = false)) (pure o)
          (pure o) :=
      fun o ho hparts hoperands hsteers =>
        .pure ⟨.of_plain ho (by rw [hparts, hoperands]) (by simp [hparts]), hsteers⟩
    cases n <;> simp only [Node.operands, Node.statements] at operands statements
    all_goals try simp only [lower]
    case chunk e body names =>
      refine .atLine _ (.bind (lowerBlock_agree statements) fun ss hss => .pure ?_)
      exact ⟨.mk rfl (by simp [Operation.operands]) hss, by simp [isValue]⟩
    case assignment e assigned value =>
      obtain ⟨hassigned, hvalue⟩ := forall_mem_pair.1 operands
      refine .atLine _ ?_
      split
      · refine .bind hassigned fun t ht => .bind hvalue fun v hv => .pure ⟨?_, fun _ => rfl⟩
        refine .of_plain rfl rfl (List.forall_mem_append.2 ⟨ht.segments assigned, ?_⟩)
        exact List.forall_mem_singleton.2 hv
      · exact .throw _
    case callStatement e expression =>
      exact .atLine _ ((operands expression List.mem_cons_self).mono fun o ho =>
        ⟨ho.2, fun _ => ho.1⟩)
    case function e name parameters body =>
      refine .atLine _ (.bind (lowerParameters_agree operands) fun ps hps => ?_)
      refine .bind (lowerBlock_agree statements) fun ss hss => .pure ⟨?_, fun _ => rfl⟩
      refine .mk rfl (fun c hc => (hps c hc).1) ?_
      exact List.forall_mem_append.2 ⟨fun c hc => (hps c hc).2, hss⟩
    case returnStatement e argument =>
      cases argument with
      | none =>
        rw [lower]
        exact .atLine _ (leaf _ rfl rfl rfl (by simp [isValue]))
      | some a =>
        rw [lower]
        refine .atLine _ (.bind (operands a (by simp)) fun o ho => .pure ⟨?_, by simp [isValue]⟩)
        exact .of_plain rfl rfl (List.forall_mem_singleton.2 ho)
    case conditional e clauses =>
      refine .atLine _ (.bind (lowerClauses_tame operands statements) fun bs hbs => .pure ?_)
      exact ⟨hbs, by simp [isValue]⟩
    case whileLoop e condition body =>
      refine .atLine _ (.bind (operands condition List.mem_cons_self) fun o ho => ?_)
      refine .bind (lowerBlock_agree statements) fun ss hss => .pure ⟨?_, by simp [isValue]⟩
      exact .mk rfl (List.forall_mem_singleton.2 ho.1) (List.forall_mem_cons.2 ⟨ho.2, hss⟩)
    case forLoop e assigned iterator body =>
      obtain ⟨hassigned, hiterator⟩ := forall_mem_pair.1 operands
      refine .atLine _ ?_
      split
      · refine .bind hassigned fun t ht => .bind hiterator fun i hi => ?_
        refine .bind (lowerBlock_agree statements) fun ss hss => .pure ⟨?_, by simp [isValue]⟩
        have htarget := ht.segments assigned
        refine .mk rfl (List.forall_mem_append.2 ⟨fun c hc => (htarget c hc).1, ?_⟩) ?_
        · exact List.forall_mem_singleton.2 hi.1
        · exact List.forall_mem_append.2 ⟨fun c hc => (htarget c hc).2,
            List.forall_mem_cons.2 ⟨hi.2, hss⟩⟩
      · exact .throw _
    case importStatement e path => cases himport
    case member e origin name =>
      obtain ⟨horigin, hname⟩ := forall_mem_pair.1 operands
      refine .atLine _ (.bind horigin fun o ho => .bind hname fun m hm => .pure ⟨?_, fun _ => rfl⟩)
      refine .of_plain rfl rfl ?_
      rw [Operation.parts, List.flatMap_append]
      exact List.forall_mem_append.2 ⟨ho.segments origin, hm.segments name⟩
    case index e origin key =>
      obtain ⟨horigin, hkey⟩ := forall_mem_pair.1 operands
      refine .atLine _ (.bind horigin fun o ho => .bind hkey fun k hk => .pure ⟨?_, fun _ => rfl⟩)
      refine .of_plain rfl rfl ?_
      rw [Operation.parts, List.flatMap_append]
      exact List.forall_mem_append.2 ⟨ho.segments origin, List.forall_mem_singleton.2 hk⟩
    case call e origin arguments =>
      obtain ⟨horigin, harguments⟩ := List.forall_mem_cons.1 operands
      refine .atLine _ (.bind horigin fun o ho => ?_)
      refine .bind (lowerList_agree harguments) fun os hos => .pure ⟨?_, fun _ => rfl⟩
      exact .of_plain rfl rfl (List.forall_mem_append.2 ⟨ho.segments origin, hos⟩)
    case negation e argument =>
      refine .atLine _ (.bind (operands argument List.mem_cons_self) fun o ho => ?_)
      exact .pure ⟨.of_plain rfl rfl (List.forall_mem_singleton.2 ho), fun _ => rfl⟩
    case signed e operator argument =>
      refine .atLine _ (.bind (operands argument List.mem_cons_self) fun o ho => ?_)
      exact .pure ⟨.of_plain rfl rfl (List.forall_mem_singleton.2 ho), fun _ => rfl⟩
    case unary e operator argument =>
      refine .atLine _ ?_
      split
      · refine .bind (operands argument List.mem_cons_self) fun o ho => ?_
        exact .pure ⟨.of_plain rfl rfl (List.forall_mem_singleton.2 ho), fun _ => rfl⟩
      · exact .throw _
    case binary e operator left right =>
      obtain ⟨hleft, hright⟩ := forall_mem_pair.1 operands
      refine .atLine _ (.bind hleft fun a ha => .bind hright fun b hb => .pure ⟨?_, fun _ => rfl⟩)
      exact .of_plain rfl rfl (forall_mem_pair.2 ⟨ha, hb⟩)
    case logical e operator left right =>
      obtain ⟨hleft, hright⟩ := forall_mem_pair.1 operands
      refine .atLine _ (.bind hleft fun a ha => .bind hright fun b hb => .pure ⟨?_, fun _ => rfl⟩)
      exact .of_plain rfl rfl (forall_mem_pair.2 ⟨ha, hb⟩)
    case mapLiteral e fields =>
      refine .atLine _ (.bind (lowerFields_agree operands) fun es hes => .pure ⟨?_, fun _ => rfl⟩)
      exact .of_plain rfl rfl hes
    case listLiteral e items =>
      refine .atLine _ (.bind (lowerList_agree operands) fun os hos => .pure ⟨?_, fun _ => rfl⟩)
      exact .of_plain rfl rfl hos
    all_goals exact leaf _ rfl rfl rfl (by simp [isValue, Operation.steers])

end Node

/-- A source text is read as a chunk of well-formed statements. -/
theorem parse_eq_chunk {mode : ReadingMode} {source : String} {p : Parsed}
    (h : parse mode source = .ok p) :
    ∃ e body names, p.chunk = .chunk e body names ∧ ∀ n ∈ body, n.WellFormed true := by
  cases ho : Reading.outline (nestingBound (TokenStream.ofSource mode source).tokens.length)
      (Reader.ofTokens mode.lenient (TokenStream.ofSource mode source)) with
  | ok c s =>
    rw [parse_of_outline ho] at h
    cases h
    obtain ⟨⟨_, _, ⟨_, hwf⟩, _⟩, _⟩ := (Reading.outline_built true _).leads (fun _ => rfl) ho
    exact ⟨_, _, _, rfl, hwf⟩
  | error i s =>
    cases i with
    | exhausted =>
      exact absurd ho (Reading.outline_unexhausted (TokenStream.ofSource_sound mode source))
    | sourceError e =>
      rw [parse_of_outline_error ho] at h
      cases h

/-- A source text without imports is lowered to a tame chunk. -/
theorem lowered_tame {mode : ReadingMode} {source target : String} {p : Parsed} {library : Library}
    {o : Operation} {l : Linker} (hparse : parse mode source = .ok p)
    (hfree : p.chunk.ImportFree)
    (hlower : p.chunk.lowerWith library mode (.ofTarget target) = .ok o l) :
    o.Tame ∧ ∃ body, o = .chunk body := by
  obtain ⟨e, body, names, hchunk, hwf⟩ := parse_eq_chunk hparse
  rw [hchunk] at hfree hlower
  have hwhole : (Node.chunk e body names).WellFormed true :=
    .of (fun _ => rfl) (by simp [Node.operands]) hwf rfl
  have hagree := Node.lower_tame
    (f := Lowering.importFile library mode (library.files.length + 1)) _ hwhole hfree
    (.ofTarget target) rfl rfl
  refine ⟨(hagree.2 o l hlower).1.1, ?_⟩
  unfold Node.lowerWith Node.lower Lowering.atLine at hlower
  rw [Lowering.bind_apply] at hlower
  cases hbody : Node.lowerBlock (Lowering.importFile library mode (library.files.length + 1)) body
      (.ofTarget target) with
  | ok ss l' =>
    rw [hbody] at hlower
    cases hlower
    exact ⟨ss, rfl⟩
  | error f l' =>
    rw [hbody] at hlower
    cases hlower

end LineScript
