import LineScript.Operation.Lowering
import LineScript.Proofs.Grammar.Form
import LineScript.Proofs.Resource.Normal
import Mathlib.Data.List.Dedup
import Mathlib.Data.List.Perm.Subperm

/-!
# Lowering ends on every graph of imports

A file that is being imported is not entered again. So every import that is entered opens one more
of the files of the library, and no more imports nest than there are files. Main statement: what
imports become does not depend on what happens behind as many nested imports as there are files, and
on every path down a lowered tree each file is imported at most once.
-/

namespace LineScript

/-- The operations in a segment. -/
def Segment.parts : Segment → List Operation
  | .name _ => []
  | .index key => [key]
  | .root value => [value]

/-- The operation of a statement. -/
def Statement.operation : Statement → Operation
  | .mk operation _ => operation

/-- The operations in a branch: its condition and its statements. -/
def Branch.parts : Branch → List Operation
  | .mk condition body => condition :: body.map Statement.operation

namespace Operation

/-- The operations right below an operation. -/
def parts : Operation → List Operation
  | .resolve chain => chain.flatMap Segment.parts
  | .assign target value => target.flatMap Segment.parts ++ [value]
  | .call callee arguments => callee.flatMap Segment.parts ++ arguments
  | .function d => d.parameters.flatMap (·.default.toList) ++ d.body.map Statement.operation
  | .chunk body => body.map Statement.operation
  | .conditional branches => branches.flatMap Branch.parts
  | .whileLoop condition body => condition :: body.map Statement.operation
  | .forLoop target iterator body =>
    target.flatMap Segment.parts ++ iterator :: body.map Statement.operation
  | .returnFrom argument => argument.toList
  | .evaluate _ left right => [left, right]
  | .negate argument => [argument]
  | .signed _ argument => [argument]
  | .instantiate argument => [argument]
  | .map entries => entries.map (·.2)
  | .list items => items
  | .imported _ body => [body]
  | _ => []

/-- The file that an operation imports. -/
def target? : Operation → Option String
  | .imported target _ => some target
  | _ => none

/-- A path down a tree of operations, from its root. -/
inductive Path : Operation → List Operation → Prop where
  | here (o : Operation) : Path o [o]
  | down {o c : Operation} {path : List Operation} (part : c ∈ o.parts) (rest : Path c path) :
      Path o (o :: path)

end Operation

/-- The files imported along a path, if they are as they should be: each of them once, none that was
opened before, all under the normal forms of files of the library. -/
structure Nested (library : Library) (opened targets : List String) : Prop where
  distinct : targets.Nodup
  fresh : ∀ t ∈ targets, t ∉ opened
  normal : ∀ t ∈ targets, FilePath.normalize t = t
  found : ∀ t ∈ targets, (library.find? t).isSome = true

/-- Along every path down a tree imports nest as they should. -/
def Operation.Fresh (library : Library) (opened : List String) (o : Operation) : Prop :=
  ∀ path, o.Path path → Nested library opened (path.filterMap Operation.target?)

namespace Library

theorem mem_keys_of_find? {l : Library} {key : String} (h : (l.find? key).isSome = true) :
    key ∈ l.files.map (·.1) := by
  simp only [find?, Option.isSome_map, List.find?_isSome, beq_iff_eq] at h
  obtain ⟨f, hf, rfl⟩ := h
  exact List.mem_map_of_mem hf

end Library

namespace Nested

variable {library : Library} {opened targets : List String} {t : String}

theorem nil : Nested library opened [] := ⟨by simp, by simp, by simp, by simp⟩

/-- An import in front of others, none of which imports its file again. -/
theorem cons (h : Nested library (t :: opened) targets) (hfresh : t ∉ opened)
    (hnormal : FilePath.normalize t = t) (hfound : (library.find? t).isSome = true) :
    Nested library opened (t :: targets) where
  distinct := by
    apply List.nodup_cons.2
    constructor
    · intro ht
      exact h.fresh t ht List.mem_cons_self
    · exact h.distinct
  fresh := by
    intro u hu
    rcases List.mem_cons.1 hu with rfl | hu
    · exact hfresh
    · exact fun hopen => h.fresh u hu (List.mem_cons_of_mem _ hopen)
  normal := by
    intro u hu
    rcases List.mem_cons.1 hu with rfl | hu
    · exact hnormal
    · exact h.normal u hu
  found := by
    intro u hu
    rcases List.mem_cons.1 hu with rfl | hu
    · exact hfound
    · exact h.found u hu

theorem tail (h : Nested library opened (t :: targets)) : Nested library opened targets where
  distinct := (List.nodup_cons.1 h.distinct).2
  fresh u hu := h.fresh u (List.mem_cons_of_mem _ hu)
  normal u hu := h.normal u (List.mem_cons_of_mem _ hu)
  found u hu := h.found u (List.mem_cons_of_mem _ hu)

/-- No more imports nest than there are files. -/
theorem length_le (h : Nested library opened targets) :
    targets.length ≤ library.files.length := by
  have hsub : targets ⊆ library.files.map (·.1) :=
    fun t ht => Library.mem_keys_of_find? (h.found t ht)
  have hle := (h.distinct.subperm hsub).length_le
  simpa using hle

end Nested

namespace Operation.Fresh

variable {library : Library} {opened : List String} {o : Operation}

/-- An operation that imports nothing itself adds nothing to what its parts import. -/
theorem of_parts (ho : o.target? = none) (h : ∀ c ∈ o.parts, c.Fresh library opened) :
    o.Fresh library opened := by
  intro path hpath
  cases hpath with
  | here =>
    simp only [List.filterMap_cons, ho, List.filterMap_nil]
    exact .nil
  | down part rest =>
    simp only [List.filterMap_cons, ho]
    exact h _ part _ rest

theorem part {c : Operation} (h : o.Fresh library opened) (hc : c ∈ o.parts) :
    c.Fresh library opened := by
  intro path hpath
  have hnested := h (o :: path) (.down hc hpath)
  rw [List.filterMap_cons] at hnested
  split at hnested
  · exact hnested
  · exact hnested.tail

/-- An imported file in whose tree nothing imports it again. -/
theorem imported {t : String} (h : o.Fresh library (t :: opened)) (hfresh : t ∉ opened)
    (hnormal : FilePath.normalize t = t) (hfound : (library.find? t).isSome = true) :
    (Operation.imported t o).Fresh library opened := by
  intro path hpath
  cases hpath with
  | here => exact .cons .nil hfresh hnormal hfound
  | down part rest =>
    obtain rfl := List.mem_singleton.1 part
    exact .cons (h _ rest) hfresh hnormal hfound

end Operation.Fresh

namespace Lowering

variable {α β : Type}

/-- Two steps of lowering do the same while the given files are opened, leave those as they are, and
give results for which `V` holds. -/
def Agree (opened : List String) (target : String) (V : α → Prop) (x y : Lowering α) : Prop :=
  ∀ l : Linker, l.opened = opened → l.target = target →
    x l = y l ∧ ∀ a l', x l = .ok a l' → V a ∧ l'.opened = opened ∧ l'.target = target

theorem bind_apply (x : Lowering α) (k : α → Lowering β) (l : Linker) :
    (x >>= k) l = match x l with
      | .ok a l' => k a l'
      | .error e l' => .error e l' := by
  change EStateM.bind x k l = _
  unfold EStateM.bind
  cases x l <;> rfl

namespace Agree

variable {opened : List String} {target : String} {V : α → Prop} {W : β → Prop}

theorem pure {a : α} (h : V a) : Agree opened target V (pure a) (pure a) := by
  intro l hopened htarget
  refine ⟨rfl, ?_⟩
  intro b l' hb
  cases hb
  exact ⟨h, hopened, htarget⟩

theorem throw (e : ScriptError) :
    Agree opened target V (throw e : Lowering α) (throw e : Lowering α) := by
  intro l _ _
  refine ⟨rfl, ?_⟩
  intro b l' hb
  cases hb

theorem bind {x y : Lowering α} {f g : α → Lowering β} (hxy : Agree opened target V x y)
    (hfg : ∀ a, V a → Agree opened target W (f a) (g a)) :
    Agree opened target W (x >>= f) (y >>= g) := by
  intro l hopened htarget
  obtain ⟨heq, hok⟩ := hxy l hopened htarget
  rw [bind_apply, bind_apply, ← heq]
  cases hx : x l with
  | ok a l' =>
    obtain ⟨ha, hopened', htarget'⟩ := hok a l' hx
    exact hfg a ha l' hopened' htarget'
  | error e l' =>
    refine ⟨rfl, ?_⟩
    intro b l' hb
    cases hb

/-- A look at the state, which what follows may go by. -/
theorem get {f g : Linker → Lowering β}
    (h : ∀ l : Linker, l.opened = opened → l.target = target →
      Agree opened target W (f l) (g l)) :
    Agree opened target W (MonadState.get >>= f) (MonadState.get >>= g) :=
  fun l hopened htarget => h l hopened htarget l hopened htarget

/-- A change to the state that keeps the opened files. -/
theorem modify {V : PUnit → Prop} (hV : V ⟨⟩) {change : Linker → Linker}
    (h : ∀ l, (change l).opened = l.opened ∧ (change l).target = l.target) :
    Agree opened target V (modify change : Lowering PUnit) (modify change : Lowering PUnit) := by
  intro l hopened htarget
  refine ⟨rfl, ?_⟩
  intro a l' ha
  cases ha
  exact ⟨hV, (h l).1.trans hopened, (h l).2.trans htarget⟩

theorem atLine {x y : Lowering α} (line : Nat) (h : Agree opened target V x y) :
    Agree opened target V (atLine line x) (Lowering.atLine line y) := by
  intro l hopened htarget
  obtain ⟨heq, hok⟩ := h l hopened htarget
  unfold Lowering.atLine
  rw [← heq]
  cases hx : x l with
  | ok a l' =>
    refine ⟨rfl, ?_⟩
    intro b l'' hb
    cases hb
    exact hok a l' hx
  | error e l' =>
    refine ⟨rfl, ?_⟩
    intro b l'' hb
    cases hb

/-- The nodes of an imported file are lowered with one more file opened. -/
theorem within {x y : Lowering α} {inner : String} (h : Agree (inner :: opened) inner V x y) :
    Agree opened target V (within inner x) (Lowering.within inner y) := by
  intro l hopened htarget
  obtain ⟨heq, hok⟩ := h (l.enter inner) (by rw [← hopened]; rfl) rfl
  unfold Lowering.within
  rw [← heq]
  cases hx : x (l.enter inner) with
  | ok a l' =>
    refine ⟨rfl, ?_⟩
    intro b l'' hb
    cases hb
    obtain ⟨ha, hopened', _⟩ := hok a l' hx
    refine ⟨ha, ?_, htarget⟩
    simp [Linker.leave, hopened']
  | error e l' =>
    refine ⟨rfl, ?_⟩
    intro b l'' hb
    cases hb

end Agree

end Lowering

/-- A property of operations that goes from all parts of an operation which imports nothing itself
to the operation, and back. -/
structure Closed (P : Operation → Prop) : Prop where
  of_parts : ∀ o : Operation, o.target? = none → (∀ c ∈ o.parts, P c) → P o
  part : ∀ o c : Operation, P o → c ∈ o.parts → P c

namespace Closed

variable {P : Operation → Prop}

theorem fresh (library : Library) (opened : List String) : Closed (·.Fresh library opened) :=
  ⟨fun _ ho h => .of_parts ho h, fun _ _ h hc => h.part hc⟩

/-- The segments of a node that was lowered hold nothing new. -/
theorem segments (hP : Closed P) (n : Node) {o : Operation} (ho : P o) :
    ∀ c ∈ (n.segments o).flatMap Segment.parts, P c := by
  intro c hc
  unfold Node.segments at hc
  split at hc
  · exact hP.part _ c ho hc
  · have hco := List.mem_singleton.1 (show c ∈ [_] from hc)
    exact hco ▸ ho

end Closed

namespace Node

open Lowering (Agree)

variable {P : Operation → Prop} {opened : List String} {target : String}
  {f g : String → Lowering Operation}

theorem forall_mem_pair {α : Type} {Q : α → Prop} {a b : α} :
    (∀ x ∈ [a, b], Q x) ↔ Q a ∧ Q b := by
  simp

theorem lowerList_agree {ns : List Node}
    (h : ∀ n ∈ ns, Agree opened target P (n.lower f) (n.lower g)) :
    Agree opened target (fun os => ∀ o ∈ os, P o) (lowerList f ns) (lowerList g ns) := by
  induction ns with
  | nil =>
    rw [lowerList, lowerList]
    exact .pure (by simp)
  | cons n ns ih =>
    rw [lowerList, lowerList]
    refine .bind (h n List.mem_cons_self) fun o ho => ?_
    refine .bind (ih fun m hm => h m (List.mem_cons_of_mem _ hm)) fun os hos => ?_
    exact .pure (List.forall_mem_cons.2 ⟨ho, hos⟩)

theorem lowerBlock_agree {ns : List Node}
    (h : ∀ n ∈ ns, Agree opened target P (n.lower f) (n.lower g)) :
    Agree opened target (fun ss => ∀ o ∈ ss.map Statement.operation, P o) (lowerBlock f ns)
      (lowerBlock g ns) := by
  induction ns with
  | nil =>
    rw [lowerBlock, lowerBlock]
    exact .pure (by simp)
  | cons n ns ih =>
    rw [lowerBlock, lowerBlock]
    refine .bind (h n List.mem_cons_self) fun o ho => ?_
    refine .bind (ih fun m hm => h m (List.mem_cons_of_mem _ hm)) fun ss hss => ?_
    exact .pure (List.forall_mem_cons.2 ⟨ho, hss⟩)

theorem lowerParameters_agree {ps : List Parameter}
    (h : ∀ n ∈ ps.flatMap (·.default.toList), Agree opened target P (n.lower f) (n.lower g)) :
    Agree opened target (fun fs => ∀ o ∈ fs.flatMap (·.default.toList), P o)
      (lowerParameters f ps) (lowerParameters g ps) := by
  induction ps with
  | nil =>
    rw [lowerParameters, lowerParameters]
    exact .pure (by simp)
  | cons p ps ih =>
    have hps := ih fun n hn => h n (by simp_all)
    cases p with
    | mk e name default =>
      cases default with
      | none =>
        rw [lowerParameters, lowerParameters]
        exact .bind hps fun fs hfs => .pure hfs
      | some d =>
        rw [lowerParameters, lowerParameters]
        refine .bind (h d (by simp [Parameter.default])) fun o ho => .bind hps fun fs hfs => ?_
        exact .pure (List.forall_mem_cons.2 ⟨ho, hfs⟩)

theorem lowerClauses_agree (hP : Closed P) {cs : List Clause}
    (hconditions : ∀ n ∈ cs.flatMap (·.condition.toList),
      Agree opened target P (n.lower f) (n.lower g))
    (hbodies : ∀ n ∈ cs.flatMap (·.body), Agree opened target P (n.lower f) (n.lower g)) :
    Agree opened target (fun bs => ∀ o ∈ bs.flatMap Branch.parts, P o) (lowerClauses f cs)
      (lowerClauses g cs) := by
  induction cs with
  | nil =>
    rw [lowerClauses, lowerClauses]
    exact .pure (by simp)
  | cons c cs ih =>
    have hcs := ih (fun n hn => hconditions n (by simp_all)) fun n hn => hbodies n (by simp_all)
    cases c with
    | mk e kind condition body =>
      have hbody : Agree opened target (fun ss => ∀ o ∈ ss.map Statement.operation, P o)
          (lowerBlock f body) (lowerBlock g body) :=
        lowerBlock_agree fun n hn => hbodies n (by simp [Clause.body, hn])
      cases condition with
      | none =>
        rw [lowerClauses, lowerClauses]
        refine .bind hbody fun ss hss => .bind hcs fun bs hbs => .pure ?_
        have htrue : P (.constant true) := hP.of_parts _ rfl (by simp [Operation.parts])
        exact List.forall_mem_append.2 ⟨List.forall_mem_cons.2 ⟨htrue, hss⟩, hbs⟩
      | some n =>
        rw [lowerClauses, lowerClauses]
        refine .bind (hconditions n (by simp [Clause.condition])) fun o ho => ?_
        refine .bind hbody fun ss hss => .bind hcs fun bs hbs => .pure ?_
        exact List.forall_mem_append.2 ⟨List.forall_mem_cons.2 ⟨ho, hss⟩, hbs⟩

theorem lowerFields_agree {fs : List Field}
    (h : ∀ n ∈ fs.map (·.value), Agree opened target P (n.lower f) (n.lower g)) :
    Agree opened target (fun es => ∀ o ∈ es.map (·.2), P o) (lowerFields f fs)
      (lowerFields g fs) := by
  induction fs with
  | nil =>
    rw [lowerFields, lowerFields]
    exact .pure (by simp)
  | cons c fs ih =>
    have hfs := ih fun n hn => h n (by simp_all)
    cases c with
    | mk e key value =>
      rw [lowerFields, lowerFields]
      refine .bind (h value (by simp [Field.value])) fun o ho => .bind hfs fun es hes => ?_
      exact .pure (List.forall_mem_cons.2 ⟨ho, hes⟩)

/-- Where two ways to import agree, lowering a node agrees. -/
theorem lower_agree (hP : Closed P) (h : ∀ path, Agree opened target P (f path) (g path))
    (n : Node) : Agree opened target P (n.lower f) (n.lower g) := by
  induction n using Node.induction with
  | step n operands statements =>
    have leaf : ∀ o : Operation, o.target? = none → o.parts = [] →
        Agree opened target P (pure o) (pure o) :=
      fun o ho hparts => .pure (hP.of_parts o ho (by simp [hparts]))
    cases n <;> simp only [Node.operands, Node.statements] at operands statements
    all_goals try simp only [lower]
    case chunk e body names =>
      refine .atLine _ (.bind (lowerBlock_agree statements) fun ss hss => .pure ?_)
      exact hP.of_parts _ rfl hss
    case assignment e assigned value =>
      obtain ⟨hassigned, hvalue⟩ := forall_mem_pair.1 operands
      refine .atLine _ ?_
      split
      · refine .bind hassigned fun t ht => .bind hvalue fun v hv => .pure ?_
        refine hP.of_parts _ rfl (List.forall_mem_append.2 ⟨hP.segments assigned ht, ?_⟩)
        exact List.forall_mem_singleton.2 hv
      · exact .throw _
    case callStatement e expression =>
      exact .atLine _ (operands expression List.mem_cons_self)
    case function e name parameters body =>
      refine .atLine _ (.bind (lowerParameters_agree operands) fun ps hps => ?_)
      refine .bind (lowerBlock_agree statements) fun ss hss => .pure ?_
      exact hP.of_parts _ rfl (List.forall_mem_append.2 ⟨hps, hss⟩)
    case returnStatement e argument =>
      cases argument with
      | none =>
        rw [lower, lower]
        exact .atLine _ (leaf _ rfl rfl)
      | some a =>
        rw [lower, lower]
        refine .atLine _ ?_
        refine .bind (operands a (by simp)) fun o ho => .pure ?_
        exact hP.of_parts _ rfl (List.forall_mem_singleton.2 ho)
    case conditional e clauses =>
      refine .atLine _ (.bind (lowerClauses_agree hP operands statements) fun bs hbs => .pure ?_)
      exact hP.of_parts _ rfl hbs
    case whileLoop e condition body =>
      refine .atLine _ (.bind (operands condition List.mem_cons_self) fun o ho => ?_)
      refine .bind (lowerBlock_agree statements) fun ss hss => .pure ?_
      exact hP.of_parts _ rfl (List.forall_mem_cons.2 ⟨ho, hss⟩)
    case forLoop e assigned iterator body =>
      obtain ⟨hassigned, hiterator⟩ := forall_mem_pair.1 operands
      refine .atLine _ ?_
      split
      · refine .bind hassigned fun t ht => .bind hiterator fun i hi => ?_
        refine .bind (lowerBlock_agree statements) fun ss hss => .pure ?_
        refine hP.of_parts _ rfl (List.forall_mem_append.2 ⟨hP.segments assigned ht, ?_⟩)
        exact List.forall_mem_cons.2 ⟨hi, hss⟩
      · exact .throw _
    case importStatement e path => exact .atLine _ (h path)
    case member e origin name =>
      obtain ⟨horigin, hname⟩ := forall_mem_pair.1 operands
      refine .atLine _ (.bind horigin fun o ho => .bind hname fun m hm => .pure ?_)
      refine hP.of_parts _ rfl ?_
      rw [Operation.parts, List.flatMap_append]
      exact List.forall_mem_append.2 ⟨hP.segments origin ho, hP.segments name hm⟩
    case index e origin key =>
      obtain ⟨horigin, hkey⟩ := forall_mem_pair.1 operands
      refine .atLine _ (.bind horigin fun o ho => .bind hkey fun k hk => .pure ?_)
      refine hP.of_parts _ rfl ?_
      rw [Operation.parts, List.flatMap_append]
      exact List.forall_mem_append.2 ⟨hP.segments origin ho, List.forall_mem_singleton.2 hk⟩
    case call e origin arguments =>
      obtain ⟨horigin, harguments⟩ := List.forall_mem_cons.1 operands
      refine .atLine _ (.bind horigin fun o ho => ?_)
      refine .bind (lowerList_agree harguments) fun os hos => .pure ?_
      exact hP.of_parts _ rfl (List.forall_mem_append.2 ⟨hP.segments origin ho, hos⟩)
    case negation e argument =>
      refine .atLine _ (.bind (operands argument List.mem_cons_self) fun o ho => .pure ?_)
      exact hP.of_parts _ rfl (List.forall_mem_singleton.2 ho)
    case signed e operator argument =>
      refine .atLine _ (.bind (operands argument List.mem_cons_self) fun o ho => .pure ?_)
      exact hP.of_parts _ rfl (List.forall_mem_singleton.2 ho)
    case unary e operator argument =>
      refine .atLine _ ?_
      split
      · refine .bind (operands argument List.mem_cons_self) fun o ho => .pure ?_
        exact hP.of_parts _ rfl (List.forall_mem_singleton.2 ho)
      · exact .throw _
    case binary e operator left right =>
      obtain ⟨hleft, hright⟩ := forall_mem_pair.1 operands
      refine .atLine _ (.bind hleft fun a ha => .bind hright fun b hb => .pure ?_)
      exact hP.of_parts _ rfl (forall_mem_pair.2 ⟨ha, hb⟩)
    case logical e operator left right =>
      obtain ⟨hleft, hright⟩ := forall_mem_pair.1 operands
      refine .atLine _ (.bind hleft fun a ha => .bind hright fun b hb => .pure ?_)
      exact hP.of_parts _ rfl (forall_mem_pair.2 ⟨ha, hb⟩)
    case mapLiteral e fields =>
      refine .atLine _ (.bind (lowerFields_agree operands) fun es hes => .pure ?_)
      exact hP.of_parts _ rfl hes
    case listLiteral e items =>
      refine .atLine _ (.bind (lowerList_agree operands) fun os hos => .pure ?_)
      exact hP.of_parts _ rfl hos
    all_goals exact leaf _ rfl rfl

end Node

namespace Library

/-- The files that are not opened. -/
def unopened (l : Library) (opened : List String) : List (String × String) :=
  l.files.filter fun f => !opened.contains f.1

/-- Opening one more file leaves fewer. -/
theorem unopened_cons {l : Library} {opened : List String} {key : String}
    (hfound : (l.find? key).isSome = true) (hfresh : key ∉ opened) :
    (l.unopened (key :: opened)).length < (l.unopened opened).length := by
  have hmem := mem_keys_of_find? hfound
  obtain ⟨f, hf, rfl⟩ := List.mem_map.1 hmem
  have hsub : l.unopened (f.1 :: opened) = (l.unopened opened).filter fun g => g.1 != f.1 := by
    unfold unopened
    rw [List.filter_filter]
    congr 1
    funext g
    simp [bne, beq_eq_decide]
  rw [hsub]
  apply List.length_filter_lt_length_iff_exists.2
  exact ⟨f, by simp [unopened, hf, hfresh], by simp⟩

theorem unopened_length_le (l : Library) (opened : List String) :
    (l.unopened opened).length ≤ l.files.length :=
  List.length_filter_le _ _

end Library

namespace Lowering

variable {library : Library} {mode : ReadingMode} {opened : List String} {target : String}

/-- Imports that nest up to a number of times, with anything at all in the place of those below. -/
def importNested (library : Library) (mode : ReadingMode) (below : String → Lowering Operation) :
    Nat → String → Lowering Operation
  | 0 => below
  | k + 1 => importStep library mode (importNested library mode below k)

theorem importFile_eq (n : Nat) :
    importFile library mode n = importNested library mode (fun _ => return .noop) n := by
  induction n with
  | zero => rfl
  | succ n ih =>
    funext path
    rw [importFile, importNested, ih]

/-- Two ways to import agree if they agree in every file that can be entered. -/
theorem importStep_agree {f g : String → Lowering Operation}
    (h : ∀ key, (library.find? key).isSome = true → key ∉ opened → ∀ path,
      Agree (key :: opened) key (·.Fresh library (key :: opened)) (f path) (g path))
    (path : String) :
    Agree opened target (·.Fresh library opened) (importStep library mode f path)
      (importStep library mode g path) := by
  refine .get fun l hopened htarget => ?_
  rw [hopened, htarget]
  cases hkey : library.resolve? target path with
  | none => exact .throw _
  | some key =>
    obtain ⟨hnormal, hfound⟩ := Library.resolve?_eq_some hkey
    dsimp only
    split
    · exact .pure ((Closed.fresh library opened).of_parts _ rfl (by simp [Operation.parts]))
    next hfresh =>
      have hfresh : key ∉ opened := by simpa using hfresh
      split
      · exact .throw _
      · split
        · exact .throw _
        · refine .bind (.modify (V := fun _ => True) trivial fun _ => ⟨rfl, rfl⟩) fun _ _ => ?_
          have hlower := Node.lower_agree (Closed.fresh library (key :: opened))
            (h key hfound hfresh)
          exact .bind (.within (hlower _)) fun o ho => .pure (ho.imported hfresh hnormal hfound)

/-- While fewer files are unopened than imports may nest, nothing depends on the imports below, and
what becomes of an import is fresh. -/
theorem importNested_agree (below below' : String → Lowering Operation) {n k : Nat}
    (hn : (library.unopened opened).length < n) (hk : (library.unopened opened).length < k)
    (path : String) :
    Agree opened target (·.Fresh library opened) (importNested library mode below n path)
      (importNested library mode below' k path) := by
  induction n generalizing k opened target path with
  | zero => omega
  | succ n ih =>
    cases k with
    | zero => omega
    | succ k =>
      refine importStep_agree (fun key hfound hfresh path => ?_) path
      have hlt := Library.unopened_cons hfound hfresh
      exact ih (by omega) (by omega) path

end Lowering

/-- Lowering a node of a file ends on every graph of imports. What it gives does not depend on what
becomes of imports that nest more deeply than there are files, and on every path down the tree that
it gives, the imported files are pairwise distinct, none of them is the file itself, and all are
files of the library under their normal forms. -/
theorem Node.lowerWith_imports (library : Library) (mode : ReadingMode) (target : String)
    (n : Node) :
    (∀ (below : String → Lowering Operation) (k : Nat), library.files.length < k →
      n.lower (Lowering.importNested library mode below k) (.ofTarget target) =
        n.lowerWith library mode (.ofTarget target)) ∧
    ∀ o l, n.lowerWith library mode (.ofTarget target) = .ok o l → ∀ path, o.Path path →
      Nested library [target] (path.filterMap Operation.target?) ∧
        (path.filterMap Operation.target?).length ≤ library.files.length := by
  have hle := library.unopened_length_le [target]
  have hagree : ∀ (below : String → Lowering Operation) (k : Nat), library.files.length < k →
      Lowering.Agree [target] target (·.Fresh library [target]) (n.lowerWith library mode)
        (n.lower (Lowering.importNested library mode below k)) := by
    intro below k hk
    unfold lowerWith
    rw [Lowering.importFile_eq]
    refine lower_agree (Closed.fresh library [target]) (fun path => ?_) n
    exact Lowering.importNested_agree _ below (by omega) (by omega) path
  constructor
  · intro below k hk
    exact ((hagree below k hk) (.ofTarget target) rfl rfl).1.symm
  · intro o l ho path hpath
    have hfresh := (hagree (fun _ => return .noop) _ (Nat.lt_succ_self _) (.ofTarget target) rfl
      rfl).2 o l ho
    have hnested := hfresh.1 path hpath
    exact ⟨hnested, hnested.length_le⟩

end LineScript
