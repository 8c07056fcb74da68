import LineScript.Grammar.Parser
import LineScript.Proofs.Grammar.Form
import Mathlib.Data.List.Basic

/-!
# Trees at other places

The same text reads to the same tree wherever it stands; only the positions differ. Relocation maps
every position of a tree, and a placement is a relocation of tokens that keeps lines apart, so that
no reading can tell the relocated tokens from the first ones.
-/

namespace LineScript

/-- An extent with both ends mapped. -/
def Extent.relocate (g : Position → Position) (e : Extent) : Extent := ⟨g e.start, g e.stop⟩

namespace Node

mutual

/-- A tree with all its positions mapped. -/
def relocate (g : Position → Position) : Node → Node
  | .chunk e body names => .chunk (e.relocate g) (relocateAll g body) names
  | .assignment e target value => .assignment (e.relocate g) (relocate g target) (relocate g value)
  | .callStatement e expression => .callStatement (e.relocate g) (relocate g expression)
  | .function e name parameters body =>
    .function (e.relocate g) name (relocateParameters g parameters) (relocateAll g body)
  | .returnStatement e argument => .returnStatement (e.relocate g) (relocateOption g argument)
  | .conditional e clauses => .conditional (e.relocate g) (relocateClauses g clauses)
  | .whileLoop e condition body =>
    .whileLoop (e.relocate g) (relocate g condition) (relocateAll g body)
  | .forLoop e target iterator body =>
    .forLoop (e.relocate g) (relocate g target) (relocate g iterator) (relocateAll g body)
  | .breakStatement e => .breakStatement (e.relocate g)
  | .continueStatement e => .continueStatement (e.relocate g)
  | .debuggerStatement e => .debuggerStatement (e.relocate g)
  | .importStatement e path => .importStatement (e.relocate g) path
  | .identifier e name => .identifier (e.relocate g) name
  | .literal e value raw => .literal (e.relocate g) value raw
  | .member e origin name => .member (e.relocate g) (relocate g origin) (relocate g name)
  | .index e origin key => .index (e.relocate g) (relocate g origin) (relocate g key)
  | .call e origin arguments =>
    .call (e.relocate g) (relocate g origin) (relocateAll g arguments)
  | .negation e argument => .negation (e.relocate g) (relocate g argument)
  | .signed e operator argument => .signed (e.relocate g) operator (relocate g argument)
  | .unary e operator argument => .unary (e.relocate g) operator (relocate g argument)
  | .binary e operator left right =>
    .binary (e.relocate g) operator (relocate g left) (relocate g right)
  | .logical e operator left right =>
    .logical (e.relocate g) operator (relocate g left) (relocate g right)
  | .mapLiteral e fields => .mapLiteral (e.relocate g) (relocateFields g fields)
  | .listLiteral e items => .listLiteral (e.relocate g) (relocateAll g items)
  | .empty e => .empty (e.relocate g)
  | .invalid e => .invalid (e.relocate g)

/-- An optional tree with all its positions mapped. -/
def relocateOption (g : Position → Position) : Option Node → Option Node
  | none => none
  | some n => some (relocate g n)

/-- Trees with all their positions mapped. -/
def relocateAll (g : Position → Position) : List Node → List Node
  | [] => []
  | n :: ns => relocate g n :: relocateAll g ns

/-- Parameters with all their positions mapped. -/
def relocateParameters (g : Position → Position) : List Parameter → List Parameter
  | [] => []
  | .mk e name default :: ps =>
    .mk (e.relocate g) name (relocateOption g default) :: relocateParameters g ps

/-- Clauses with all their positions mapped. -/
def relocateClauses (g : Position → Position) : List Clause → List Clause
  | [] => []
  | .mk e kind condition body :: cs =>
    .mk (e.relocate g) kind (relocateOption g condition) (relocateAll g body) ::
      relocateClauses g cs

/-- Fields with all their positions mapped. -/
def relocateFields (g : Position → Position) : List Field → List Field
  | [] => []
  | .mk e key value :: fs => .mk (e.relocate g) key (relocate g value) :: relocateFields g fs

end

end Node

/-- A parameter with all its positions mapped. -/
def Parameter.relocate (g : Position → Position) : Parameter → Parameter
  | .mk e name default => .mk (e.relocate g) name (default.map (Node.relocate g))

/-- A clause with all its positions mapped. -/
def Clause.relocate (g : Position → Position) : Clause → Clause
  | .mk e kind condition body =>
    .mk (e.relocate g) kind (condition.map (Node.relocate g)) (body.map (Node.relocate g))

/-- A field with all its positions mapped. -/
def Field.relocate (g : Position → Position) : Field → Field
  | .mk e key value => .mk (e.relocate g) key (value.relocate g)

namespace Node

variable (f g : Position → Position)

@[simp] theorem relocateOption_eq_map (n : Option Node) :
    relocateOption g n = n.map (relocate g) := by
  cases n <;> rfl

@[simp] theorem relocateAll_eq_map (ns : List Node) : relocateAll g ns = ns.map (relocate g) := by
  induction ns with
  | nil => rfl
  | cons n ns ih => rw [relocateAll, ih, List.map_cons]

@[simp] theorem relocateParameters_eq_map (ps : List Parameter) :
    relocateParameters g ps = ps.map (Parameter.relocate g) := by
  induction ps with
  | nil => rfl
  | cons p ps ih =>
    cases p with
    | mk e name default =>
      rw [relocateParameters, ih, relocateOption_eq_map, List.map_cons, Parameter.relocate]

@[simp] theorem relocateClauses_eq_map (cs : List Clause) :
    relocateClauses g cs = cs.map (Clause.relocate g) := by
  induction cs with
  | nil => rfl
  | cons c cs ih =>
    cases c with
    | mk e kind condition body =>
      rw [relocateClauses, ih, relocateOption_eq_map, relocateAll_eq_map, List.map_cons,
        Clause.relocate]

@[simp] theorem relocateFields_eq_map (fs : List Field) :
    relocateFields g fs = fs.map (Field.relocate g) := by
  induction fs with
  | nil => rfl
  | cons d fs ih =>
    cases d with
    | mk e key value => rw [relocateFields, ih, List.map_cons, Field.relocate]

@[simp] theorem extent_relocate (n : Node) : (n.relocate g).extent = n.extent.relocate g := by
  cases n <;> rfl

@[simp] theorem start_relocate (n : Node) : (n.relocate g).start = g n.start := by
  simp [start, Extent.relocate]

@[simp] theorem isValue_relocate (n : Node) : (n.relocate g).isValue = n.isValue := by
  cases n <;> rfl

@[simp] theorem isStatementNode_relocate (n : Node) :
    Reading.isStatementNode (n.relocate g) = Reading.isStatementNode n := by
  cases n <;> rfl

theorem unaryNode_relocate (e : Extent) (o : UnaryOperator) (n : Node) :
    Reading.unaryNode (e.relocate g) o (n.relocate g) = (Reading.unaryNode e o n).relocate g := by
  cases o <;> rfl

theorem binaryNode_relocate (e : Extent) (o : BinaryOperator) (a b : Node) :
    Reading.binaryNode (e.relocate g) o (a.relocate g) (b.relocate g) =
      (Reading.binaryNode e o a b).relocate g := by
  cases o <;> rfl

end Node

theorem Parameter.relocate_id {p : Parameter}
    (h : ∀ c, p.default = some c → c.relocate id = c) : p.relocate id = p := by
  cases p with
  | mk e name default =>
    cases default with
    | none => rfl
    | some c => simp only [Parameter.relocate, Option.map_some, h c rfl, Extent.relocate, id]

theorem Clause.relocate_id {k : Clause} (hc : ∀ c, k.condition = some c → c.relocate id = c)
    (hb : ∀ c ∈ k.body, c.relocate id = c) : k.relocate id = k := by
  cases k with
  | mk e kind condition body =>
    have hbody : body.map (Node.relocate id) = body := by
      simp only [Clause.body] at hb
      rw [List.map_congr_left (g := id) hb, List.map_id]
    cases condition with
    | none => simp only [Clause.relocate, Option.map_none, hbody, Extent.relocate, id]
    | some c => simp only [Clause.relocate, Option.map_some, hbody, hc c rfl, Extent.relocate, id]

theorem Parameter.relocate_relocate {f g : Position → Position} {p : Parameter}
    (h : ∀ c, p.default = some c → (c.relocate g).relocate f = c.relocate (f ∘ g)) :
    (p.relocate g).relocate f = p.relocate (f ∘ g) := by
  cases p with
  | mk e name default =>
    cases default with
    | none => rfl
    | some c => simp only [Parameter.relocate, Option.map_some, h c rfl, Extent.relocate,
        Function.comp_apply]

theorem Clause.relocate_relocate {f g : Position → Position} {k : Clause}
    (hc : ∀ c, k.condition = some c → (c.relocate g).relocate f = c.relocate (f ∘ g))
    (hb : ∀ c ∈ k.body, (c.relocate g).relocate f = c.relocate (f ∘ g)) :
    (k.relocate g).relocate f = k.relocate (f ∘ g) := by
  cases k with
  | mk e kind condition body =>
    have hbody : (body.map (Node.relocate g)).map (Node.relocate f) =
        body.map (Node.relocate (f ∘ g)) := by
      rw [List.map_map]
      exact List.map_congr_left hb
    cases condition with
    | none =>
      simp only [Clause.relocate, Option.map_none, hbody, Extent.relocate, Function.comp_apply]
    | some c =>
      simp only [Clause.relocate, Option.map_some, hbody, hc c rfl, Extent.relocate,
        Function.comp_apply]

namespace Node

/-- Mapping every position to itself changes nothing. -/
theorem relocate_id (n : Node) : n.relocate id = n := by
  induction n using Node.induction with
  | step n ihO ihS =>
    have list : ∀ ns : List Node, (∀ c ∈ ns, c.relocate id = c) → ns.map (relocate id) = ns := by
      intro ns h
      rw [List.map_congr_left (g := id) h, List.map_id]
    cases n with
    | function e name ps body =>
      have hps : ps.map (Parameter.relocate id) = ps := by
        rw [List.map_congr_left (g := id), List.map_id]
        intro p hp
        refine Parameter.relocate_id fun c hc => ihO c ?_
        exact List.mem_flatMap.2 ⟨p, hp, Option.mem_toList.2 hc⟩
      simp only [relocate, relocateParameters_eq_map, relocateAll_eq_map, hps, list body ihS,
        Extent.relocate, id]
    | conditional e clauses =>
      have hcs : clauses.map (Clause.relocate id) = clauses := by
        rw [List.map_congr_left (g := id), List.map_id]
        intro k hk
        refine Clause.relocate_id (fun c hc => ihO c ?_) (fun c hc => ihS c ?_)
        · exact List.mem_flatMap.2 ⟨k, hk, Option.mem_toList.2 hc⟩
        · exact List.mem_flatMap.2 ⟨k, hk, hc⟩
      simp only [relocate, relocateClauses_eq_map, hcs, Extent.relocate, id]
    | mapLiteral e fields =>
      have hfs : fields.map (Field.relocate id) = fields := by
        rw [List.map_congr_left (g := id), List.map_id]
        intro d hd
        have hv := ihO d.value (List.mem_map.2 ⟨d, hd, rfl⟩)
        cases d with
        | mk e key value => simp only [Field.relocate, show value.relocate id = value from hv,
            Extent.relocate, id]
      simp only [relocate, relocateFields_eq_map, hfs, Extent.relocate, id]
    | returnStatement e argument =>
      cases argument with
      | none => rfl
      | some a => simp only [relocate, relocateOption_eq_map, Option.map_some, Extent.relocate, id,
          ihO a (by simp [operands])]
    | call e origin arguments =>
      simp only [relocate, relocateAll_eq_map, Extent.relocate, id,
        ihO origin (by simp [operands]), list arguments fun c hc => ihO c (by simp [operands, hc])]
    | chunk e body names | whileLoop e condition body | forLoop e target iterator body =>
      simp_all only [relocate, relocateAll_eq_map, operands, statements, List.mem_cons,
        List.not_mem_nil, or_false, forall_eq_or_imp, forall_eq, Extent.relocate, id]
      try rw [list body ihS]
    | listLiteral e items =>
      simp only [relocate, relocateAll_eq_map, list items ihO, Extent.relocate, id]
    | _ =>
      simp_all [relocate, operands, Extent.relocate]

/-- Mapping positions twice is mapping them once by the composition. -/
theorem relocate_relocate (f g : Position → Position) (n : Node) :
    (n.relocate g).relocate f = n.relocate (f ∘ g) := by
  induction n using Node.induction with
  | step n ihO ihS =>
    have list : ∀ ns : List Node, (∀ c ∈ ns, (c.relocate g).relocate f = c.relocate (f ∘ g)) →
        (ns.map (relocate g)).map (relocate f) = ns.map (relocate (f ∘ g)) := by
      intro ns h
      rw [List.map_map]
      exact List.map_congr_left h
    cases n with
    | function e name ps body =>
      have hps : (ps.map (Parameter.relocate g)).map (Parameter.relocate f) =
          ps.map (Parameter.relocate (f ∘ g)) := by
        rw [List.map_map]
        refine List.map_congr_left fun p hp => ?_
        refine Parameter.relocate_relocate fun c hc => ihO c ?_
        exact List.mem_flatMap.2 ⟨p, hp, Option.mem_toList.2 hc⟩
      simp only [relocate, relocateParameters_eq_map, relocateAll_eq_map, hps, list body ihS,
        Extent.relocate, Function.comp_apply]
    | conditional e clauses =>
      have hcs : (clauses.map (Clause.relocate g)).map (Clause.relocate f) =
          clauses.map (Clause.relocate (f ∘ g)) := by
        rw [List.map_map]
        refine List.map_congr_left fun k hk => ?_
        refine Clause.relocate_relocate (fun c hc => ihO c ?_) (fun c hc => ihS c ?_)
        · exact List.mem_flatMap.2 ⟨k, hk, Option.mem_toList.2 hc⟩
        · exact List.mem_flatMap.2 ⟨k, hk, hc⟩
      simp only [relocate, relocateClauses_eq_map, hcs, Extent.relocate, Function.comp_apply]
    | mapLiteral e fields =>
      have hfs : (fields.map (Field.relocate g)).map (Field.relocate f) =
          fields.map (Field.relocate (f ∘ g)) := by
        rw [List.map_map]
        refine List.map_congr_left fun d hd => ?_
        have hv := ihO d.value (List.mem_map.2 ⟨d, hd, rfl⟩)
        cases d with
        | mk e key value =>
          simp only [Field.value] at hv
          simp only [Function.comp_apply, Field.relocate, hv, Extent.relocate]
      simp only [relocate, relocateFields_eq_map, hfs, Extent.relocate, Function.comp_apply]
    | returnStatement e argument =>
      cases argument with
      | none => rfl
      | some a =>
        simp only [relocate, relocateOption_eq_map, Option.map_some, Extent.relocate,
          Function.comp_apply, ihO a (by simp [operands])]
    | call e origin arguments =>
      simp only [relocate, relocateAll_eq_map, Extent.relocate, Function.comp_apply,
        ihO origin (by simp [operands]), list arguments fun c hc => ihO c (by simp [operands, hc])]
    | chunk e body names | whileLoop e condition body | forLoop e target iterator body =>
      simp_all only [relocate, relocateAll_eq_map, operands, statements, List.mem_cons,
        List.not_mem_nil, or_false, forall_eq_or_imp, forall_eq, Extent.relocate,
        Function.comp_apply]
      try rw [list body ihS]
    | listLiteral e items =>
      simp only [relocate, relocateAll_eq_map, list items ihO, Extent.relocate,
        Function.comp_apply]
    | _ => simp_all [relocate, operands, Extent.relocate]

end Node

/-- A way to put tokens to other places: positions, lines and spans are mapped, and different lines
stay different. -/
structure Placement where
  place : Position → Position
  line : Nat → Nat
  span : Span → Span
  line_place : ∀ p, (place p).line = line p.line
  line_injective : Function.Injective line

namespace Placement

/-- Leaves everything where it is. -/
def same : Placement := ⟨id, id, id, fun _ => rfl, Function.injective_id⟩

end Placement

namespace Token

/-- A token put to another place. -/
def relocate (p : Placement) (t : Token) : Token :=
  { t with span := p.span t.span, extent := t.extent.relocate p.place }

variable (p : Placement) (t : Token)

@[simp] theorem relocate_same : t.relocate .same = t := rfl

@[simp] theorem kind_relocate : (t.relocate p).kind = t.kind := rfl

@[simp] theorem value_relocate : (t.relocate p).value = t.value := rfl

@[simp] theorem extent_relocate : (t.relocate p).extent = t.extent.relocate p.place := rfl

@[simp] theorem start_relocate : (t.relocate p).start = p.place t.start := rfl

@[simp] theorem stop_relocate : (t.relocate p).stop = p.place t.stop := rfl

@[simp] theorem line_relocate : (t.relocate p).line = p.line t.line := p.line_place _

@[simp] theorem isEndOfFile_relocate : (t.relocate p).isEndOfFile = t.isEndOfFile := rfl

@[simp] theorem isEndOfLine_relocate : (t.relocate p).isEndOfLine = t.isEndOfLine := rfl

@[simp] theorem isTerminator_relocate : (t.relocate p).isTerminator = t.isTerminator := rfl

@[simp] theorem isKeyword_relocate (k : Keyword) :
    (t.relocate p).isKeyword k = t.isKeyword k := rfl

@[simp] theorem isPunctuator_relocate (q : Punctuator) :
    (t.relocate p).isPunctuator q = t.isPunctuator q := rfl

@[simp] theorem isIdentifier_relocate : (t.relocate p).isIdentifier = t.isIdentifier := rfl

@[simp] theorem isValueLiteral_relocate : (t.relocate p).isValueLiteral = t.isValueLiteral := rfl

@[simp] theorem isLiteral_relocate : (t.relocate p).isLiteral = t.isLiteral := rfl

@[simp] theorem endsLineBody_relocate : (t.relocate p).endsLineBody = t.endsLineBody := rfl

@[simp] theorem endsBlock_relocate : (t.relocate p).endsBlock = t.endsBlock := rfl

@[simp] theorem binaryOperator_relocate :
    BinaryOperator.ofToken? (t.relocate p) = BinaryOperator.ofToken? t := rfl

@[simp] theorem unaryOperator_relocate :
    UnaryOperator.ofToken? (t.relocate p) = UnaryOperator.ofToken? t := rfl

@[simp] theorem isSuffix_relocate : Reading.isSuffix (t.relocate p) = Reading.isSuffix t := rfl

@[simp] theorem isSeparator_relocate :
    Reading.isSeparator (t.relocate p) = Reading.isSeparator t := rfl

@[simp] theorem literalOf_relocate : Reading.literalOf (t.relocate p) = Reading.literalOf t := rfl

/-- Two relocated tokens are on one line if and only if the tokens are. -/
@[simp] theorem line_bne_relocate (s : Token) :
    ((t.relocate p).line != (s.relocate p).line) = (t.line != s.line) := by
  rw [line_relocate, line_relocate, Bool.eq_iff_iff, bne_iff_ne, bne_iff_ne,
    p.line_injective.ne_iff]

end Token

/-- The fault with the line in it mapped. -/
def ParseFault.relocate (line : Nat → Nat) : ParseFault → ParseFault
  | .splitCall previousLine => .splitCall (line previousLine)
  | fault => fault

@[simp] theorem ParseFault.relocate_id (fault : ParseFault) : fault.relocate id = fault := by
  cases fault <;> rfl

end LineScript
