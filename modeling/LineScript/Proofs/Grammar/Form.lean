import LineScript.Grammar.Node

/-!
# The parts of a tree

The children of a node, apart as those that stand for values and those that stand for statements,
and what holds everywhere in a tree. A tree is well formed if every operand in it may stand for a
value and, unless unread text is allowed, no text in it was passed over.
-/

namespace LineScript

/-- The default of a parameter. -/
def Parameter.default : Parameter → Option Node
  | .mk _ _ default => default

/-- The condition of a clause. -/
def Clause.condition : Clause → Option Node
  | .mk _ _ condition _ => condition

/-- The statements of a clause. -/
def Clause.body : Clause → List Node
  | .mk _ _ _ body => body

/-- The value of a field. -/
def Field.value : Field → Node
  | .mk _ _ value => value

namespace Node

/-- The children of a node that stand for values. -/
def operands : Node → List Node
  | .assignment _ target value => [target, value]
  | .callStatement _ expression => [expression]
  | .function _ _ parameters _ => parameters.flatMap (·.default.toList)
  | .returnStatement _ argument => argument.toList
  | .conditional _ clauses => clauses.flatMap (·.condition.toList)
  | .whileLoop _ condition _ => [condition]
  | .forLoop _ target iterator _ => [target, iterator]
  | .member _ origin name => [origin, name]
  | .index _ origin key => [origin, key]
  | .call _ origin arguments => origin :: arguments
  | .negation _ argument => [argument]
  | .signed _ _ argument => [argument]
  | .unary _ _ argument => [argument]
  | .binary _ _ left right => [left, right]
  | .logical _ _ left right => [left, right]
  | .mapLiteral _ fields => fields.map (·.value)
  | .listLiteral _ items => items
  | _ => []

/-- The children of a node that are run as statements. -/
def statements : Node → List Node
  | .chunk _ body _ => body
  | .function _ _ _ body => body
  | .conditional _ clauses => clauses.flatMap (·.body)
  | .whileLoop _ _ body => body
  | .forLoop _ _ _ body => body
  | _ => []

/-- Whether a node may stand for a value. The statements that steer a run may not. -/
def isValue : Node → Bool
  | .chunk _ _ _ | .callStatement _ _ | .returnStatement _ _ | .conditional _ _
  | .whileLoop _ _ _ | .forLoop _ _ _ _ | .breakStatement _ | .continueStatement _
  | .debuggerStatement _ | .importStatement _ _ => false
  | _ => true

/-- Whether a node stands for text that was passed over. -/
def isInvalid : Node → Bool
  | .invalid _ => true
  | _ => false

/-- Whether a node has an operator that its kind of node may have. All unary operators but `new`
have kinds of their own. -/
def isKnown : Node → Bool
  | .unary _ operator _ => operator == .new
  | _ => true

theorem sizeOf_parameter {p : Parameter} {c : Node} (h : p.default = some c) :
    sizeOf c < sizeOf p := by
  cases p with
  | mk e name default =>
    simp only [Parameter.default] at h
    subst h
    simp only [Parameter.mk.sizeOf_spec, Option.some.sizeOf_spec]
    omega

theorem sizeOf_clause_condition {k : Clause} {c : Node} (h : k.condition = some c) :
    sizeOf c < sizeOf k := by
  cases k with
  | mk e kind condition body =>
    simp only [Clause.condition] at h
    subst h
    simp only [Clause.mk.sizeOf_spec, Option.some.sizeOf_spec]
    omega

theorem sizeOf_clause_body {k : Clause} {c : Node} (h : c ∈ k.body) : sizeOf c < sizeOf k := by
  cases k with
  | mk e kind condition body =>
    have := List.sizeOf_lt_of_mem (show c ∈ body from h)
    simp only [Clause.mk.sizeOf_spec]
    omega

theorem sizeOf_field (f : Field) : sizeOf f.value < sizeOf f := by
  cases f with
  | mk e key value =>
    simp only [Field.value, Field.mk.sizeOf_spec]
    omega

theorem sizeOf_operand {n c : Node} (h : c ∈ n.operands) : sizeOf c < sizeOf n := by
  cases n with
  | function e name parameters body =>
    simp only [operands, List.mem_flatMap, Option.mem_toList] at h
    obtain ⟨p, hp, hc⟩ := h
    have := List.sizeOf_lt_of_mem hp
    have := sizeOf_parameter hc
    simp only [function.sizeOf_spec]
    omega
  | conditional e clauses =>
    simp only [operands, List.mem_flatMap, Option.mem_toList] at h
    obtain ⟨k, hk, hc⟩ := h
    have := List.sizeOf_lt_of_mem hk
    have := sizeOf_clause_condition hc
    simp only [conditional.sizeOf_spec]
    omega
  | mapLiteral e fields =>
    simp only [operands, List.mem_map] at h
    obtain ⟨f, hf, rfl⟩ := h
    have := List.sizeOf_lt_of_mem hf
    have := sizeOf_field f
    simp only [mapLiteral.sizeOf_spec]
    omega
  | returnStatement e argument =>
    simp only [operands, Option.mem_toList] at h
    subst h
    simp only [returnStatement.sizeOf_spec, Option.some.sizeOf_spec]
    omega
  | call e origin arguments =>
    simp only [operands, List.mem_cons] at h
    simp only [call.sizeOf_spec]
    obtain rfl | h := h
    · omega
    · have := List.sizeOf_lt_of_mem h
      omega
  | listLiteral e items =>
    have := List.sizeOf_lt_of_mem (show c ∈ items from h)
    simp only [listLiteral.sizeOf_spec]
    omega
  | _ =>
    simp only [operands, List.mem_cons, List.not_mem_nil, or_false] at h
    all_goals
      obtain rfl | rfl := h <;> simp <;> omega

theorem sizeOf_statement {n c : Node} (h : c ∈ n.statements) : sizeOf c < sizeOf n := by
  cases n with
  | conditional e clauses =>
    simp only [statements, List.mem_flatMap] at h
    obtain ⟨k, hk, hc⟩ := h
    have := List.sizeOf_lt_of_mem hk
    have := sizeOf_clause_body hc
    simp only [conditional.sizeOf_spec]
    omega
  | _ =>
    simp only [statements, List.not_mem_nil] at h
    all_goals
      have := List.sizeOf_lt_of_mem h
      simp
      omega

/-- What holds of a node whenever it holds of its children holds of every node. -/
theorem induction {P : Node → Prop}
    (step : ∀ n : Node, (∀ c ∈ n.operands, P c) → (∀ c ∈ n.statements, P c) → P n) (n : Node) :
    P n := by
  apply step
  · intro c hc
    have := sizeOf_operand hc
    exact induction step c
  · intro c hc
    have := sizeOf_statement hc
    exact induction step c
termination_by sizeOf n

/-- A predicate holds of a node and of all nodes below it. -/
inductive Everywhere (P : Node → Prop) : Node → Prop where
  | mk {n : Node} (here : P n) (operands : ∀ c ∈ n.operands, Everywhere P c)
      (statements : ∀ c ∈ n.statements, Everywhere P c) : Everywhere P n

theorem Everywhere.mono {P Q : Node → Prop} (hPQ : ∀ n, P n → Q n) {n : Node}
    (h : n.Everywhere P) : n.Everywhere Q := by
  induction h with
  | mk here _ _ ihO ihS => exact .mk (hPQ _ here) ihO ihS

theorem Everywhere.operand {P : Node → Prop} {n c : Node} (h : n.Everywhere P)
    (hc : c ∈ n.operands) : c.Everywhere P := by
  cases h with
  | mk _ operands _ => exact operands c hc

theorem Everywhere.and {P Q : Node → Prop} {n : Node} (hP : n.Everywhere P)
    (hQ : n.Everywhere Q) : n.Everywhere fun m => P m ∧ Q m := by
  induction hP with
  | mk here _ _ ihO ihS =>
    cases hQ with
    | mk here' operands statements =>
      exact .mk ⟨here, here'⟩ (fun c hc => ihO c hc (operands c hc))
        fun c hc => ihS c hc (statements c hc)

/-- What holds everywhere in a tree holds everywhere in each tree below. -/
theorem Everywhere.everywhere {P : Node → Prop} {n : Node} (h : n.Everywhere P) :
    n.Everywhere fun m => m.Everywhere P := by
  induction h with
  | mk here operands statements ihO ihS => exact .mk (.mk here operands statements) ihO ihS

/-- No text in a tree was passed over, unless that is allowed, all operands in it may stand for
values, and all operators in it belong where they stand. -/
def WellFormed (allow : Bool) (n : Node) : Prop :=
  n.Everywhere fun m => (m.isInvalid = true → allow = true) ∧
    (∀ c ∈ m.operands, c.isValue = true) ∧ m.isKnown = true

/-- A node is well formed if its children are and its operands may stand for values. -/
theorem WellFormed.of {allow : Bool} {n : Node} (hi : n.isInvalid = true → allow = true)
    (ho : ∀ c ∈ n.operands, c.isValue = true ∧ c.WellFormed allow)
    (hs : ∀ c ∈ n.statements, c.WellFormed allow) (hk : n.isKnown = true) :
    n.WellFormed allow :=
  .mk ⟨hi, fun c hc => (ho c hc).1, hk⟩ (fun c hc => (ho c hc).2) hs

/-- A node without children is well formed unless it stands for text that was passed over. -/
theorem WellFormed.leaf {allow : Bool} {n : Node} (hi : n.isInvalid = false)
    (ho : n.operands = []) (hs : n.statements = []) : n.WellFormed allow := by
  have hk : n.isKnown = true := by
    cases n with
    | unary e operator argument => cases ho
    | _ => rfl
  exact .of (by simp [hi]) (by simp [ho]) (by simp [hs]) hk

/-- All operators of a well-formed tree belong where they stand. -/
theorem WellFormed.known {allow : Bool} {n : Node} (h : n.WellFormed allow) :
    n.Everywhere fun m => m.isKnown = true :=
  Everywhere.mono (fun _ hm => hm.2.2) h

end Node

end LineScript
