import LineScript.Proofs.Grammar.Simulation

/-!
# How the grammar is built

Every production of the grammar is alike to itself at another place and under a deeper bound, and
every tree it gives is well formed. One lemma says so for each production, given that it holds of
the productions it calls.
-/

namespace LineScript

/-- A node that may stand for a value, with everything below it well formed. -/
def Node.IsOperand (allow : Bool) (n : Node) : Prop := n.isValue = true ∧ n.WellFormed allow

/-- A node that may stand for a value is an operand if its children are well formed. -/
theorem Node.IsOperand.of {allow : Bool} {n : Node} (hv : n.isValue = true)
    (hi : n.isInvalid = false) (ho : ∀ c ∈ n.operands, c.IsOperand allow)
    (hs : ∀ c ∈ n.statements, c.WellFormed allow) (hk : n.isKnown = true) :
    n.IsOperand allow :=
  ⟨hv, .of (by simp [hi]) ho hs hk⟩

namespace Node.IsOperand

variable {allow : Bool} {a c : Node} {e : Extent}

theorem index (ha : a.IsOperand allow) (hc : c.IsOperand allow) :
    (Node.index e a c).IsOperand allow :=
  .of rfl rfl (by simp [operands, ha, hc]) (by simp [statements]) rfl

theorem member (ha : a.IsOperand allow) (hc : c.IsOperand allow) :
    (Node.member e a c).IsOperand allow :=
  .of rfl rfl (by simp [operands, ha, hc]) (by simp [statements]) rfl

theorem binaryNode {o : BinaryOperator} (ha : a.IsOperand allow) (hc : c.IsOperand allow) :
    (Reading.binaryNode e o a c).IsOperand allow := by
  unfold Reading.binaryNode
  split
  · exact .of rfl rfl (by simp [operands, ha, hc]) (by simp [statements]) rfl
  · exact .of rfl rfl (by simp [operands, ha, hc]) (by simp [statements]) rfl

theorem mapLiteral {fields : List Field} (h : ∀ f ∈ fields, f.value.IsOperand allow) :
    (Node.mapLiteral e fields).IsOperand allow :=
  .of rfl rfl (by simpa [operands] using h) (by simp [statements]) rfl

theorem listLiteral {items : List Node} (h : ∀ c ∈ items, c.IsOperand allow) :
    (Node.listLiteral e items).IsOperand allow :=
  .of rfl rfl h (by simp [statements]) rfl

end Node.IsOperand

namespace Placement

variable (p : Placement) (allow : Bool)

/-- The same operand at another place. -/
def operand (a b : Node) : Prop := b = a.relocate p.place ∧ a.IsOperand allow

/-- The same operand at another place, or none. -/
def operand? (a b : Option Node) : Prop :=
  b = a.map (Node.relocate p.place) ∧ ∀ n ∈ a, n.IsOperand allow

/-- The same operands at other places. -/
def operands (a b : List Node) : Prop :=
  b = a.map (Node.relocate p.place) ∧ ∀ n ∈ a, n.IsOperand allow

/-- The same statement at another place. -/
def statement (a b : Node) : Prop := b = a.relocate p.place ∧ a.WellFormed allow

/-- The same statement at another place, or none. -/
def statement? (a b : Option Node) : Prop :=
  b = a.map (Node.relocate p.place) ∧ ∀ n ∈ a, n.WellFormed allow

/-- The same statements at other places. -/
def statements (a b : List Node) : Prop :=
  b = a.map (Node.relocate p.place) ∧ ∀ n ∈ a, n.WellFormed allow

/-- The same fields at other places. -/
def fields (a b : List Field) : Prop :=
  b = a.map (Field.relocate p.place) ∧ ∀ f ∈ a, f.value.IsOperand allow

/-- The same clauses at other places. -/
def clauses (a b : List Clause) : Prop :=
  b = a.map (Clause.relocate p.place) ∧
    ∀ k ∈ a, (∀ n ∈ k.condition, n.IsOperand allow) ∧ ∀ n ∈ k.body, n.WellFormed allow

/-- The same parameters at other places. -/
def parameters (a b : List Parameter) : Prop :=
  b = a.map (Parameter.relocate p.place) ∧ ∀ q ∈ a, ∀ n ∈ q.default, n.IsOperand allow

/-- The same parameters at other places, or the same unread text. -/
def parameters? : Except Node (List Parameter) → Except Node (List Parameter) → Prop
  | .ok a, .ok b => p.parameters allow a b
  | .error a, .error b => p.operand allow a b
  | _, _ => False

variable {p allow}

theorem operand.statement {a b : Node} (h : p.operand allow a b) : p.statement allow a b :=
  ⟨h.1, h.2.2⟩

/-- Statements at the same place are the same. -/
theorem statements.eq {a b : List Node} (h : same.statements allow a b) : b = a := by
  rw [h.1]
  simp only [same]
  rw [List.map_congr_left fun n _ => Node.relocate_id n, List.map_id']

theorem relocate_option_same (a : Option Node) : a.map (Node.relocate same.place) = a := by
  cases a with
  | none => rfl
  | some n => exact congrArg some (Node.relocate_id n)

theorem operand?.eq {a b : Option Node} (h : same.operand? allow a b) : b = a := by
  rw [h.1, relocate_option_same]

theorem statement?.eq {a b : Option Node} (h : same.statement? allow a b) : b = a := by
  rw [h.1, relocate_option_same]

end Placement

namespace Reading

namespace Alike

variable {p : Placement} {slack stray allow : Bool}

theorem raiseOperand (f : ParseFault)
    (hf : f = .unexpectedEndOfFile → stray = true) :
    Alike p slack stray allow (p.operand allow) (Reading.raise f)
      (Reading.raise (f.relocate p.line)) := by
  refine .raise hf fun ha e => ⟨rfl, rfl, ?_⟩
  exact .of (fun _ => ha) (by simp [Node.operands]) (by simp [Node.statements]) rfl

theorem consumePunctuator (q : Punctuator) :
    Alike p slack stray allow (fun a b => a = b) (consumePunctuator q) (consumePunctuator q) := by
  unfold Reading.consumePunctuator
  refine .bind .current ?_
  rintro t _ rfl
  rw [Token.isPunctuator_relocate]
  split
  · exact .seq .advance (.pure rfl)
  · exact .pure rfl

theorem consumeKeyword (k : Keyword) :
    Alike p slack stray allow (fun a b => a = b) (consumeKeyword k) (consumeKeyword k) := by
  unfold Reading.consumeKeyword
  refine .bind .current ?_
  rintro t _ rfl
  rw [Token.isKeyword_relocate]
  split
  · exact .seq .advance (.pure rfl)
  · exact .pure rfl

theorem consumeLineEnd :
    Alike p slack stray allow (fun _ _ => True) consumeLineEnd consumeLineEnd := by
  unfold Reading.consumeLineEnd
  refine .bind .current ?_
  rintro t _ rfl
  rw [Token.isEndOfLine_relocate]
  split
  · exact .advance
  · exact .pure trivial

theorem expectPunctuator (q : Punctuator) :
    Alike p slack stray allow (fun _ _ => True) (expectPunctuator q) (expectPunctuator q) := by
  unfold Reading.expectPunctuator
  refine .bind (.consumePunctuator q) ?_
  rintro b _ rfl
  split
  · exact .discard (.raiseOperand (.unexpectedValue q.text) (by simp))
  · exact .pure trivial

theorem expectKeyword (k : Keyword) :
    Alike p slack stray allow (fun _ _ => True) (expectKeyword k) (expectKeyword k) := by
  unfold Reading.expectKeyword
  refine .bind (.consumeKeyword k) ?_
  rintro b _ rfl
  split
  · exact .discard (.raiseOperand (.unexpectedValue k.text) (by simp))
  · exact .pure trivial

theorem expectLineBodyEnd (k : Keyword) :
    Alike p slack stray allow (fun _ _ => True) (expectLineBodyEnd k) (expectLineBodyEnd k) := by
  unfold Reading.expectLineBodyEnd
  refine .bind .current ?_
  rintro t _ rfl
  rw [Token.isTerminator_relocate]
  split
  · exact .pure trivial
  · refine .bind (.consumeKeyword k) ?_
    rintro b _ rfl
    split
    · exact .discard (.raiseOperand (.unexpectedValues [";", "<eof>"]) (by simp))
    · exact .pure trivial

theorem extentFrom (start : Position) :
    Alike p slack stray allow (fun a b => b = a.relocate p.place) (extentFrom start)
      (extentFrom (p.place start)) := by
  unfold Reading.extentFrom
  refine .bind .previous ?_
  rintro t _ rfl
  exact .pure rfl

theorem emptyHere : Alike p slack stray allow (p.operand allow) emptyHere emptyHere := by
  unfold Reading.emptyHere
  refine .bind .current ?_
  rintro t _ rfl
  refine .pure ⟨rfl, rfl, ?_⟩
  exact .leaf rfl rfl rfl

theorem identifier : Alike p slack stray allow (p.operand allow) identifier identifier := by
  unfold Reading.identifier
  refine .bind .current ?_
  rintro t _ rfl
  rw [Token.isIdentifier_relocate]
  split
  · refine .seq (.note t.value) (.seq .advance (.pure ⟨rfl, rfl, ?_⟩))
    exact .leaf rfl rfl rfl
  · exact .raiseOperand .unexpectedIdentifier (by simp)

theorem literal : Alike p slack stray allow (p.operand allow) literal literal := by
  unfold Reading.literal
  refine .bind .current ?_
  rintro t _ rfl
  refine .seq .advance (.pure ⟨rfl, rfl, ?_⟩)
  exact .leaf rfl rfl rfl

theorem detachedFraction :
    Alike p slack stray allow (p.operand allow) detachedFraction detachedFraction := by
  unfold Reading.detachedFraction
  refine .bind .current ?_
  rintro t _ rfl
  refine .seq .advance (.bind .current ?_)
  rintro u _ rfl
  refine .seq .advance (.pure ⟨rfl, rfl, ?_⟩)
  exact .leaf rfl rfl rfl

theorem importStatement (start : Position) :
    Alike p slack stray allow (p.statement allow) (importStatement start)
      (importStatement (p.place start)) := by
  unfold Reading.importStatement
  refine .bind .current ?_
  rintro t _ rfl
  rw [Token.kind_relocate]
  split
  · exact (raiseOperand .unexpectedImport (by simp)).weaken fun _ _ h => h.statement
  · refine .seq .advance (.bind .current ?_)
    rintro u _ rfl
    rw [Token.isTerminator_relocate]
    split
    · refine .pure ⟨rfl, ?_⟩
      exact .leaf rfl rfl rfl
    · exact (raiseOperand (.unexpectedValue ";") (by simp)).weaken fun _ _ h => h.statement

theorem someOperand {x y : Reading Node} (hx : Alike p slack stray allow (p.operand allow) x y) :
    Alike p slack stray allow (p.operand? allow) (some <$> x) (some <$> y) :=
  hx.map fun _ _ h => ⟨by rw [h.1]; rfl, by simp [h.2]⟩

theorem someStatement {x y : Reading Node}
    (hx : Alike p slack stray allow (p.statement allow) x y) :
    Alike p slack stray allow (p.statement? allow) (some <$> x) (some <$> y) :=
  hx.map fun _ _ h => ⟨by rw [h.1]; rfl, by simp [h.2]⟩

/-- An operand that may be missing, followed by the same for whatever stands there. -/
theorem orEmpty {β : Type} {W : β → β → Prop} {x y : Reading (Option Node)} {k l : Node → Reading β}
    (hx : Alike p slack stray allow (p.operand? allow) x y)
    (hk : ∀ a b, p.operand allow a b → Alike p slack stray allow W (k a) (l b)) :
    Alike p slack stray allow W
      (x >>= fun o => match o with
        | some e => Pure.pure e >>= k
        | none => Reading.emptyHere >>= k)
      (y >>= fun o => match o with
        | some e => Pure.pure e >>= l
        | none => Reading.emptyHere >>= l) := by
  refine .bind hx ?_
  rintro o _ ⟨rfl, ho⟩
  cases o with
  | none => exact .bind .emptyHere hk
  | some e => exact .bind (.pure ⟨rfl, ho e rfl⟩) hk

end Alike

/-- Reads what is behind the arguments of a call. -/
def callRemainder (origin : Node) (arguments : List Node) : Reading Node := do
  expectPunctuator .parenClose
  return .call (← extentFrom origin.start) origin arguments

theorem callSuffix_eq (n : Nat) (origin : Node) : callSuffix (n + 1) origin = (do
    let before := (← previous).line
    if (← current).line != before then raise (.splitCall before)
    else
      advance
      let arguments ← match ← expression n with
        | some e => (e :: ·) <$> moreArguments n
        | none => pure []
      callRemainder origin arguments) := by
  rw [callSuffix]
  rfl

/-- Reads what is behind an entry of a map literal. -/
def fieldsRemainder (n : Nat) (entry : List Field) : Reading (List Field) := do
  if ← consumePunctuator .braceClose then return entry
  else if isSeparator (← current) then
    advance
    (entry ++ ·) <$> mapFields n
  else
    discard (raise (.unexpectedValue Punctuator.braceClose.text))
    return entry

theorem mapFields_eq (n : Nat) : mapFields (n + 1) = (do
    let t ← current
    let entry ← if t.kind == .string then do
        advance
        expectPunctuator .colon
        let value ← expectedExpression n
        pure [Field.mk ⟨t.start, value.extent.stop⟩ t.value value]
      else pure []
    fieldsRemainder n entry) := by
  rw [mapFields]
  rfl

/-- Reads what is behind the first expression of a statement and its suffixes. -/
def targetRemainder (n : Nat) (t : Token) (suffixed : Bool) (e : Node) : Reading Node := do
  let here ← current
  if here.isTerminator || here.endsLineBody then
    if (t.isValueLiteral && !suffixed) || isStatementNode e then return e
    else return .callStatement (← extentFrom t.start) e
  else
    expectPunctuator .assign
    let value ← expectedExpression n
    return .assignment (← extentFrom t.start) e value

theorem statementTail_eq (n : Nat) (t : Token) (origin : Node) :
    statementTail (n + 1) t origin = (do
      if (BinaryOperator.ofToken? (← current)).isSome then binaryTail n origin 0
      else
        let suffixed := isSuffix (← current)
        let e ← if suffixed then suffixes n origin else pure origin
        targetRemainder n t suffixed e) := by
  rw [statementTail]
  rfl

/-- Reads the body of a conditional on one line, and what is behind it. -/
def conditionalLine (n : Nat) (start : Position) (condition : Node) : Reading Node := do
  let body ← lineBody n
  let first := Clause.mk (← extentFrom start) .ifClause (some condition) body
  consumeLineEnd
  let more ← elseIfLines n
  let last ← elseLine n
  if !(← consumeKeyword .endIf) then consumeLineEnd
  return .conditional (← extentFrom start) (first :: more ++ last)

theorem ifStatement_eq (n : Nat) (start : Position) : ifStatement (n + 1) start = (do
    let condition ← expectedExpression n
    expectKeyword .thenWord
    if (← current).isEndOfLine then
      let body ← block n
      let first := Clause.mk (← extentFrom start) .ifClause (some condition) body
      let more ← elseIfBlocks n
      let last ← elseBlock n
      expectKeyword .endIf
      return .conditional (← extentFrom start) (first :: more ++ last)
    else conditionalLine n start condition) := by
  rw [ifStatement]
  rfl

/-- Reads the body of a function behind its parameters, unless they were not read. -/
def functionBody (n : Nat) (start : Position) (name : Option String) :
    Except Node (List Parameter) → Reading Node
  | .error unread => return unread
  | .ok parameters => do
    let body ← constructBody n .endFunction
    return .function (← extentFrom start) name parameters body

/-- Reads what is behind the name of a function. -/
def functionRemainder (n : Nat) (start : Position) (name : Option String) : Reading Node := do
  expectPunctuator .parenOpen
  let parameters ← if ← consumePunctuator .parenClose then pure (.ok []) else parameters n
  functionBody n start name parameters

theorem functionDeclaration_eq (n : Nat) (start : Position) :
    functionDeclaration (n + 1) start = (do
      let t ← current
      let name ← if t.isIdentifier then do
          discard identifier
          pure (some t.value)
        else pure none
      functionRemainder n start name) := by
  rw [functionDeclaration]
  rfl

/-- Reads what is behind a parameter and its default value. -/
def parametersRemainder (n : Nat) (t : Token) (default : Option Node) :
    Reading (Except Node (List Parameter)) := do
  let parameter := Parameter.mk (← extentFrom t.start) t.value default
  if ← consumePunctuator .comma then
    match ← parameters n with
    | .ok more => return .ok (parameter :: more)
    | .error unread => return .error unread
  else
    expectPunctuator .parenClose
    return .ok [parameter]

theorem parameters_eq (n : Nat) : parameters (n + 1) = (do
    let t ← current
    if !t.isIdentifier then .error <$> raise .unexpectedParameter
    else
      note t.value
      advance
      let default ← if ← consumePunctuator .assign then some <$> expectedExpression n
        else pure none
      parametersRemainder n t default) := by
  rw [parameters]
  rfl

/-- The productions of the grammar under two bounds are alike. -/
structure Level (p : Placement) (slack stray allow : Bool) (n m : Nat) : Prop where
  subExpression : ∀ bound, Alike p slack stray allow (p.operand? allow) (subExpression n bound)
    (subExpression m bound)
  expression : Alike p slack stray allow (p.operand? allow) (expression n) (expression m)
  expectedExpression : Alike p slack stray allow (p.operand allow) (expectedExpression n)
    (expectedExpression m)
  operand : Alike p slack stray allow (p.operand? allow) (operand n) (operand m)
  unaryExpression : ∀ o, Alike p slack stray allow (p.operand allow) (unaryExpression n o)
    (unaryExpression m o)
  binaryTail : ∀ {a b} bound, p.operand allow a b →
    Alike p slack stray allow (p.operand allow) (binaryTail n a bound) (binaryTail m b bound)
  primary : Alike p slack stray allow (p.operand? allow) (primary n) (primary m)
  righthand : Alike p slack stray allow (p.operand? allow) (righthand n) (righthand m)
  suffixes : ∀ {a b}, p.operand allow a b →
    Alike p slack stray allow (p.operand allow) (suffixes n a) (suffixes m b)
  compoundAssignment : ∀ {a b} o, p.operand allow a b →
    Alike p slack stray allow (p.operand allow) (compoundAssignment n a o)
      (compoundAssignment m b o)
  callSuffix : ∀ {a b}, p.operand allow a b →
    Alike p slack stray allow (p.operand allow) (callSuffix n a) (callSuffix m b)
  moreArguments : Alike p slack stray allow (p.operands allow) (moreArguments n) (moreArguments m)
  mapFields : Alike p slack stray allow (p.fields allow) (mapFields n) (mapFields m)
  listItems : Alike p slack stray allow (p.operands allow) (listItems n) (listItems m)
  block : Alike p slack stray allow (p.statements allow) (block n) (block m)
  lineBody : Alike p slack stray allow (p.statements allow) (lineBody n) (lineBody m)
  statement : ∀ inLine, Alike p slack stray allow (p.statement? allow) (statement n inLine)
    (statement m inLine)
  ifStatement : ∀ start, Alike p slack stray allow (p.statement allow) (ifStatement n start)
    (ifStatement m (p.place start))
  elseIfBlocks : Alike p slack stray allow (p.clauses allow) (elseIfBlocks n) (elseIfBlocks m)
  elseBlock : Alike p slack stray allow (p.clauses allow) (elseBlock n) (elseBlock m)
  elseIfLines : Alike p slack stray allow (p.clauses allow) (elseIfLines n) (elseIfLines m)
  elseLine : Alike p slack stray allow (p.clauses allow) (elseLine n) (elseLine m)
  whileStatement : ∀ start, Alike p slack stray allow (p.statement allow) (whileStatement n start)
    (whileStatement m (p.place start))
  forStatement : ∀ start, Alike p slack stray allow (p.statement allow) (forStatement n start)
    (forStatement m (p.place start))
  functionDeclaration : ∀ start, Alike p slack stray allow (p.operand allow)
    (functionDeclaration n start) (functionDeclaration m (p.place start))
  parameters : Alike p slack stray allow (p.parameters? allow) (parameters n) (parameters m)
  constructBody : ∀ k, Alike p slack stray allow (p.statements allow) (constructBody n k)
    (constructBody m k)
  returnStatement : ∀ start inLine, Alike p slack stray allow (p.statement allow)
    (returnStatement n start inLine) (returnStatement m (p.place start) inLine)
  assignmentOrCall : Alike p slack stray allow (p.statement allow) (assignmentOrCall n)
    (assignmentOrCall m)
  statementTail : ∀ {a b} t, p.operand allow a b →
    Alike p slack stray allow (p.statement allow) (statementTail n t a)
      (statementTail m (t.relocate p) b)

namespace Level

variable {p : Placement} {slack stray allow : Bool} {n m : Nat}

theorem subExpression_succ (h : Level p slack stray allow n m) (bound : Nat) :
    Alike p slack stray allow (p.operand? allow) (Reading.subExpression (n + 1) bound)
      (Reading.subExpression (m + 1) bound) := by
  rw [Reading.subExpression, Reading.subExpression]
  refine .bind .current ?_
  rintro t _ rfl
  rw [Token.unaryOperator_relocate]
  split
  · exact .bind (h.unaryExpression _) fun a b hab => (h.binaryTail bound hab).someOperand
  · refine .bind h.operand ?_
    rintro o _ ⟨rfl, ho⟩
    cases o with
    | none => exact .pure ⟨rfl, by simp⟩
    | some e => exact (h.binaryTail bound ⟨rfl, ho e rfl⟩).someOperand

theorem expectedExpression_succ (h : Level p slack stray allow n m) :
    Alike p slack stray allow (p.operand allow) (Reading.expectedExpression (n + 1))
      (Reading.expectedExpression (m + 1)) := by
  rw [Reading.expectedExpression, Reading.expectedExpression]
  refine .bind h.expression ?_
  rintro o _ ⟨rfl, ho⟩
  cases o with
  | none => exact .raiseOperand .unexpectedExpression (by simp)
  | some e => exact .pure ⟨rfl, ho e rfl⟩

theorem operand_succ (h : Level p slack stray allow n m) :
    Alike p slack stray allow (p.operand? allow) (Reading.operand (n + 1))
      (Reading.operand (m + 1)) := by
  rw [Reading.operand, Reading.operand]
  refine .bind h.primary ?_
  rintro o _ ⟨rfl, ho⟩
  cases o with
  | none => exact h.righthand
  | some e => exact .pure ⟨rfl, ho⟩

theorem unaryExpression_succ (h : Level p slack stray allow n m) (o : UnaryOperator) :
    Alike p slack stray allow (p.operand allow) (Reading.unaryExpression (n + 1) o)
      (Reading.unaryExpression (m + 1) o) := by
  rw [Reading.unaryExpression, Reading.unaryExpression]
  refine .bind .current ?_
  rintro t _ rfl
  refine .seq .advance (.orEmpty h.operand ?_)
  rintro a _ ⟨rfl, ha⟩
  rw [Token.start_relocate]
  refine .bind (.extentFrom t.start) ?_
  rintro e _ rfl
  rw [Node.unaryNode_relocate]
  refine .pure ⟨rfl, ?_⟩
  cases o <;> exact .of rfl rfl (by simpa [Node.operands, unaryNode] using ha)
    (by simp [Node.statements, unaryNode]) rfl

theorem binaryTail_succ (h : Level p slack stray allow n m) {a b : Node} (bound : Nat)
    (hab : p.operand allow a b) :
    Alike p slack stray allow (p.operand allow) (Reading.binaryTail (n + 1) a bound)
      (Reading.binaryTail (m + 1) b bound) := by
  rw [Reading.binaryTail, Reading.binaryTail]
  obtain ⟨rfl, ha⟩ := hab
  refine .bind .current ?_
  rintro t _ rfl
  rw [Token.binaryOperator_relocate]
  cases BinaryOperator.ofToken? t with
  | none => exact .pure ⟨rfl, ha⟩
  | some o =>
    dsimp only
    split
    · exact .pure ⟨rfl, ha⟩
    · refine .seq .advance (.orEmpty (h.subExpression _) ?_)
      rintro c _ ⟨rfl, hc⟩
      rw [Node.start_relocate]
      refine .bind (.extentFrom a.start) ?_
      rintro e _ rfl
      rw [Node.binaryNode_relocate]
      exact h.binaryTail bound ⟨rfl, ha.binaryNode hc⟩

theorem righthand_succ (h : Level p slack stray allow n m) :
    Alike p slack stray allow (p.operand? allow) (Reading.righthand (n + 1))
      (Reading.righthand (m + 1)) := by
  rw [Reading.righthand, Reading.righthand]
  refine .bind .current ?_
  rintro t _ rfl
  rw [Token.kind_relocate]
  split
  · exact .bind .identifier fun _ _ hab => (h.suffixes hab).someOperand
  · refine .seq .advance (.bind h.expectedExpression fun _ _ hab => ?_)
    exact .seq (.expectPunctuator _) (h.suffixes hab).someOperand
  · exact .pure ⟨rfl, by simp⟩

theorem compoundAssignment_succ (h : Level p slack stray allow n m) {a b : Node}
    (o : BinaryOperator) (hab : p.operand allow a b) :
    Alike p slack stray allow (p.operand allow) (Reading.compoundAssignment (n + 1) a o)
      (Reading.compoundAssignment (m + 1) b o) := by
  rw [Reading.compoundAssignment, Reading.compoundAssignment]
  obtain ⟨rfl, ha⟩ := hab
  refine .bind .current ?_
  rintro t _ rfl
  refine .orEmpty (h.subExpression 0) ?_
  rintro c _ ⟨rfl, hc⟩
  refine .bind .previous ?_
  rintro u _ rfl
  refine .pure ⟨by simp [Node.relocate, Extent.relocate],
    .of rfl rfl ?_ (by simp [Node.statements]) rfl⟩
  have hb : (Node.binary ⟨t.start, u.stop⟩ o a c).IsOperand allow :=
    .of rfl rfl (by simp [Node.operands, ha, hc]) (by simp [Node.statements]) rfl
  simpa [Node.operands, ha] using hb

theorem suffixes_succ (h : Level p slack stray allow n m) {a b : Node} (hab : p.operand allow a b) :
    Alike p slack stray allow (p.operand allow) (Reading.suffixes (n + 1) a)
      (Reading.suffixes (m + 1) b) := by
  rw [Reading.suffixes, Reading.suffixes]
  obtain ⟨rfl, ha⟩ := hab
  refine .bind .current ?_
  rintro t _ rfl
  rw [Token.kind_relocate]
  split
  · split
    · refine .seq .advance (.bind (h.compoundAssignment _ ⟨rfl, ha⟩) fun _ _ hab => h.suffixes hab)
    · split
      · refine .seq .advance (.bind h.expectedExpression ?_)
        rintro c _ ⟨rfl, hc⟩
        rw [Node.start_relocate]
        refine .seq (.expectPunctuator _) (.bind (.extentFrom a.start) ?_)
        rintro e _ rfl
        exact h.suffixes ⟨rfl, ha.index hc⟩
      · refine .seq .advance (.bind .identifier ?_)
        rintro c _ ⟨rfl, hc⟩
        rw [Node.start_relocate]
        refine .bind (.extentFrom a.start) ?_
        rintro e _ rfl
        exact h.suffixes ⟨rfl, ha.member hc⟩
      · exact .bind (h.callSuffix ⟨rfl, ha⟩) fun _ _ hab => h.suffixes hab
      · exact .pure ⟨rfl, ha⟩
  · exact .pure ⟨rfl, ha⟩

theorem callRemainder_alike {a b : Node} {c d : List Node} (hab : p.operand allow a b)
    (hcd : p.operands allow c d) :
    Alike p slack stray allow (p.operand allow) (callRemainder a c) (callRemainder b d) := by
  obtain ⟨rfl, ha⟩ := hab
  obtain ⟨rfl, hc⟩ := hcd
  unfold callRemainder
  rw [Node.start_relocate]
  refine .seq (.expectPunctuator _) (.bind (.extentFrom a.start) ?_)
  rintro e _ rfl
  refine .pure ⟨by simp [Node.relocate], .of rfl rfl ?_ (by simp [Node.statements]) rfl⟩
  simpa [Node.operands, ha] using hc

theorem callSuffix_succ (h : Level p slack stray allow n m) {a b : Node}
    (hab : p.operand allow a b) :
    Alike p slack stray allow (p.operand allow) (Reading.callSuffix (n + 1) a)
      (Reading.callSuffix (m + 1) b) := by
  rw [callSuffix_eq, callSuffix_eq]
  refine .bind .previous ?_
  rintro t _ rfl
  refine .bind .current ?_
  rintro u _ rfl
  simp only [Token.line_bne_relocate]
  split
  · rw [Token.line_relocate]
    exact .raiseOperand (.splitCall t.line) (by simp)
  · refine .seq .advance (.bind h.expression ?_)
    rintro o _ ⟨rfl, ho⟩
    cases o with
    | none =>
      exact .bind (.pure (V := p.operands allow) ⟨rfl, by simp⟩)
        fun _ _ hcd => callRemainder_alike hab hcd
    | some e =>
      refine .bind (V := p.operands allow) (h.moreArguments.map ?_)
        fun _ _ hcd => callRemainder_alike hab hcd
      rintro c _ ⟨rfl, hc⟩
      exact ⟨rfl, by simpa [ho e rfl] using hc⟩

theorem moreArguments_succ (h : Level p slack stray allow n m) :
    Alike p slack stray allow (p.operands allow) (Reading.moreArguments (n + 1))
      (Reading.moreArguments (m + 1)) := by
  rw [Reading.moreArguments, Reading.moreArguments]
  refine .bind (.consumePunctuator _) ?_
  rintro b _ rfl
  split
  · refine .bind h.expectedExpression ?_
    rintro c _ ⟨rfl, hc⟩
    refine h.moreArguments.map ?_
    rintro d _ ⟨rfl, hd⟩
    exact ⟨rfl, by simpa [hc] using hd⟩
  · exact .pure ⟨rfl, by simp⟩

theorem listItems_succ (h : Level p slack stray allow n m) :
    Alike p slack stray allow (p.operands allow) (Reading.listItems (n + 1))
      (Reading.listItems (m + 1)) := by
  rw [Reading.listItems, Reading.listItems]
  refine .bind h.expression ?_
  rintro o _ ⟨rfl, ho⟩
  have hos : ∀ c ∈ o.toList, c.IsOperand allow := by simpa using ho
  have hmap : (o.map (Node.relocate p.place)).toList = o.toList.map (Node.relocate p.place) := by
    cases o <;> rfl
  refine .bind .current ?_
  rintro t _ rfl
  rw [Token.isSeparator_relocate, hmap]
  split
  · refine .seq .advance (h.listItems.map ?_)
    rintro d _ ⟨rfl, hd⟩
    exact ⟨by rw [List.map_append], fun c hc => (List.mem_append.1 hc).elim (hos c) (hd c)⟩
  · exact .pure ⟨rfl, hos⟩

theorem fieldsRemainder_alike (h : Level p slack stray allow n m) {c d : List Field}
    (hcd : p.fields allow c d) :
    Alike p slack stray allow (p.fields allow) (fieldsRemainder n c) (fieldsRemainder m d) := by
  obtain ⟨rfl, hc⟩ := hcd
  unfold fieldsRemainder
  refine .bind (.consumePunctuator _) ?_
  rintro b _ rfl
  split
  · exact .pure ⟨rfl, hc⟩
  · refine .bind .current ?_
    rintro u _ rfl
    rw [Token.isSeparator_relocate]
    split
    · refine .seq .advance (h.mapFields.map ?_)
      rintro d _ ⟨rfl, hd⟩
      exact ⟨by rw [List.map_append], fun f hf => (List.mem_append.1 hf).elim (hc f) (hd f)⟩
    · exact .seq (.discard (.raiseOperand (.unexpectedValue _) (by simp))) (.pure ⟨rfl, hc⟩)

theorem mapFields_succ (h : Level p slack stray allow n m) :
    Alike p slack stray allow (p.fields allow) (Reading.mapFields (n + 1))
      (Reading.mapFields (m + 1)) := by
  rw [mapFields_eq, mapFields_eq]
  refine .bind .current ?_
  rintro t _ rfl
  rw [Token.kind_relocate]
  have rest : ∀ c d, p.fields allow c d → Alike p slack stray allow (p.fields allow)
      (fieldsRemainder n c) (fieldsRemainder m d) := fun _ _ hcd => h.fieldsRemainder_alike hcd
  dsimp only
  split
  · refine .seq .advance (.seq (.expectPunctuator _) (.bind h.expectedExpression ?_))
    rintro v _ ⟨rfl, hv⟩
    refine .bind (V := p.fields allow) (.pure ⟨?_, by simpa [Field.value] using hv⟩) rest
    simp [Field.relocate, Extent.relocate]
  · exact .bind (V := p.fields allow) (.pure ⟨rfl, by simp⟩) rest

end Level

/-- Behind a point that is the current token a number is looked for, and nowhere else. -/
theorem primary_eq (n : Nat) : primary (n + 1) = do
    let t ← current
    if t.isLiteral then
      let e ← literal
      if t.kind != .nil && (← current).isPunctuator .dot then some <$> suffixes n e
      else return some e
    else
      match t.kind with
      | .punctuator .dot =>
        if ← numberBehindPoint then some <$> detachedFraction else return none
      | .keyword .functionWord =>
        advance
        some <$> functionDeclaration n t.start
      | .punctuator .braceOpen =>
        advance
        let fields ← mapFields n
        let extent ← extentFrom t.start
        some <$> suffixes n (.mapLiteral extent fields)
      | .punctuator .bracketOpen =>
        advance
        let items ← listItems n
        expectPunctuator .bracketClose
        let extent ← extentFrom t.start
        some <$> suffixes n (.listLiteral extent items)
      | _ => return none := by
  rw [primary]
  funext r
  rw [bind_apply, bind_apply]
  change (if r.current.isLiteral = true then _ else _ : Reading (Option Node)) r =
    (if r.current.isLiteral = true then _ else _ : Reading (Option Node)) r
  split
  · rfl
  · cases hk : r.current.kind with
    | punctuator q =>
      cases q
      case dot =>
        have hdot : r.current.isPunctuator .dot = true := by simp [Token.isPunctuator, hk]
        dsimp only
        rw [bind_apply, bind_apply, numberBehindPoint, if_pos hdot, bind_apply]
        cases peek r <;> rfl
      all_goals rfl
    | keyword k => cases k <;> rfl
    | _ => rfl

namespace Level

variable {p : Placement} {slack stray allow : Bool} {n m : Nat}

theorem primary_succ (h : Level p slack stray allow n m) :
    Alike p slack stray allow (p.operand? allow) (Reading.primary (n + 1))
      (Reading.primary (m + 1)) := by
  rw [primary_eq, primary_eq]
  refine .bind .current ?_
  rintro t _ rfl
  rw [Token.isLiteral_relocate, Token.kind_relocate, Token.start_relocate]
  split
  · refine .bind .literal ?_
    rintro a _ ⟨rfl, ha⟩
    refine .bind .current ?_
    rintro u _ rfl
    rw [Token.isPunctuator_relocate]
    split
    · exact (h.suffixes ⟨rfl, ha⟩).someOperand
    · exact .pure ⟨rfl, by simpa using ha⟩
  · split
    · refine .bind .point ?_
      rintro b _ rfl
      split
      · exact Alike.someOperand .detachedFraction
      · exact .pure ⟨rfl, by simp⟩
    · exact .seq .advance (h.functionDeclaration t.start).someOperand
    · refine .seq .advance (.bind h.mapFields ?_)
      rintro fs _ ⟨rfl, hfs⟩
      refine .bind (.extentFrom t.start) ?_
      rintro e _ rfl
      exact (h.suffixes ⟨by simp [Node.relocate], .mapLiteral hfs⟩).someOperand
    · refine .seq .advance (.bind h.listItems ?_)
      rintro ns _ ⟨rfl, hns⟩
      refine .seq (.expectPunctuator _) (.bind (.extentFrom t.start) ?_)
      rintro e _ rfl
      exact (h.suffixes ⟨by simp [Node.relocate], .listLiteral hns⟩).someOperand
    · exact .pure ⟨rfl, by simp⟩

theorem statements_append {o : Option Node} {p : Placement} {allow : Bool}
    (ho : ∀ c ∈ o, c.WellFormed allow) {as bs : List Node} (h : p.statements allow as bs) :
    p.statements allow (o.toList ++ as) ((o.map (Node.relocate p.place)).toList ++ bs) := by
  obtain ⟨rfl, has⟩ := h
  refine ⟨by cases o <;> rfl, fun c hc => ?_⟩
  obtain hc | hc := List.mem_append.1 hc
  · exact ho c (Option.mem_toList.1 hc)
  · exact has c hc

theorem block_succ (h : Level p slack stray allow n m) :
    Alike p slack stray allow (p.statements allow) (Reading.block (n + 1))
      (Reading.block (m + 1)) := by
  rw [Reading.block, Reading.block]
  refine .bind .current ?_
  rintro t _ rfl
  rw [Token.endsBlock_relocate]
  split
  · exact .pure ⟨rfl, by simp⟩
  · refine .bind (h.statement false) ?_
    rintro o _ ⟨rfl, ho⟩
    exact .seq .consumeLineEnd (h.block.map fun _ _ hab => statements_append ho hab)

theorem lineBody_succ (h : Level p slack stray allow n m) :
    Alike p slack stray allow (p.statements allow) (Reading.lineBody (n + 1))
      (Reading.lineBody (m + 1)) := by
  rw [Reading.lineBody, Reading.lineBody]
  refine .bind .current ?_
  rintro t _ rfl
  rw [Token.isEndOfLine_relocate, Token.endsLineBody_relocate, Token.isKeyword_relocate]
  split
  · exact .pure ⟨rfl, by simp⟩
  · refine .bind (h.statement _) ?_
    rintro o _ ⟨rfl, ho⟩
    exact h.lineBody.map fun _ _ hab => statements_append ho hab

theorem statement_succ (h : Level p slack stray allow n m) (inLine : Bool) :
    Alike p slack stray allow (p.statement? allow) (Reading.statement (n + 1) inLine)
      (Reading.statement (m + 1) inLine) := by
  rw [Reading.statement, Reading.statement]
  refine .bind .current ?_
  rintro t _ rfl
  rw [Token.kind_relocate, Token.start_relocate, Token.extent_relocate]
  have simple : ∀ s : Node, s.isInvalid = false → s.operands = [] → s.statements = [] →
      Alike p slack stray allow (p.statement? allow) (pure (some s))
        (pure (some (s.relocate p.place))) := by
    intro s hi ho hs
    exact .pure ⟨rfl, by simpa using Node.WellFormed.leaf hi ho hs⟩
  split
  · exact .seq .advance (.pure ⟨rfl, by simp⟩)
  · exact .seq .advance (h.ifStatement _).someStatement
  · exact .seq .advance (h.returnStatement _ _).someStatement
  · exact .seq .advance
      ((h.functionDeclaration _).weaken fun _ _ hab => hab.statement).someStatement
  · exact .seq .advance (h.whileStatement _).someStatement
  · exact .seq .advance (h.forStatement _).someStatement
  · exact .seq .advance (simple _ rfl rfl rfl)
  · exact .seq .advance (simple _ rfl rfl rfl)
  · exact .seq .advance (simple _ rfl rfl rfl)
  · exact .seq .advance (Alike.importStatement _).someStatement
  · exact h.assignmentOrCall.someStatement

theorem clauses_cons {e : Extent} {kind : ClauseKind} {c : Option Node} {body : List Node}
    {as bs : List Clause} (hc : ∀ x ∈ c, x.IsOperand allow) (hbody : ∀ x ∈ body, x.WellFormed allow)
    (h : p.clauses allow as bs) :
    p.clauses allow (.mk e kind c body :: as)
      (.mk (e.relocate p.place) kind (c.map (Node.relocate p.place))
        (body.map (Node.relocate p.place)) :: bs) := by
  obtain ⟨rfl, has⟩ := h
  exact ⟨rfl, List.forall_mem_cons.2 ⟨⟨hc, hbody⟩, has⟩⟩

theorem conditional_wellFormed {e : Extent} {ks : List Clause}
    (h : ∀ k ∈ ks, (∀ n ∈ k.condition, n.IsOperand allow) ∧ ∀ n ∈ k.body, n.WellFormed allow) :
    (Node.conditional e ks).WellFormed allow := by
  refine .of (by simp [Node.isInvalid]) ?_ ?_ rfl
  · intro c hc
    obtain ⟨k, hk, hc⟩ := List.mem_flatMap.1 hc
    exact (h k hk).1 c (Option.mem_toList.1 hc)
  · intro c hc
    obtain ⟨k, hk, hc⟩ := List.mem_flatMap.1 hc
    exact (h k hk).2 c hc

theorem elseIfBlocks_succ (h : Level p slack stray allow n m) :
    Alike p slack stray allow (p.clauses allow) (Reading.elseIfBlocks (n + 1))
      (Reading.elseIfBlocks (m + 1)) := by
  rw [Reading.elseIfBlocks, Reading.elseIfBlocks]
  refine .bind (.consumeKeyword _) ?_
  rintro b _ rfl
  split
  · refine .bind .previous ?_
    rintro t _ rfl
    refine .bind h.expectedExpression ?_
    rintro c _ ⟨rfl, hc⟩
    refine .seq (.expectKeyword _) (.bind h.block ?_)
    rintro body _ ⟨rfl, hbody⟩
    rw [Token.start_relocate]
    refine .bind (.extentFrom t.start) ?_
    rintro e _ rfl
    exact h.elseIfBlocks.map fun _ _ hab => clauses_cons (by simpa using hc) hbody hab
  · exact .pure ⟨rfl, by simp⟩

theorem elseBlock_succ (h : Level p slack stray allow n m) :
    Alike p slack stray allow (p.clauses allow) (Reading.elseBlock (n + 1))
      (Reading.elseBlock (m + 1)) := by
  rw [Reading.elseBlock, Reading.elseBlock]
  refine .bind (.consumeKeyword _) ?_
  rintro b _ rfl
  split
  · refine .bind .previous ?_
    rintro t _ rfl
    refine .bind h.block ?_
    rintro body _ ⟨rfl, hbody⟩
    rw [Token.start_relocate]
    refine .bind (.extentFrom t.start) ?_
    rintro e _ rfl
    exact .pure (clauses_cons (by simp) hbody ⟨rfl, by simp⟩)
  · exact .pure ⟨rfl, by simp⟩

theorem elseIfLines_succ (h : Level p slack stray allow n m) :
    Alike p slack stray allow (p.clauses allow) (Reading.elseIfLines (n + 1))
      (Reading.elseIfLines (m + 1)) := by
  rw [Reading.elseIfLines, Reading.elseIfLines]
  refine .bind (.consumeKeyword _) ?_
  rintro b _ rfl
  split
  · refine .bind .previous ?_
    rintro t _ rfl
    refine .bind h.expectedExpression ?_
    rintro c _ ⟨rfl, hc⟩
    refine .seq (.expectKeyword _) (.bind h.lineBody ?_)
    rintro body _ ⟨rfl, hbody⟩
    rw [Token.start_relocate]
    refine .bind (.extentFrom t.start) ?_
    rintro e _ rfl
    refine .seq .consumeLineEnd (h.elseIfLines.map fun _ _ hab => ?_)
    exact clauses_cons (by simpa using hc) hbody hab
  · exact .pure ⟨rfl, by simp⟩

theorem elseLine_succ (h : Level p slack stray allow n m) :
    Alike p slack stray allow (p.clauses allow) (Reading.elseLine (n + 1))
      (Reading.elseLine (m + 1)) := by
  rw [Reading.elseLine, Reading.elseLine]
  refine .bind (.consumeKeyword _) ?_
  rintro b _ rfl
  split
  · refine .bind .previous ?_
    rintro t _ rfl
    refine .bind h.lineBody ?_
    rintro body _ ⟨rfl, hbody⟩
    rw [Token.start_relocate]
    refine .bind (.extentFrom t.start) ?_
    rintro e _ rfl
    exact .seq .consumeLineEnd (.pure (clauses_cons (by simp) hbody ⟨rfl, by simp⟩))
  · exact .pure ⟨rfl, by simp⟩

/-- The end of a conditional, whose clauses have been read. -/
theorem conditionalEnd (start : Position) {k l : Clause} {as bs cs ds : List Clause}
    (hk : p.clauses allow (k :: as) (l :: bs)) (hc : p.clauses allow cs ds) :
    Alike p slack stray allow (p.statement allow)
      (do return .conditional (← Reading.extentFrom start) (k :: as ++ cs))
      (do return .conditional (← Reading.extentFrom (p.place start)) (l :: bs ++ ds)) := by
  refine .bind (.extentFrom start) ?_
  rintro e _ rfl
  rw [hk.1, hc.1]
  refine .pure ⟨by simp [Node.relocate], conditional_wellFormed fun j hj => ?_⟩
  exact (List.mem_append.1 hj).elim (hk.2 j) (hc.2 j)

theorem conditionalLine_alike (h : Level p slack stray allow n m) (start : Position) {c d : Node}
    (hcd : p.operand allow c d) :
    Alike p slack stray allow (p.statement allow) (conditionalLine n start c)
      (conditionalLine m (p.place start) d) := by
  obtain ⟨rfl, hc⟩ := hcd
  have hc' : ∀ x ∈ some c, x.IsOperand allow := by simpa using hc
  refine .bind h.lineBody ?_
  rintro body _ ⟨rfl, hbody⟩
  refine .bind (.extentFrom start) ?_
  rintro e _ rfl
  refine .seq .consumeLineEnd (.bind h.elseIfLines fun as bs hab => ?_)
  refine .bind h.elseLine fun cs ds hcd => ?_
  refine .bind (.consumeKeyword _) ?_
  rintro b _ rfl
  dsimp only
  split
  · exact .seq .consumeLineEnd (conditionalEnd start (clauses_cons hc' hbody hab) hcd)
  · exact conditionalEnd start (clauses_cons hc' hbody hab) hcd

theorem ifStatement_succ (h : Level p slack stray allow n m) (start : Position) :
    Alike p slack stray allow (p.statement allow) (Reading.ifStatement (n + 1) start)
      (Reading.ifStatement (m + 1) (p.place start)) := by
  rw [ifStatement_eq, ifStatement_eq]
  refine .bind h.expectedExpression fun c d hcond => ?_
  refine .seq (.expectKeyword _) (.bind .current ?_)
  rintro t _ rfl
  rw [Token.isEndOfLine_relocate]
  split
  · obtain ⟨rfl, hc⟩ := hcond
    have hc' : ∀ x ∈ some c, x.IsOperand allow := by simpa using hc
    refine .bind h.block ?_
    rintro body _ ⟨rfl, hbody⟩
    refine .bind (.extentFrom start) ?_
    rintro e _ rfl
    refine .bind h.elseIfBlocks fun as bs hab => ?_
    refine .bind h.elseBlock fun cs ds hcd => ?_
    exact .seq (.expectKeyword _) (conditionalEnd start (clauses_cons hc' hbody hab) hcd)
  · exact h.conditionalLine_alike start hcond

theorem constructBody_succ (h : Level p slack stray allow n m) (k : Keyword) :
    Alike p slack stray allow (p.statements allow) (Reading.constructBody (n + 1) k)
      (Reading.constructBody (m + 1) k) := by
  rw [Reading.constructBody, Reading.constructBody]
  refine .bind .current ?_
  rintro t _ rfl
  rw [Token.isEndOfLine_relocate]
  split
  · exact .bind h.block fun _ _ hab => .seq (.expectKeyword _) (.pure hab)
  · exact .bind h.lineBody fun _ _ hab => .seq (.expectLineBodyEnd _) (.pure hab)

theorem whileStatement_succ (h : Level p slack stray allow n m) (start : Position) :
    Alike p slack stray allow (p.statement allow) (Reading.whileStatement (n + 1) start)
      (Reading.whileStatement (m + 1) (p.place start)) := by
  rw [Reading.whileStatement, Reading.whileStatement]
  refine .bind h.expectedExpression ?_
  rintro c _ ⟨rfl, hc⟩
  refine .bind (h.constructBody _) ?_
  rintro body _ ⟨rfl, hbody⟩
  refine .bind (.extentFrom start) ?_
  rintro e _ rfl
  refine .pure ⟨by simp [Node.relocate], .of (by simp [Node.isInvalid]) ?_ hbody rfl⟩
  simpa [Node.operands, Node.IsOperand] using hc

theorem forStatement_succ (h : Level p slack stray allow n m) (start : Position) :
    Alike p slack stray allow (p.statement allow) (Reading.forStatement (n + 1) start)
      (Reading.forStatement (m + 1) (p.place start)) := by
  rw [Reading.forStatement, Reading.forStatement]
  refine .seq (.discard (.consumePunctuator _)) (.bind .identifier ?_)
  rintro v _ ⟨rfl, hv⟩
  refine .seq (.expectKeyword _) (.bind h.expectedExpression ?_)
  rintro c _ ⟨rfl, hc⟩
  refine .seq (.discard (.consumePunctuator _)) (.bind (h.constructBody _) ?_)
  rintro body _ ⟨rfl, hbody⟩
  refine .bind (.extentFrom start) ?_
  rintro e _ rfl
  refine .pure ⟨by simp [Node.relocate], .of (by simp [Node.isInvalid]) ?_ hbody rfl⟩
  intro x hx
  simp only [Node.operands, List.mem_cons, List.not_mem_nil, or_false] at hx
  obtain rfl | rfl := hx
  · exact hv
  · exact hc

theorem functionBody_alike (h : Level p slack stray allow n m) (start : Position)
    (name : Option String) {a b : Except Node (List Parameter)} (hab : p.parameters? allow a b) :
    Alike p slack stray allow (p.operand allow) (functionBody n start name a)
      (functionBody m (p.place start) name b) := by
  cases a with
  | error a =>
    cases b with
    | error b => exact .pure hab
    | ok b => exact hab.elim
  | ok a =>
    cases b with
    | error b => exact hab.elim
    | ok b =>
      obtain ⟨rfl, ha⟩ := hab
      refine .bind (h.constructBody _) ?_
      rintro body _ ⟨rfl, hbody⟩
      refine .bind (.extentFrom start) ?_
      rintro e _ rfl
      refine .pure ⟨by simp [Node.relocate], .of rfl rfl ?_ hbody rfl⟩
      intro c hc
      obtain ⟨q, hq, hc⟩ := List.mem_flatMap.1 hc
      exact ha q hq c (Option.mem_toList.1 hc)

theorem functionRemainder_alike (h : Level p slack stray allow n m) (start : Position)
    (name : Option String) : Alike p slack stray allow (p.operand allow)
      (functionRemainder n start name) (functionRemainder m (p.place start) name) := by
  unfold functionRemainder
  refine .seq (.expectPunctuator _) (.bind (.consumePunctuator _) ?_)
  rintro b _ rfl
  dsimp only
  split
  · exact .bind (V := p.parameters? allow) (.pure ⟨rfl, by simp⟩)
      fun _ _ hab => h.functionBody_alike start name hab
  · exact .bind h.parameters fun _ _ hab => h.functionBody_alike start name hab

theorem functionDeclaration_succ (h : Level p slack stray allow n m) (start : Position) :
    Alike p slack stray allow (p.operand allow) (Reading.functionDeclaration (n + 1) start)
      (Reading.functionDeclaration (m + 1) (p.place start)) := by
  rw [functionDeclaration_eq, functionDeclaration_eq]
  refine .bind .current ?_
  rintro t _ rfl
  rw [Token.isIdentifier_relocate, Token.value_relocate]
  have header := fun name => h.functionRemainder_alike start name
  split
  · exact .seq (.discard .identifier) (.bind (V := fun a b => a = b) (.pure rfl)
      fun a _ hab => hab ▸ header a)
  · exact .bind (V := fun a b => a = b) (.pure rfl) fun a _ hab => hab ▸ header a

theorem parametersRemainder_alike (h : Level p slack stray allow n m) (t : Token)
    {a b : Option Node} (hab : p.operand? allow a b) :
    Alike p slack stray allow (p.parameters? allow) (parametersRemainder n t a)
      (parametersRemainder m (t.relocate p) b) := by
  obtain ⟨rfl, ha⟩ := hab
  unfold parametersRemainder
  refine .bind (.extentFrom t.start) ?_
  rintro e _ rfl
  refine .bind (.consumePunctuator _) ?_
  rintro c _ rfl
  split
  · refine .bind h.parameters ?_
    intro c d hcd
    cases c with
    | error c =>
      cases d with
      | error d => exact .pure hcd
      | ok d => exact hcd.elim
    | ok c =>
      cases d with
      | error d => exact hcd.elim
      | ok d =>
        obtain ⟨rfl, hc⟩ := hcd
        exact .pure ⟨rfl, List.forall_mem_cons.2 ⟨ha, hc⟩⟩
  · exact .seq (.expectPunctuator _) (.pure ⟨rfl, by simpa [Parameter.default] using ha⟩)

theorem parameters_succ (h : Level p slack stray allow n m) :
    Alike p slack stray allow (p.parameters? allow) (Reading.parameters (n + 1))
      (Reading.parameters (m + 1)) := by
  rw [parameters_eq, parameters_eq]
  refine .bind .current ?_
  rintro t _ rfl
  rw [Token.isIdentifier_relocate, Token.value_relocate]
  have rest : ∀ a b, p.operand? allow a b → Alike p slack stray allow (p.parameters? allow)
      (parametersRemainder n t a) (parametersRemainder m (t.relocate p) b) :=
    fun a b hab => h.parametersRemainder_alike t hab
  split
  · exact (Alike.raiseOperand .unexpectedParameter (by simp)).map fun _ _ hab => hab
  · refine .seq (.note _) (.seq .advance (.bind (.consumePunctuator _) ?_))
    rintro b _ rfl
    dsimp only
    split
    · exact .bind h.expectedExpression.someOperand rest
    · exact .bind (V := p.operand? allow) (.pure ⟨rfl, by simp⟩) rest

theorem returnStatement_succ (h : Level p slack stray allow n m) (start : Position)
    (inLine : Bool) :
    Alike p slack stray allow (p.statement allow) (Reading.returnStatement (n + 1) start inLine)
      (Reading.returnStatement (m + 1) (p.place start) inLine) := by
  rw [Reading.returnStatement, Reading.returnStatement]
  refine .bind h.expression ?_
  rintro o _ ⟨rfl, ho⟩
  refine .bind (.extentFrom start) ?_
  rintro e _ rfl
  have hs : p.statement allow (.returnStatement e o)
      (.returnStatement (e.relocate p.place) (o.map (Node.relocate p.place))) :=
    ⟨by simp [Node.relocate], .of (by simp [Node.isInvalid])
      (fun c hc => ho c (Option.mem_toList.1 hc)) (by simp [Node.statements]) rfl⟩
  dsimp only
  split
  · exact .seq .consumeLineEnd (.pure hs)
  · exact .pure hs

theorem targetRemainder_alike (h : Level p slack stray allow n m) (t : Token) (suffixed : Bool)
    {c d : Node} (hcd : p.operand allow c d) :
    Alike p slack stray allow (p.statement allow) (targetRemainder n t suffixed c)
      (targetRemainder m (t.relocate p) suffixed d) := by
  obtain ⟨rfl, hc⟩ := hcd
  unfold targetRemainder
  refine .bind .current ?_
  rintro v _ rfl
  rw [Token.isTerminator_relocate, Token.endsLineBody_relocate, Node.isStatementNode_relocate,
    Token.isValueLiteral_relocate, Token.start_relocate]
  split
  · split
    · exact .pure ⟨rfl, hc.2⟩
    · refine .bind (.extentFrom t.start) ?_
      rintro e _ rfl
      refine .pure ⟨rfl, .of (by simp [Node.isInvalid]) ?_ (by simp [Node.statements]) rfl⟩
      simpa [Node.operands, Node.IsOperand] using hc
  · refine .seq (.expectPunctuator _) (.bind h.expectedExpression ?_)
    rintro v _ ⟨rfl, hv⟩
    refine .bind (.extentFrom t.start) ?_
    rintro e _ rfl
    refine .pure ⟨rfl, .of (by simp [Node.isInvalid]) ?_ (by simp [Node.statements]) rfl⟩
    intro x hx
    simp only [Node.operands, List.mem_cons, List.not_mem_nil, or_false] at hx
    obtain rfl | rfl := hx
    · exact hc
    · exact hv

theorem statementTail_succ (h : Level p slack stray allow n m) {a b : Node} (t : Token)
    (hab : p.operand allow a b) :
    Alike p slack stray allow (p.statement allow) (Reading.statementTail (n + 1) t a)
      (Reading.statementTail (m + 1) (t.relocate p) b) := by
  rw [statementTail_eq, statementTail_eq]
  refine .bind .current ?_
  rintro u _ rfl
  rw [Token.binaryOperator_relocate]
  split
  · exact (h.binaryTail 0 hab).weaken fun _ _ h => h.statement
  · refine .bind .current ?_
    rintro w _ rfl
    rw [Token.isSuffix_relocate]
    dsimp only
    split
    · exact .bind (h.suffixes hab) fun _ _ hcd => h.targetRemainder_alike t _ hcd
    · exact .bind (.pure hab) fun _ _ hcd => h.targetRemainder_alike t _ hcd

theorem assignmentOrCall_succ (h : Level p slack stray allow n m) :
    Alike p slack stray allow (p.statement allow) (Reading.assignmentOrCall (n + 1))
      (Reading.assignmentOrCall (m + 1)) := by
  rw [Reading.assignmentOrCall, Reading.assignmentOrCall]
  refine .bind .current ?_
  rintro t _ rfl
  rw [Token.kind_relocate]
  split
  · exact .bind .identifier fun _ _ hab => h.statementTail t hab
  · refine .seq .advance (.bind h.expectedExpression fun _ _ hab => ?_)
    exact .seq (.expectPunctuator _) (h.statementTail t hab)
  · exact .bind h.expectedExpression fun _ _ hab => h.statementTail t hab
  · exact .bind h.expectedExpression fun _ _ hab => h.statementTail t hab
  · rw [Token.isValueLiteral_relocate]
    split
    · exact .bind h.expectedExpression fun _ _ hab => h.statementTail t hab
    · exact (Alike.raiseOperand .unexpectedAssignmentOrCall (by simp)).weaken
        fun _ _ h => h.statement

/-- Nothing is read under the bound zero. -/
theorem zero (h : slack = true ∨ m = 0) : Level p slack stray allow 0 m := by
  have deeper : ∀ {α : Type} {V : α → α → Prop} {x y : Reading α}, x = exhausted →
      (m = 0 → y = exhausted) → Alike p slack stray allow V x y := by
    intro α V x y hx hy
    rw [hx]
    exact .exhausted (h.imp_right hy)
  constructor <;> intros
  all_goals
    refine deeper rfl fun hm => ?_
    subst hm
    rfl

/-- If the productions are alike under two bounds, they are under the next ones. -/
theorem succ (h : Level p slack stray allow n m) : Level p slack stray allow (n + 1) (m + 1) where
  subExpression := h.subExpression_succ
  expression := by
    rw [Reading.expression, Reading.expression]
    exact h.subExpression 0
  expectedExpression := h.expectedExpression_succ
  operand := h.operand_succ
  unaryExpression := h.unaryExpression_succ
  binaryTail bound hab := h.binaryTail_succ bound hab
  primary := h.primary_succ
  righthand := h.righthand_succ
  suffixes hab := h.suffixes_succ hab
  compoundAssignment o hab := h.compoundAssignment_succ o hab
  callSuffix hab := h.callSuffix_succ hab
  moreArguments := h.moreArguments_succ
  mapFields := h.mapFields_succ
  listItems := h.listItems_succ
  block := h.block_succ
  lineBody := h.lineBody_succ
  statement := h.statement_succ
  ifStatement := h.ifStatement_succ
  elseIfBlocks := h.elseIfBlocks_succ
  elseBlock := h.elseBlock_succ
  elseIfLines := h.elseIfLines_succ
  elseLine := h.elseLine_succ
  whileStatement := h.whileStatement_succ
  forStatement := h.forStatement_succ
  functionDeclaration := h.functionDeclaration_succ
  parameters := h.parameters_succ
  constructBody := h.constructBody_succ
  returnStatement := h.returnStatement_succ
  assignmentOrCall := h.assignmentOrCall_succ
  statementTail t hab := h.statementTail_succ t hab

end Level

variable {p : Placement} {slack stray allow : Bool} {n m : Nat}

/-- The productions are alike to themselves at other places, and under a deeper bound. -/
theorem level (h : n = m ∨ slack = true ∧ n ≤ m) : Level p slack stray allow n m := by
  induction n generalizing m with
  | zero => exact .zero (h.elim (fun h => .inr h.symm) fun h => .inl h.1)
  | succ n ih =>
    obtain ⟨m, rfl⟩ : ∃ k, m = k + 1 := ⟨m - 1, by omega⟩
    exact (ih (h.imp (by omega) fun h => ⟨h.1, by omega⟩)).succ

theorem chunkBody_alike (h : n = m ∨ slack = true ∧ n ≤ m) :
    Alike p slack true allow (p.statements allow) (chunkBody n) (chunkBody m) := by
  induction n generalizing m with
  | zero =>
    refine .exhausted (h.elim (fun h => .inr ?_) fun h => .inl h.1)
    subst h
    rfl
  | succ n ih =>
    obtain ⟨m, rfl⟩ : ∃ k, m = k + 1 := ⟨m - 1, by omega⟩
    have hnm : n = m ∨ slack = true ∧ n ≤ m := h.imp (by omega) fun h => ⟨h.1, by omega⟩
    rw [chunkBody, chunkBody]
    refine .bind (level hnm).block ?_
    rintro as _ ⟨rfl, has⟩
    refine .bind .current ?_
    rintro t _ rfl
    rw [Token.isEndOfFile_relocate]
    split
    · exact .pure ⟨rfl, has⟩
    · refine .bind (.raiseOperand .unexpectedEndOfFile fun _ => rfl) ?_
      rintro c _ ⟨rfl, hc⟩
      refine .bind (ih hnm) ?_
      rintro bs _ ⟨rfl, hbs⟩
      refine .pure ⟨by simp, ?_⟩
      intro d hd
      simp only [List.mem_append, List.mem_cons] at hd
      obtain hd | rfl | hd := hd
      · exact has d hd
      · exact hc.2
      · exact hbs d hd

end Reading

end LineScript
