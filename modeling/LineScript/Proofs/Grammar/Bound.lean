import LineScript.Proofs.Grammar.Progress

/-!
# The bound on nested readings is large enough

Between two tokens only a fixed number of readings nest, because every repetition moves over a
token. Each production has a rank, above the ranks of all productions that it calls before it has
moved, and `32` times the number of tokens ahead, with the rank on top, bounds how deeply readings
nest below it. Main statement: the bound that a source text is read under is never reached.
-/

namespace LineScript

namespace Reading

/-- The productions under a bound are never exhausted if the tokens ahead leave room for their
ranks. -/
structure Ample (n : Nat) : Prop where
  primary : ∀ b, b < n → Fed anyToken b (primary n)
  righthand : ∀ b, b < n → Fed anyToken b (righthand n)
  callSuffix : ∀ b, b < n → ∀ a, Fed (·.kind = .punctuator .parenOpen) b (callSuffix n a)
  suffixes : ∀ b, b + 1 < n → ∀ a, a.IsOperand true → Fed anyToken b (suffixes n a)
  unaryExpression : ∀ b, b < n → ∀ o, Fed notEndOfFile b (unaryExpression n o)
  binaryTail : ∀ b, b < n → ∀ a bound, a.IsOperand true → Fed anyToken b (binaryTail n a bound)
  operand : ∀ b, b + 1 < n → Fed anyToken b (operand n)
  subExpression : ∀ b, b + 2 < n → ∀ bound, Fed anyToken b (subExpression n bound)
  expression : ∀ b, b + 3 < n → Fed anyToken b (expression n)
  expectedExpression : ∀ b, b + 4 < n → Fed anyToken b (expectedExpression n)
  compoundAssignment : ∀ b, b + 3 < n → ∀ a o, Fed anyToken b (compoundAssignment n a o)
  moreArguments : ∀ b, b < n → Fed anyToken b (moreArguments n)
  mapFields : ∀ b, b < n → Fed anyToken b (mapFields n)
  listItems : ∀ b, b + 5 < n → Fed anyToken b (listItems n)
  statementTail : ∀ b, b + 5 < n → ∀ t a, a.IsOperand true → Fed anyToken b (statementTail n t a)
  assignmentOrCall : ∀ b, b + 6 < n → Fed anyToken b (assignmentOrCall n)
  statement : ∀ b, b + 7 < n → ∀ inLine, Fed anyToken b (statement n inLine)
  block : ∀ b, b + 8 < n → Fed anyToken b (block n)
  lineBody : ∀ b, b + 8 < n → Fed anyToken b (lineBody n)
  constructBody : ∀ b, b + 9 < n → ∀ k, Fed anyToken b (constructBody n k)
  elseIfBlocks : ∀ b, b < n → Fed anyToken b (elseIfBlocks n)
  elseBlock : ∀ b, b < n → Fed anyToken b (elseBlock n)
  elseIfLines : ∀ b, b < n → Fed anyToken b (elseIfLines n)
  elseLine : ∀ b, b < n → Fed anyToken b (elseLine n)
  ifStatement : ∀ b, b + 9 < n → ∀ start, Fed anyToken b (ifStatement n start)
  whileStatement : ∀ b, b + 10 < n → ∀ start, Fed anyToken b (whileStatement n start)
  forStatement : ∀ b, b + 10 < n → ∀ start, Fed anyToken b (forStatement n start)
  functionDeclaration : ∀ b, b + 10 < n → ∀ start, Fed anyToken b (functionDeclaration n start)
  parameters : ∀ b, b < n → Fed anyToken b (parameters n)
  returnStatement : ∀ b, b + 4 < n → ∀ start inLine,
    Fed anyToken b (returnStatement n start inLine)

namespace Ample

variable {n b : Nat}

theorem primary_succ (h : Ample n) (hb : b < n + 1) : Fed anyToken b (Reading.primary (n + 1)) := by
  rw [primary_eq]
  refine .current fun t _ => ?_
  split
  next hl =>
    refine .bind_consumes (.of_unbounded .literal) .literal
      (literal_consumes.weaken fun u hu => hu ▸ hl) fun e _ he _ => ?_
    refine .current fun u _ => ?_
    split
    · exact (h.suffixes _ (by omega) e he.2).any.map
    · exact .pure _
  · split
    next hk =>
      refine .free .numberBehindPoint .point fun p _ _ => ?_
      split
      · exact .map (.of_unbounded .detachedFraction)
      · exact .pure _
    next hk =>
      refine .next (fun u hu => not_endOfFile_of_kind (hu ▸ hk) (by simp)) fun _ => ?_
      exact (h.functionDeclaration _ (by omega) _).map
    next hk =>
      refine .next (fun u hu => not_endOfFile_of_kind (hu ▸ hk) (by simp)) fun _ => ?_
      refine .bind (h.mapFields _ (by omega)) (built n).mapFields fun fs _ hfs => ?_
      refine .free (.extentFrom _) (.extentFrom _) fun e _ _ => ?_
      exact (h.suffixes _ (by omega) _ (.mapLiteral hfs.2)).map
    next hk =>
      refine .next (fun u hu => not_endOfFile_of_kind (hu ▸ hk) (by simp)) fun _ => ?_
      refine .bind (h.listItems _ (by omega)) (built n).listItems fun ns _ hns => ?_
      refine .free (.expectPunctuator _) (.expectPunctuator _) fun _ _ _ => ?_
      refine .free (.extentFrom _) (.extentFrom _) fun e _ _ => ?_
      exact (h.suffixes _ (by omega) _ (.listLiteral hns.2)).map
    · exact .pure _

theorem righthand_succ (h : Ample n) (hb : b < n + 1) :
    Fed anyToken b (Reading.righthand (n + 1)) := by
  rw [Reading.righthand]
  refine .current fun t _ => ?_
  split
  next hk =>
    refine .bind_consumes (.of_unbounded .identifier) .identifier
      (identifier_consumes.weaken fun u hu => by simp [Token.isIdentifier, hu, hk])
      fun e _ he _ => ?_
    exact (h.suffixes _ (by omega) e he.2).map
  next hk =>
    refine .next (fun u hu => not_endOfFile_of_kind (hu ▸ hk) (by simp)) fun _ => ?_
    refine .bind (h.expectedExpression _ (by omega)) (built n).expectedExpression fun e _ he => ?_
    refine .free (.expectPunctuator _) (.expectPunctuator _) fun _ _ _ => ?_
    exact (h.suffixes _ (by omega) e he.2).map
  · exact .pure _

theorem callRemainder_fed (a : Node) (cs : List Node) : Fed anyToken b (callRemainder a cs) :=
  .of_unbounded (.bind (.expectPunctuator _) fun _ => .bind (.extentFrom _) fun _ => .pure _)

theorem callSuffix_succ (h : Ample n) (hb : b < n + 1) (a : Node) :
    Fed (·.kind = .punctuator .parenOpen) b (Reading.callSuffix (n + 1) a) := by
  rw [callSuffix_eq]
  refine .previous fun t => .current fun u hu => ?_
  split
  · exact .raise _
  · refine .next (fun w hw => not_endOfFile_of_kind (hw ▸ hu) (by simp)) fun _ => ?_
    refine .bind (h.expression _ (by omega)) (built n).expression fun o _ ho => ?_
    cases o with
    | none =>
      exact .bind (.pure _) (.pure (V := fun _ _ => True) trivial)
        fun cs _ _ => callRemainder_fed a cs
    | some e =>
      exact .bind (h.moreArguments _ (by omega)).map
        ((built n).moreArguments.map (W := fun _ _ => True) fun _ _ _ => trivial)
        fun cs _ _ => callRemainder_fed a cs

theorem suffixes_succ (h : Ample n) (hb : b + 1 < n + 1) {a : Node} (ha : a.IsOperand true) :
    Fed anyToken b (Reading.suffixes (n + 1) a) := by
  rw [Reading.suffixes]
  refine .current fun t _ => ?_
  split
  next q hk =>
    have moved : ∀ u, u = t → u.isEndOfFile = false :=
      fun u hu => not_endOfFile_of_kind (hu ▸ hk) (by simp)
    split
    · refine .next moved fun _ => ?_
      refine .bind (h.compoundAssignment _ (by omega) a _)
        ((built n).compoundAssignment _ (operand_same ha)) fun e _ he => ?_
      exact h.suffixes _ (by omega) e he.2
    · split
      · refine .next moved fun _ => ?_
        refine .bind (h.expectedExpression _ (by omega)) (built n).expectedExpression
          fun c _ hc => ?_
        refine .free (.expectPunctuator _) (.expectPunctuator _) fun _ _ _ => ?_
        refine .free (.extentFrom _) (.extentFrom _) fun e _ _ => ?_
        exact h.suffixes _ (by omega) _ (ha.index hc.2)
      · refine .next moved fun _ => ?_
        refine .free .identifier .identifier fun c _ hc => ?_
        refine .free (.extentFrom _) (.extentFrom _) fun e _ _ => ?_
        exact h.suffixes _ (by omega) _ (ha.member hc.2)
      · refine .bind_consumes ((h.callSuffix _ (by omega) a).weaken fun u hu => hu ▸ hk)
          ((built n).callSuffix (operand_same ha))
          ((callSuffix_consumes n a).weaken fun u hu => hu ▸ hk) fun e _ he _ => ?_
        exact h.suffixes _ (by omega) e he.2
      · exact .pure _
  · exact .pure _

/-- An operand that may be missing, followed by something that is never exhausted. -/
theorem orEmpty {α : Type} {x : Reading (Option Node)} {k : Node → Reading α} {P : Token → Prop}
    (hx : Fed P b x) (ha : Built (Placement.same.operand? true) x)
    (hk : ∀ a, a.IsOperand true → Fed anyToken b (k a)) :
    Fed P b (x >>= fun o => match o with
      | some e => Pure.pure e >>= k
      | none => Reading.emptyHere >>= k) := by
  refine .bind hx ha fun o _ ho => ?_
  cases o with
  | none => exact .free .emptyHere .emptyHere fun e _ he => hk e he.2
  | some e => exact hk e (ho.2 e rfl)

theorem unaryExpression_succ (h : Ample n) (hb : b < n + 1) (o : UnaryOperator) :
    Fed notEndOfFile b (Reading.unaryExpression (n + 1) o) := by
  rw [Reading.unaryExpression]
  refine .current fun t ht => .next (fun u hu => hu ▸ ht) fun _ => ?_
  refine orEmpty (h.operand _ (by omega)) (built n).operand fun a _ => ?_
  exact .of_unbounded (.bind (.extentFrom _) fun _ => .pure _)

theorem not_endOfFile_of_binaryOperator {t : Token} {o : BinaryOperator}
    (h : BinaryOperator.ofToken? t = some o) : t.isEndOfFile = false := by
  unfold BinaryOperator.ofToken? at h
  cases hk : t.kind <;> simp_all [Token.isEndOfFile]

theorem not_endOfFile_of_unaryOperator {t : Token} {o : UnaryOperator}
    (h : UnaryOperator.ofToken? t = some o) : t.isEndOfFile = false := by
  unfold UnaryOperator.ofToken? at h
  cases hk : t.kind <;> simp_all [Token.isEndOfFile]

theorem binaryTail_succ (h : Ample n) (hb : b < n + 1) {a : Node} (bound : Nat)
    (ha : a.IsOperand true) : Fed anyToken b (Reading.binaryTail (n + 1) a bound) := by
  rw [Reading.binaryTail]
  refine .current fun t _ => ?_
  cases ho : BinaryOperator.ofToken? t with
  | none => exact .pure _
  | some o =>
    dsimp only
    split
    · exact .pure _
    · refine .next (fun u hu => hu ▸ not_endOfFile_of_binaryOperator ho) fun _ => ?_
      refine orEmpty (h.subExpression _ (by omega) _) ((built n).subExpression _) fun c hc => ?_
      refine .free (.extentFrom _) (.extentFrom _) fun e _ _ => ?_
      exact h.binaryTail _ (by omega) _ bound (ha.binaryNode hc)

theorem operand_succ (h : Ample n) (hb : b + 1 < n + 1) :
    Fed anyToken b (Reading.operand (n + 1)) := by
  rw [Reading.operand]
  refine .bind (h.primary _ (by omega)) (built n).primary fun o _ _ => ?_
  cases o with
  | none => exact h.righthand _ (by omega)
  | some e => exact .pure _

theorem subExpression_succ (h : Ample n) (hb : b + 2 < n + 1) (bound : Nat) :
    Fed anyToken b (Reading.subExpression (n + 1) bound) := by
  rw [Reading.subExpression]
  refine .current fun t _ => ?_
  split
  next o ho =>
    refine .bind ((h.unaryExpression _ (by omega) o).weaken fun u hu =>
      hu ▸ not_endOfFile_of_unaryOperator ho) ((built n).unaryExpression o) fun e _ he => ?_
    exact (h.binaryTail _ (by omega) e bound he.2).map
  · refine .bind (h.operand _ (by omega)).any (built n).operand fun o _ ho => ?_
    cases o with
    | none => exact .pure _
    | some e => exact (h.binaryTail _ (by omega) e bound (ho.2 e rfl)).map

theorem expectedExpression_succ (h : Ample n) (hb : b + 4 < n + 1) :
    Fed anyToken b (Reading.expectedExpression (n + 1)) := by
  rw [Reading.expectedExpression]
  refine .bind (h.expression _ (by omega)) (built n).expression fun o _ _ => ?_
  cases o with
  | none => exact .raise _
  | some e => exact .pure _

theorem compoundAssignment_succ (h : Ample n) (hb : b + 3 < n + 1) (a : Node)
    (o : BinaryOperator) : Fed anyToken b (Reading.compoundAssignment (n + 1) a o) := by
  rw [Reading.compoundAssignment]
  refine .current fun t _ => ?_
  refine orEmpty (h.subExpression _ (by omega) 0).any ((built n).subExpression 0) fun c _ => ?_
  exact .of_unbounded (.bind .previous fun _ => .pure _)

theorem moreArguments_succ (h : Ample n) (hb : b < n + 1) :
    Fed anyToken b (Reading.moreArguments (n + 1)) := by
  rw [Reading.moreArguments]
  refine .consumePunctuator (fun _ => ?_) (.pure _)
  refine .bind (h.expectedExpression _ (by omega)) (built n).expectedExpression fun e _ _ => ?_
  exact (h.moreArguments _ (by omega)).map

theorem not_endOfFile_of_isSeparator {t : Token} (h : isSeparator t = true) :
    t.isEndOfFile = false := by
  unfold isSeparator Token.isPunctuator Token.isEndOfLine at h
  cases hk : t.kind <;> simp_all [Token.isEndOfFile]

theorem fieldsRemainder_fed (h : Ample n) (hb : b < n + 1) (entry : List Field) :
    Fed anyToken b (fieldsRemainder n entry) := by
  unfold fieldsRemainder
  refine .consumePunctuator (fun _ => .pure _) (.current fun t _ => ?_)
  split
  next hs =>
    refine .next (fun u hu => hu ▸ not_endOfFile_of_isSeparator hs) fun _ => ?_
    exact (h.mapFields _ (by omega)).map
  · exact .of_unbounded (.bind (.discard (.raise _)) fun _ => .pure _)

theorem mapFields_succ (h : Ample n) (hb : b < n + 1) :
    Fed anyToken b (Reading.mapFields (n + 1)) := by
  rw [mapFields_eq]
  refine .current fun t _ => ?_
  dsimp only
  split
  next hk =>
    have hk : t.kind = .string := by simpa using hk
    refine .next (fun u hu => not_endOfFile_of_kind (hu ▸ hk) (by simp)) fun _ => ?_
    refine .free (.expectPunctuator _) (.expectPunctuator _) fun _ _ _ => ?_
    refine .bind (h.expectedExpression _ (by omega)) (built n).expectedExpression fun e _ _ => ?_
    exact h.fieldsRemainder_fed (by omega) _
  · exact (h.fieldsRemainder_fed (by omega) _).any

theorem listItems_succ (h : Ample n) (hb : b + 5 < n + 1) :
    Fed anyToken b (Reading.listItems (n + 1)) := by
  rw [Reading.listItems]
  refine .bind (h.expression _ (by omega)) (built n).expression fun o _ _ => .current fun t _ => ?_
  split
  next hs =>
    refine .next (fun u hu => hu ▸ not_endOfFile_of_isSeparator hs) fun _ => ?_
    exact (h.listItems _ (by omega)).map
  · exact .pure _

theorem targetRemainder_fed (h : Ample n) (hb : b + 5 < n + 1) (t : Token) (suffixed : Bool)
    (e : Node) : Fed anyToken b (targetRemainder n t suffixed e) := by
  unfold targetRemainder
  refine .current fun v _ => ?_
  split
  · split
    · exact .pure _
    · exact .of_unbounded (.bind (.extentFrom _) fun _ => .pure _)
  · refine .free (.expectPunctuator _) (.expectPunctuator _) fun _ _ _ => ?_
    refine .bind (h.expectedExpression _ (by omega)) (built n).expectedExpression fun v _ _ => ?_
    exact .of_unbounded (.bind (.extentFrom _) fun _ => .pure _)

theorem statementTail_succ (h : Ample n) (hb : b + 5 < n + 1) (t : Token) {a : Node}
    (ha : a.IsOperand true) : Fed anyToken b (Reading.statementTail (n + 1) t a) := by
  rw [statementTail_eq]
  refine .current fun u _ => ?_
  split
  · exact (h.binaryTail _ (by omega) a 0 ha).any
  · refine .current fun w _ => ?_
    dsimp only
    split
    · exact .bind (h.suffixes _ (by omega) a ha).any ((built n).suffixes (operand_same ha))
        fun e _ _ => h.targetRemainder_fed hb t _ e
    · exact (h.targetRemainder_fed hb t _ a).any

theorem assignmentOrCall_succ (h : Ample n) (hb : b + 6 < n + 1) :
    Fed anyToken b (Reading.assignmentOrCall (n + 1)) := by
  rw [Reading.assignmentOrCall]
  refine .current fun t _ => ?_
  have opened : Fed (· = t) b (do
      let e ← Reading.expectedExpression n
      Reading.statementTail n t e) :=
    .bind (h.expectedExpression _ (by omega)).any (built n).expectedExpression
      fun e _ he => h.statementTail _ (by omega) t e he.2
  split
  · exact .free .identifier .identifier fun e _ he => h.statementTail _ (by omega) t e he.2
  next hk =>
    refine .next (fun u hu => not_endOfFile_of_kind (hu ▸ hk) (by simp)) fun _ => ?_
    refine .bind (h.expectedExpression _ (by omega)) (built n).expectedExpression fun e _ he => ?_
    refine .free (.expectPunctuator _) (.expectPunctuator _) fun _ _ _ => ?_
    exact h.statementTail _ (by omega) t e he.2
  · exact opened
  · exact opened
  · split
    · exact opened
    · exact .raise _

theorem statement_succ (h : Ample n) (hb : b + 7 < n + 1) (inLine : Bool) :
    Fed anyToken b (Reading.statement (n + 1) inLine) := by
  rw [Reading.statement]
  refine .current fun t _ => ?_
  have next : ∀ {k : TokenKind} {x : Reading (Option Node)}, t.kind = k → k ≠ .endOfFile →
      (32 ≤ b → Fed anyToken (b - 32) x) → Fed (· = t) b (Reading.advance >>= fun _ => x) :=
    fun hk hne hx => .next (fun u hu => not_endOfFile_of_kind (hu ▸ hk) hne) hx
  split
  next hk => exact next hk (by simp) fun _ => .pure _
  next hk => exact next hk (by simp) fun _ => (h.ifStatement _ (by omega) _).map
  next hk => exact next hk (by simp) fun _ => (h.returnStatement _ (by omega) _ _).map
  next hk => exact next hk (by simp) fun _ => (h.functionDeclaration _ (by omega) _).map
  next hk => exact next hk (by simp) fun _ => (h.whileStatement _ (by omega) _).map
  next hk => exact next hk (by simp) fun _ => (h.forStatement _ (by omega) _).map
  next hk => exact next hk (by simp) fun _ => .pure _
  next hk => exact next hk (by simp) fun _ => .pure _
  next hk => exact next hk (by simp) fun _ => .pure _
  next hk => exact next hk (by simp) fun _ => .map (.of_unbounded (.importStatement _))
  · exact (h.assignmentOrCall _ (by omega)).any.map

theorem not_endOfFile_of_not_endsBlock {t : Token} (h : ¬ t.endsBlock = true) :
    t.isEndOfFile = false := by
  unfold Token.endsBlock at h
  cases hk : t.kind <;> simp_all [Token.isEndOfFile]

theorem not_endOfFile_of_not_endsLineBody {t : Token}
    (h : ¬ (t.isEndOfLine || t.endsLineBody) = true) : t.isEndOfFile = false := by
  unfold Token.endsLineBody at h
  cases hk : t.kind <;> simp_all [Token.isEndOfFile]

theorem block_succ (h : Ample n) (hb : b + 8 < n + 1) :
    Fed anyToken b (Reading.block (n + 1)) := by
  rw [Reading.block]
  refine .current fun t _ => ?_
  split
  · exact .pure _
  next ht =>
    refine .bind_consumes (h.statement _ (by omega) _).any ((built n).statement _)
      ((statement_consumes n _).weaken fun u hu => hu ▸ not_endOfFile_of_not_endsBlock ht)
      fun s _ _ _ => ?_
    refine .free .consumeLineEnd .consumeLineEnd fun _ _ _ => ?_
    exact (h.block _ (by omega)).map

theorem lineBody_succ (h : Ample n) (hb : b + 8 < n + 1) :
    Fed anyToken b (Reading.lineBody (n + 1)) := by
  rw [Reading.lineBody]
  refine .current fun t _ => ?_
  split
  · exact .pure _
  next ht =>
    refine .bind_consumes (h.statement _ (by omega) _).any ((built n).statement _)
      ((statement_consumes n _).weaken fun u hu => hu ▸ not_endOfFile_of_not_endsLineBody ht)
      fun s _ _ _ => ?_
    exact (h.lineBody _ (by omega)).map

theorem constructBody_succ (h : Ample n) (hb : b + 9 < n + 1) (k : Keyword) :
    Fed anyToken b (Reading.constructBody (n + 1) k) := by
  rw [Reading.constructBody]
  refine .current fun t _ => ?_
  split
  · refine .bind (h.block _ (by omega)).any (built n).block fun s _ _ => ?_
    exact .of_unbounded (.bind (.expectKeyword _) fun _ => .pure _)
  · refine .bind (h.lineBody _ (by omega)).any (built n).lineBody fun s _ _ => ?_
    exact .of_unbounded (.bind (.expectLineBodyEnd _) fun _ => .pure _)

theorem elseIfBlocks_succ (h : Ample n) (hb : b < n + 1) :
    Fed anyToken b (Reading.elseIfBlocks (n + 1)) := by
  rw [Reading.elseIfBlocks]
  refine .consumeKeyword (fun _ => .previous fun t => ?_) (.pure _)
  refine .bind (h.expectedExpression _ (by omega)) (built n).expectedExpression fun c _ _ => ?_
  refine .free (.expectKeyword _) (.expectKeyword _) fun _ _ _ => ?_
  refine .bind (h.block _ (by omega)) (built n).block fun s _ _ => ?_
  refine .free (.extentFrom _) (.extentFrom _) fun e _ _ => ?_
  exact (h.elseIfBlocks _ (by omega)).map

theorem elseBlock_succ (h : Ample n) (hb : b < n + 1) :
    Fed anyToken b (Reading.elseBlock (n + 1)) := by
  rw [Reading.elseBlock]
  refine .consumeKeyword (fun _ => .previous fun t => ?_) (.pure _)
  refine .bind (h.block _ (by omega)) (built n).block fun s _ _ => ?_
  exact .of_unbounded (.bind (.extentFrom _) fun _ => .pure _)

theorem elseIfLines_succ (h : Ample n) (hb : b < n + 1) :
    Fed anyToken b (Reading.elseIfLines (n + 1)) := by
  rw [Reading.elseIfLines]
  refine .consumeKeyword (fun _ => .previous fun t => ?_) (.pure _)
  refine .bind (h.expectedExpression _ (by omega)) (built n).expectedExpression fun c _ _ => ?_
  refine .free (.expectKeyword _) (.expectKeyword _) fun _ _ _ => ?_
  refine .bind (h.lineBody _ (by omega)) (built n).lineBody fun s _ _ => ?_
  refine .free (.extentFrom _) (.extentFrom _) fun e _ _ => ?_
  refine .free .consumeLineEnd .consumeLineEnd fun _ _ _ => ?_
  exact (h.elseIfLines _ (by omega)).map

theorem elseLine_succ (h : Ample n) (hb : b < n + 1) :
    Fed anyToken b (Reading.elseLine (n + 1)) := by
  rw [Reading.elseLine]
  refine .consumeKeyword (fun _ => .previous fun t => ?_) (.pure _)
  refine .bind (h.lineBody _ (by omega)) (built n).lineBody fun s _ _ => ?_
  exact .of_unbounded
    (.bind (.extentFrom _) fun _ => .bind .consumeLineEnd fun _ => .pure _)

theorem ifStatement_succ (h : Ample n) (hb : b + 9 < n + 1) (start : Position) :
    Fed anyToken b (Reading.ifStatement (n + 1) start) := by
  rw [Reading.ifStatement]
  refine .bind (h.expectedExpression _ (by omega)) (built n).expectedExpression fun c _ _ => ?_
  refine .free (.expectKeyword _) (.expectKeyword _) fun _ _ _ => .current fun t _ => ?_
  split
  · refine .bind (h.block _ (by omega)).any (built n).block fun s _ _ => ?_
    refine .free (.extentFrom _) (.extentFrom _) fun e _ _ => ?_
    refine .bind (h.elseIfBlocks _ (by omega)) (built n).elseIfBlocks fun cs _ _ => ?_
    refine .bind (h.elseBlock _ (by omega)) (built n).elseBlock fun ds _ _ => ?_
    exact .of_unbounded (.bind (.expectKeyword _) fun _ => .bind (.extentFrom _) fun _ => .pure _)
  · refine .bind (h.lineBody _ (by omega)).any (built n).lineBody fun s _ _ => ?_
    refine .free (.extentFrom _) (.extentFrom _) fun e _ _ => ?_
    refine .free .consumeLineEnd .consumeLineEnd fun _ _ _ => ?_
    refine .bind (h.elseIfLines _ (by omega)) (built n).elseIfLines fun cs _ _ => ?_
    refine .bind (h.elseLine _ (by omega)) (built n).elseLine fun ds _ _ => ?_
    refine .free (.consumeKeyword _) (.consumeKeyword _) fun closed _ _ => ?_
    split
    · exact .of_unbounded (.bind .consumeLineEnd fun _ => .bind (.extentFrom _) fun _ => .pure _)
    · exact .of_unbounded (.bind (.extentFrom _) fun _ => .pure _)

theorem whileStatement_succ (h : Ample n) (hb : b + 10 < n + 1) (start : Position) :
    Fed anyToken b (Reading.whileStatement (n + 1) start) := by
  rw [Reading.whileStatement]
  refine .bind (h.expectedExpression _ (by omega)) (built n).expectedExpression fun c _ _ => ?_
  refine .bind (h.constructBody _ (by omega) _) ((built n).constructBody _) fun s _ _ => ?_
  exact .of_unbounded (.bind (.extentFrom _) fun _ => .pure _)

theorem forStatement_succ (h : Ample n) (hb : b + 10 < n + 1) (start : Position) :
    Fed anyToken b (Reading.forStatement (n + 1) start) := by
  rw [Reading.forStatement]
  refine .free (.discard (.consumePunctuator _)) (.discard (.consumePunctuator _)) fun _ _ _ => ?_
  refine .free .identifier .identifier fun v _ _ => ?_
  refine .free (.expectKeyword _) (.expectKeyword _) fun _ _ _ => ?_
  refine .bind (h.expectedExpression _ (by omega)) (built n).expectedExpression fun c _ _ => ?_
  refine .free (.discard (.consumePunctuator _)) (.discard (.consumePunctuator _)) fun _ _ _ => ?_
  refine .bind (h.constructBody _ (by omega) _) ((built n).constructBody _) fun s _ _ => ?_
  exact .of_unbounded (.bind (.extentFrom _) fun _ => .pure _)

theorem functionDeclaration_succ (h : Ample n) (hb : b + 10 < n + 1) (start : Position) :
    Fed anyToken b (Reading.functionDeclaration (n + 1) start) := by
  rw [functionDeclaration_eq]
  have body : ∀ c, c ≤ b → ∀ (name : Option String) (ps : Except Node (List Parameter)),
      Fed anyToken c (functionBody n start name ps) := by
    intro c hc name ps
    cases ps with
    | error a => exact .pure _
    | ok ps =>
      refine .bind (h.constructBody _ (by omega) _) ((built n).constructBody _) fun s _ _ => ?_
      exact .of_unbounded (.bind (.extentFrom _) fun _ => .pure _)
  have header : ∀ name : Option String, Fed anyToken b (functionRemainder n start name) := by
    intro name
    unfold functionRemainder
    refine .free (.expectPunctuator _) (.expectPunctuator _) fun _ _ _ => ?_
    refine .consumePunctuator (fun _ => body _ (by omega) name (.ok [])) ?_
    exact .bind (h.parameters _ (by omega)) (built n).parameters
      fun ps _ _ => body b (by omega) name ps
  refine .current fun t _ => ?_
  dsimp only
  split
  · exact .free (.discard .identifier) (.discard .identifier) fun _ _ _ => header _
  · exact (header _).any

theorem parameters_succ (h : Ample n) (hb : b < n + 1) :
    Fed anyToken b (Reading.parameters (n + 1)) := by
  rw [parameters_eq]
  refine .current fun t _ => ?_
  split
  · exact .map (.raise _)
  next ht =>
    have rest : ∀ c, c ≤ b - 32 → ∀ d : Option Node,
        Fed anyToken c (parametersRemainder n t d) := by
      intro c hc d
      unfold parametersRemainder
      refine .free (.extentFrom _) (.extentFrom _) fun e _ _ => ?_
      refine .consumePunctuator (fun _ => ?_)
        (.of_unbounded (.bind (.expectPunctuator _) fun _ => .pure _))
      refine .bind (h.parameters _ (by omega)) (built n).parameters fun ps _ _ => ?_
      cases ps <;> exact .pure _
    have hi : t.kind = .identifier := by simpa [Token.isIdentifier] using ht
    refine .note (.next (fun u hu => not_endOfFile_of_kind (hu ▸ hi) (by simp)) fun _ => ?_)
    refine .consumePunctuator (fun _ => ?_) (rest _ (by omega) none)
    exact .bind (h.expectedExpression _ (by omega)).map
      (built n).expectedExpression.someOperand fun d _ _ => rest _ (by omega) d

theorem returnStatement_succ (h : Ample n) (hb : b + 4 < n + 1) (start : Position)
    (inLine : Bool) : Fed anyToken b (Reading.returnStatement (n + 1) start inLine) := by
  rw [Reading.returnStatement]
  refine .bind (h.expression _ (by omega)) (built n).expression fun o _ _ => ?_
  refine .free (.extentFrom _) (.extentFrom _) fun e _ _ => ?_
  dsimp only
  split
  · exact .of_unbounded (.bind .consumeLineEnd fun _ => .pure _)
  · exact .pure _

/-- No room is left under the bound zero. -/
theorem zero : Ample 0 := by
  constructor <;> intros <;> omega

theorem succ (h : Ample n) : Ample (n + 1) where
  primary _ hb := h.primary_succ hb
  righthand _ hb := h.righthand_succ hb
  callSuffix _ hb := h.callSuffix_succ hb
  suffixes _ hb _ ha := h.suffixes_succ hb ha
  unaryExpression _ hb := h.unaryExpression_succ hb
  binaryTail _ hb _ bound ha := h.binaryTail_succ hb bound ha
  operand _ hb := h.operand_succ hb
  subExpression _ hb := h.subExpression_succ hb
  expression b hb := by
    rw [Reading.expression]
    exact h.subExpression b (by omega) 0
  expectedExpression _ hb := h.expectedExpression_succ hb
  compoundAssignment _ hb := h.compoundAssignment_succ hb
  moreArguments _ hb := h.moreArguments_succ hb
  mapFields _ hb := h.mapFields_succ hb
  listItems _ hb := h.listItems_succ hb
  statementTail _ hb t _ ha := h.statementTail_succ hb t ha
  assignmentOrCall _ hb := h.assignmentOrCall_succ hb
  statement _ hb := h.statement_succ hb
  block _ hb := h.block_succ hb
  lineBody _ hb := h.lineBody_succ hb
  constructBody _ hb := h.constructBody_succ hb
  elseIfBlocks _ hb := h.elseIfBlocks_succ hb
  elseBlock _ hb := h.elseBlock_succ hb
  elseIfLines _ hb := h.elseIfLines_succ hb
  elseLine _ hb := h.elseLine_succ hb
  ifStatement _ hb := h.ifStatement_succ hb
  whileStatement _ hb := h.whileStatement_succ hb
  forStatement _ hb := h.forStatement_succ hb
  functionDeclaration _ hb := h.functionDeclaration_succ hb
  parameters _ hb := h.parameters_succ hb
  returnStatement _ hb := h.returnStatement_succ hb

end Ample

/-- A block ends where something closes it. -/
theorem block_ends {n : Nat} {r s : Reader} {a : List Node} (h : block n r = .ok a s) :
    s.current.endsBlock = true := by
  induction n generalizing r a with
  | zero => cases h
  | succ n ih =>
    rw [block] at h
    obtain ⟨t, r₁, h₁, h⟩ := bind_eq_ok.1 h
    obtain ⟨rfl, rfl⟩ := current_ok h₁
    split at h
    next ht =>
      cases h
      exact ht
    · obtain ⟨o, r₂, _, h⟩ := bind_eq_ok.1 h
      obtain ⟨_, r₃, _, h⟩ := bind_eq_ok.1 h
      rw [map_eq_pure_bind] at h
      obtain ⟨b, r₄, h₄, h⟩ := bind_eq_ok.1 h
      cases h
      exact ih h₄

/-- What closes a block ends no line, unless it ends the source. -/
theorem isTerminator_of_endsBlock {t : Token} (h : t.endsBlock = true)
    (ht : t.isEndOfFile = false) : t.isTerminator = false := by
  unfold Token.endsBlock at h
  unfold Token.isTerminator Token.isEndOfLine
  cases hk : t.kind <;> simp_all

/-- The productions are never exhausted while the tokens ahead leave room for their ranks. -/
theorem ample (n : Nat) : Ample n := by
  induction n with
  | zero => exact .zero
  | succ n ih => exact ih.succ

theorem chunkBody_fed {n b : Nat} (hb : b + 9 < n) : Fed anyToken b (chunkBody n) := by
  induction n generalizing b with
  | zero => omega
  | succ n ih =>
    intro r s hs hP hr h
    rw [chunkBody, bind_apply] at h
    cases hbr : block n r with
    | error e t =>
      rw [hbr] at h
      cases h
      exact (ample n).block b (by omega) r s hs hP hr hbr
    | ok a t =>
      rw [hbr] at h
      have hrt : r.Leads t := Advances.of_built (built n).block r t a hbr
      have hlen := hrt.length_le
      refine Fed.current (P := (·.endsBlock = true)) (b := b) (fun u hu => ?_) t s
        (hs.of_leads hrt) (block_ends hbr) (by omega) h
      split
      · exact .pure _
      next hf =>
        refine .bind_consumes (.raise _) (.raiseOperand _ fun _ => rfl)
          ((Consumes.raise _).weaken ?_) fun c _ _ _ => ?_
        · rintro _ rfl
          exact isTerminator_of_endsBlock hu (by simpa using hf)
        · exact .bind (ih (by omega)) (chunkBody_alike (.inl rfl)) fun _ _ _ => .pure _

/-- Tokens are never too many for the bound that they are read under. -/
theorem chunk_unexhausted {lenient : Bool} {stream : TokenStream} {s : Reader}
    (h : (Reader.ofTokens lenient stream).Sound) :
    chunk (nestingBound stream.tokens.length) (Reader.ofTokens lenient stream) ≠
      .error .exhausted s := by
  have fed : Fed anyToken (32 * stream.tokens.length)
      (chunk (nestingBound stream.tokens.length)) := by
    unfold chunk
    refine .free .advance .advance fun _ _ _ => .current fun t _ => ?_
    refine .bind (chunkBody_fed (by unfold nestingBound; omega)).any
      (chunkBody_alike (.inl rfl)) fun body _ _ => .current fun u _ => ?_
    intro r s _ _ _ h
    cases h
  exact fed _ s h trivial (Nat.le_refl _)

end Reading

end LineScript
