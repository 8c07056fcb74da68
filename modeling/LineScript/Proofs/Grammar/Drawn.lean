import LineScript.Proofs.Grammar.Productions

/-!
# Where string literals and the names of members come from

A tree is drawn from tokens if every string literal in it, at whatever depth, is the literal of one
of the tokens, and behind every point in it stands a name, unless text was passed over there. Main
statement: every production of the grammar gives trees that are drawn from the
tokens ahead of it. One lemma says so for each production, given that it holds of the productions it
calls.
-/

namespace LineScript

namespace Node

/-- A node that, if it is a string literal, is the literal of one of the tokens. -/
def IsDrawn (ts : List Token) (n : Node) : Prop :=
  ∀ e s raw, n = .literal e (.string s) raw →
    ∃ t ∈ ts, t.kind = .string ∧ e = t.extent ∧ s = t.value ∧ raw = (Reading.literalOf t).2

/-- A node that, if it is a member, has a name for it, or text that was passed over in its place. -/
def NamesMember (n : Node) : Prop :=
  ∀ e origin name, n = .member e origin name →
    name.isInvalid = true ∨ ∃ e' x, name = .identifier e' x

/-- All string literals in a tree are literals of tokens, and all members in it have names. -/
def Drawn (ts : List Token) (n : Node) : Prop := n.Everywhere fun m => m.IsDrawn ts ∧ m.NamesMember

variable {ts : List Token} {n : Node}

/-- A node other than a string literal or a member is drawn from tokens if its children are. -/
theorem Drawn.of (hn : (∀ e s raw, n ≠ .literal e (.string s) raw) ∧ ∀ e a c, n ≠ .member e a c)
    (ho : ∀ c ∈ n.operands, c.Drawn ts) (hs : ∀ c ∈ n.statements, c.Drawn ts) : n.Drawn ts := by
  refine .mk ⟨?_, ?_⟩ ho hs
  · intro e s raw heq
    exact absurd heq (hn.1 e s raw)
  · intro e a c heq
    exact absurd heq (hn.2 e a c)

theorem Drawn.leaf (hn : (∀ e s raw, n ≠ .literal e (.string s) raw) ∧ ∀ e a c, n ≠ .member e a c)
    (ho : n.operands = []) (hs : n.statements = []) : n.Drawn ts :=
  .of hn (by simp [ho]) (by simp [hs])

end Node

/-- The string literals ahead of a reader are among the tokens. -/
def Reader.Draws (ts : List Token) (r : Reader) : Prop :=
  ∀ t ∈ r.current :: r.rest, t.kind = .string → t ∈ ts

theorem Reader.Draws.leads {ts : List Token} {r s : Reader} (h : r.Draws ts) (hs : r.Leads s) :
    s.Draws ts :=
  fun t ht => h t (hs.tokens.subset ht)

namespace Reading

variable {α β : Type} {ts : List Token} {V : α → Prop} {W : β → Prop}

/-- From a reader with string literals among the tokens ahead, a reading comes to such a reader
again, and `V` holds of what it gives. -/
def Yields (ts : List Token) (V : α → Prop) (x : Reading α) : Prop :=
  ∀ ⦃r s a⦄, r.Draws ts → x r = .ok a s → s.Draws ts ∧ V a

/-- A reading of which only the tokens ahead matter. -/
abbrev Steady (ts : List Token) (x : Reading α) : Prop := Yields ts (fun _ => True) x

/-- What is read in one place, if anything is, is drawn from tokens. -/
abbrev Drawn? (ts : List Token) (o : Option Node) : Prop := ∀ a ∈ o, a.Drawn ts

/-- All that is read is drawn from tokens. -/
abbrev AllDrawn (ts : List Token) (ns : List Node) : Prop := ∀ a ∈ ns, a.Drawn ts

theorem drawn?_none : Drawn? ts none := fun _ ha => nomatch ha

theorem drawn?_some {a : Node} (ha : a.Drawn ts) : Drawn? ts (some a) := by
  simpa [Drawn?] using ha

theorem allDrawn_nil : AllDrawn ts [] := fun _ ha => nomatch ha

theorem allDrawn_toList {o : Option Node} (ho : Drawn? ts o) : AllDrawn ts o.toList :=
  fun a ha => ho a (Option.mem_toList.1 ha)

/-- The conditions and bodies of clauses are drawn from tokens. -/
def DrawnClauses (ts : List Token) (ks : List Clause) : Prop :=
  ∀ k ∈ ks, Drawn? ts k.condition ∧ AllDrawn ts k.body

/-- The defaults of parameters, or the unread text in their place, are drawn from tokens. -/
def DrawnParameters (ts : List Token) : Except Node (List Parameter) → Prop
  | .ok ps => ∀ p ∈ ps, Drawn? ts p.default
  | .error a => a.Drawn ts

namespace Yields

variable {x : Reading α} {k : α → Reading β}

theorem pure {a : α} (ha : V a) : Yields ts V (pure a) := by
  intro r s b hr h
  cases h
  exact ⟨hr, ha⟩

theorem exhausted : Yields ts V (Reading.exhausted : Reading α) := by
  intro r s a _ h
  cases h

theorem bind (hx : Yields ts V x) (hk : ∀ a, V a → Yields ts W (k a)) : Yields ts W (x >>= k) := by
  intro r s b hr h
  obtain ⟨a, u, hxu, hks⟩ := bind_eq_ok.1 h
  obtain ⟨hu, ha⟩ := hx hr hxu
  exact hk a ha hu hks

theorem map {f : α → β} (hx : Yields ts V x) (hf : ∀ a, V a → W (f a)) : Yields ts W (f <$> x) := by
  rw [map_eq_pure_bind]
  exact .bind hx fun a ha => .pure (hf a ha)

theorem current {k : Token → Reading β}
    (hk : ∀ t, (t.kind = .string → t ∈ ts) → Yields ts W (k t)) :
    Yields ts W (Reading.current >>= k) :=
  fun r _ _ hr h => hk r.current (hr r.current List.mem_cons_self) hr h

theorem previous {k : Token → Reading β} (hk : ∀ t, Yields ts W (k t)) :
    Yields ts W (Reading.previous >>= k) :=
  fun r _ _ hr h => hk r.previous hr h

theorem advance : Steady ts Reading.advance :=
  fun _ _ _ hr h => ⟨hr.leads (Reader.leads_of_step (advance_ok h)), trivial⟩

theorem next {k : Reading β} (hk : Yields ts W k) : Yields ts W (Reading.advance >>= fun _ => k) :=
  .bind advance fun _ _ => hk

theorem note {name : String} {k : Reading β} (hk : Yields ts W k) :
    Yields ts W (Reading.note name >>= fun _ => k) :=
  fun r _ _ hr h => hk (hr.leads (Reader.leads_note r name)) h

theorem raise (f : ParseFault) : Yields ts (Node.Drawn ts) (Reading.raise f) := by
  intro r s a hr h
  cases hl : r.lenient with
  | false =>
    rw [raise_strict hl] at h
    cases h
  | true =>
    rw [raise_lenient hl] at h
    cases h
    exact ⟨hr.leads (leads_raise f), .leaf (by simp) rfl rfl⟩

theorem discard (hx : Yields ts V x) : Steady ts (discard x) := by
  rw [discard_eq]
  exact .bind hx fun _ _ => .pure trivial

theorem extentFrom (start : Position) : Steady ts (Reading.extentFrom start) :=
  .previous fun _ => .pure trivial

theorem emptyHere : Yields ts (Node.Drawn ts) Reading.emptyHere :=
  .current fun _ _ => .pure (.leaf (by simp) rfl rfl)

/-- A token that is moved over if it passes a test. -/
theorem test (accepts : Token → Bool) : Steady ts (do
    if accepts (← Reading.current) then
      Reading.advance
      return true
    else return false) := by
  refine .current fun t _ => ?_
  split
  · exact .next (.pure trivial)
  · exact .pure trivial

theorem consumePunctuator (q : Punctuator) : Steady ts (Reading.consumePunctuator q) := test _

theorem consumeKeyword (k : Keyword) : Steady ts (Reading.consumeKeyword k) := test _

theorem consumeLineEnd : Steady ts Reading.consumeLineEnd := by
  unfold Reading.consumeLineEnd
  refine .current fun t _ => ?_
  split
  · exact .advance
  · exact .pure trivial

theorem expectPunctuator (q : Punctuator) : Steady ts (Reading.expectPunctuator q) := by
  unfold Reading.expectPunctuator
  refine .bind (.consumePunctuator q) fun b _ => ?_
  split
  · exact (raise _).discard
  · exact .pure trivial

theorem expectKeyword (k : Keyword) : Steady ts (Reading.expectKeyword k) := by
  unfold Reading.expectKeyword
  refine .bind (.consumeKeyword k) fun b _ => ?_
  split
  · exact (raise _).discard
  · exact .pure trivial

theorem expectLineBodyEnd (k : Keyword) : Steady ts (Reading.expectLineBodyEnd k) := by
  unfold Reading.expectLineBodyEnd
  refine .current fun t _ => ?_
  split
  · exact .pure trivial
  · refine .bind (.consumeKeyword k) fun b _ => ?_
    split
    · exact (raise _).discard
    · exact .pure trivial

/-- A name is read, or text is passed over. -/
theorem memberName : Yields ts
    (fun a => a.Drawn ts ∧ (a.isInvalid = true ∨ ∃ e x, a = .identifier e x))
    Reading.identifier := by
  unfold Reading.identifier
  refine .current fun t _ => ?_
  split
  · exact .note (.next (.pure ⟨.leaf (by simp) rfl rfl, .inr ⟨_, _, rfl⟩⟩))
  · intro r s a hr h
    refine ⟨(Yields.raise _ hr h).1, (Yields.raise _ hr h).2, .inl ?_⟩
    cases hl : r.lenient with
    | false =>
      rw [raise_strict hl] at h
      cases h
    | true =>
      rw [raise_lenient hl] at h
      cases h
      rfl

theorem identifier : Yields ts (Node.Drawn ts) Reading.identifier := by
  intro r s a hr h
  obtain ⟨hs, ha, -⟩ := memberName hr h
  exact ⟨hs, ha⟩

/-- The one reading that makes string literals makes them from the current token. -/
theorem literal : Yields ts (Node.Drawn ts) Reading.literal := by
  unfold Reading.literal
  refine .current fun t ht => .next (.pure ?_)
  refine .mk ⟨?_, by simp [Node.NamesMember]⟩ (by simp [Node.operands]) (by simp [Node.statements])
  rintro e s raw heq
  obtain ⟨rfl, hvalue, rfl⟩ := Node.literal.inj heq
  have hk : t.kind = .string ∧ s = t.value := by
    unfold literalOf at hvalue
    split at hvalue
    · cases hvalue
    · cases hvalue
    next hk => exact ⟨hk, (Literal.string.inj hvalue).symm⟩
    · cases hvalue
  exact ⟨t, ht hk.1, hk.1, rfl, hk.2, rfl⟩

theorem detachedFraction : Yields ts (Node.Drawn ts) Reading.detachedFraction := by
  unfold Reading.detachedFraction
  refine .current fun t _ => .next (.current fun u _ => .next (.pure ?_))
  exact .leaf (by simp) rfl rfl

theorem point : Steady ts numberBehindPoint := by
  intro r s b hr h
  obtain rfl := numberBehindPoint_ok h
  exact ⟨hr, trivial⟩

theorem importStatement (start : Position) :
    Yields ts (Node.Drawn ts) (Reading.importStatement start) := by
  unfold Reading.importStatement
  refine .current fun t _ => ?_
  split
  · exact .raise _
  · refine .next (.current fun u _ => ?_)
    split
    · exact .pure (.leaf (by simp) rfl rfl)
    · exact .raise _

theorem some {x : Reading Node} (hx : Yields ts (Node.Drawn ts) x) :
    Yields ts (Drawn? ts) (Option.some <$> x) :=
  .map hx fun _ ha => drawn?_some ha

/-- An operand that may be missing, followed by a reading that takes whatever stands there. -/
theorem orEmpty {x : Reading (Option Node)} {k : Node → Reading β} (hx : Yields ts (Drawn? ts) x)
    (hk : ∀ a, a.Drawn ts → Yields ts W (k a)) :
    Yields ts W (x >>= fun o => match o with
      | Option.some e => Pure.pure e >>= k
      | none => Reading.emptyHere >>= k) := by
  refine .bind hx fun o ho => ?_
  cases o with
  | none => exact .bind .emptyHere hk
  | some e => exact hk e (ho e rfl)

end Yields

/-- The productions under a bound give trees that are drawn from tokens, if the trees that they are
given are. -/
structure Drawing (ts : List Token) (n : Nat) : Prop where
  primary : Yields ts (Drawn? ts) (primary n)
  righthand : Yields ts (Drawn? ts) (righthand n)
  callSuffix : ∀ {a}, a.Drawn ts → Yields ts (Node.Drawn ts) (callSuffix n a)
  suffixes : ∀ {a}, a.Drawn ts → Yields ts (Node.Drawn ts) (suffixes n a)
  unaryExpression : ∀ o, Yields ts (Node.Drawn ts) (unaryExpression n o)
  binaryTail : ∀ {a} bound, a.Drawn ts → Yields ts (Node.Drawn ts) (binaryTail n a bound)
  operand : Yields ts (Drawn? ts) (operand n)
  subExpression : ∀ bound, Yields ts (Drawn? ts) (subExpression n bound)
  expression : Yields ts (Drawn? ts) (expression n)
  expectedExpression : Yields ts (Node.Drawn ts) (expectedExpression n)
  compoundAssignment : ∀ {a} o, a.Drawn ts → Yields ts (Node.Drawn ts) (compoundAssignment n a o)
  moreArguments : Yields ts (AllDrawn ts) (moreArguments n)
  mapFields : Yields ts (fun fs => ∀ f ∈ fs, f.value.Drawn ts) (mapFields n)
  listItems : Yields ts (AllDrawn ts) (listItems n)
  statementTail : ∀ {a} t, a.Drawn ts → Yields ts (Node.Drawn ts) (statementTail n t a)
  assignmentOrCall : Yields ts (Node.Drawn ts) (assignmentOrCall n)
  statement : ∀ inLine, Yields ts (Drawn? ts) (statement n inLine)
  block : Yields ts (AllDrawn ts) (block n)
  lineBody : Yields ts (AllDrawn ts) (lineBody n)
  constructBody : ∀ k, Yields ts (AllDrawn ts) (constructBody n k)
  elseIfBlocks : Yields ts (DrawnClauses ts) (elseIfBlocks n)
  elseBlock : Yields ts (DrawnClauses ts) (elseBlock n)
  elseIfLines : Yields ts (DrawnClauses ts) (elseIfLines n)
  elseLine : Yields ts (DrawnClauses ts) (elseLine n)
  ifStatement : ∀ start, Yields ts (Node.Drawn ts) (ifStatement n start)
  whileStatement : ∀ start, Yields ts (Node.Drawn ts) (whileStatement n start)
  forStatement : ∀ start, Yields ts (Node.Drawn ts) (forStatement n start)
  functionDeclaration : ∀ start, Yields ts (Node.Drawn ts) (functionDeclaration n start)
  parameters : Yields ts (DrawnParameters ts) (parameters n)
  returnStatement : ∀ start inLine, Yields ts (Node.Drawn ts) (returnStatement n start inLine)

namespace Drawing

variable {n : Nat}

theorem primary_succ (h : Drawing ts n) : Yields ts (Drawn? ts) (Reading.primary (n + 1)) := by
  rw [primary_eq]
  refine .current fun t _ => ?_
  split
  · refine .bind .literal fun e he => .current fun u _ => ?_
    split
    · exact (h.suffixes he).some
    · exact .pure (drawn?_some he)
  · split
    · refine .bind .point fun b _ => ?_
      split
      · exact Yields.detachedFraction.some
      · exact .pure drawn?_none
    · exact .next (h.functionDeclaration _).some
    · refine .next (.bind h.mapFields fun fs hfs => .bind (.extentFrom _) fun e _ => ?_)
      have hmap : (Node.mapLiteral e fs).Drawn ts :=
        .of (by simp) (by simpa [Node.operands] using hfs) (by simp [Node.statements])
      exact (h.suffixes hmap).some
    · refine .next (.bind h.listItems fun ns hns => .bind (.expectPunctuator _) fun _ _ => ?_)
      refine .bind (.extentFrom _) fun e _ => ?_
      have hlist : (Node.listLiteral e ns).Drawn ts := .of (by simp) hns (by simp [Node.statements])
      exact (h.suffixes hlist).some
    · exact .pure drawn?_none

theorem righthand_succ (h : Drawing ts n) : Yields ts (Drawn? ts) (Reading.righthand (n + 1)) := by
  rw [Reading.righthand]
  refine .current fun t _ => ?_
  split
  · exact .bind .identifier fun e he => (h.suffixes he).some
  · refine .next (.bind h.expectedExpression fun e he => .bind (.expectPunctuator _) fun _ _ => ?_)
    exact (h.suffixes he).some
  · exact .pure drawn?_none

theorem callRemainder_drawn {a : Node} {cs : List Node} (ha : a.Drawn ts) (hcs : AllDrawn ts cs) :
    Yields ts (Node.Drawn ts) (callRemainder a cs) := by
  refine .bind (.expectPunctuator _) fun _ _ => .bind (.extentFrom _) fun _ _ => .pure ?_
  exact .of (by simp) (List.forall_mem_cons.2 ⟨ha, hcs⟩) (by simp [Node.statements])

theorem callSuffix_succ (h : Drawing ts n) {a : Node} (ha : a.Drawn ts) :
    Yields ts (Node.Drawn ts) (Reading.callSuffix (n + 1) a) := by
  rw [callSuffix_eq]
  refine .previous fun t => .current fun u _ => ?_
  split
  · exact .raise _
  · refine .next (.bind h.expression fun o ho => ?_)
    cases o with
    | none => exact .bind (.pure allDrawn_nil) fun _ hcs => callRemainder_drawn ha hcs
    | some e =>
      refine .bind (.map h.moreArguments fun c hc => ?_) fun _ hcs => callRemainder_drawn ha hcs
      exact List.forall_mem_cons.2 ⟨ho e rfl, hc⟩

theorem suffixes_succ (h : Drawing ts n) {a : Node} (ha : a.Drawn ts) :
    Yields ts (Node.Drawn ts) (Reading.suffixes (n + 1) a) := by
  rw [Reading.suffixes]
  refine .current fun t _ => ?_
  split
  · split
    · exact .next (.bind (h.compoundAssignment _ ha) fun e he => h.suffixes he)
    · split
      · refine .next (.bind h.expectedExpression fun c hc => ?_)
        refine .bind (.expectPunctuator _) fun _ _ => .bind (.extentFrom _) fun e _ => ?_
        refine h.suffixes (.of (by simp) ?_ (by simp [Node.statements]))
        simp [Node.operands, ha, hc]
      · refine .next (.bind .memberName fun c hc => .bind (.extentFrom _) fun e _ => ?_)
        refine h.suffixes (.mk ⟨by simp [Node.IsDrawn], ?_⟩ ?_ (by simp [Node.statements]))
        · rintro _ _ _ ⟨⟩
          exact hc.2
        · have hparts : ∀ b ∈ [a, c], b.Drawn ts := by simp [ha, hc.1]
          exact hparts
      · exact .bind (h.callSuffix ha) fun e he => h.suffixes he
      · exact .pure ha
  · exact .pure ha

theorem unaryExpression_succ (h : Drawing ts n) (o : UnaryOperator) :
    Yields ts (Node.Drawn ts) (Reading.unaryExpression (n + 1) o) := by
  rw [Reading.unaryExpression]
  refine .current fun t _ => .next (.orEmpty h.operand fun a ha => ?_)
  refine .bind (.extentFrom _) fun e _ => .pure ?_
  unfold unaryNode
  split <;> exact .of (by simp) (by simp [Node.operands, ha]) (by simp [Node.statements])

theorem binaryTail_succ (h : Drawing ts n) {a : Node} (bound : Nat) (ha : a.Drawn ts) :
    Yields ts (Node.Drawn ts) (Reading.binaryTail (n + 1) a bound) := by
  rw [Reading.binaryTail]
  refine .current fun t _ => ?_
  split
  · exact .pure ha
  · split
    · exact .pure ha
    · refine .next (.orEmpty (h.subExpression _) fun c hc => .bind (.extentFrom _) fun e _ => ?_)
      refine h.binaryTail bound ?_
      unfold binaryNode
      split <;> exact .of (by simp) (by simp [Node.operands, ha, hc]) (by simp [Node.statements])

theorem operand_succ (h : Drawing ts n) : Yields ts (Drawn? ts) (Reading.operand (n + 1)) := by
  rw [Reading.operand]
  refine .bind h.primary fun o ho => ?_
  cases o with
  | none => exact h.righthand
  | some e => exact .pure ho

theorem subExpression_succ (h : Drawing ts n) (bound : Nat) :
    Yields ts (Drawn? ts) (Reading.subExpression (n + 1) bound) := by
  rw [Reading.subExpression]
  refine .current fun t _ => ?_
  split
  · exact .bind (h.unaryExpression _) fun e he => (h.binaryTail bound he).some
  · refine .bind h.operand fun o ho => ?_
    cases o with
    | none => exact .pure ho
    | some e => exact (h.binaryTail bound (ho e rfl)).some

theorem expectedExpression_succ (h : Drawing ts n) :
    Yields ts (Node.Drawn ts) (Reading.expectedExpression (n + 1)) := by
  rw [Reading.expectedExpression]
  refine .bind h.expression fun o ho => ?_
  cases o with
  | none => exact .raise _
  | some e => exact .pure (ho e rfl)

theorem compoundAssignment_succ (h : Drawing ts n) {a : Node} (o : BinaryOperator)
    (ha : a.Drawn ts) : Yields ts (Node.Drawn ts) (Reading.compoundAssignment (n + 1) a o) := by
  rw [Reading.compoundAssignment]
  refine .current fun t _ => .orEmpty (h.subExpression 0) fun c hc => .previous fun u => .pure ?_
  have hresult : ∀ e, (Node.binary e o a c).Drawn ts := fun e =>
    .of (by simp) (by simp [Node.operands, ha, hc]) (by simp [Node.statements])
  exact .of (by simp) (by simp [Node.operands, ha, hresult]) (by simp [Node.statements])

theorem moreArguments_succ (h : Drawing ts n) :
    Yields ts (AllDrawn ts) (Reading.moreArguments (n + 1)) := by
  rw [Reading.moreArguments]
  refine .bind (.consumePunctuator _) fun b _ => ?_
  split
  · refine .bind h.expectedExpression fun e he => .map h.moreArguments fun c hc => ?_
    exact List.forall_mem_cons.2 ⟨he, hc⟩
  · exact .pure allDrawn_nil

theorem fieldsRemainder_drawn (h : Drawing ts n) {entry : List Field}
    (hentry : ∀ f ∈ entry, f.value.Drawn ts) :
    Yields ts (fun fs => ∀ f ∈ fs, f.value.Drawn ts) (fieldsRemainder n entry) := by
  unfold fieldsRemainder
  refine .bind (.consumePunctuator _) fun b _ => ?_
  split
  · exact .pure hentry
  · refine .current fun t _ => ?_
    split
    · exact .next (.map h.mapFields fun fs hfs => List.forall_mem_append.2 ⟨hentry, hfs⟩)
    · exact .bind (Yields.raise _).discard fun _ _ => .pure hentry

theorem mapFields_succ (h : Drawing ts n) :
    Yields ts (fun fs => ∀ f ∈ fs, f.value.Drawn ts) (Reading.mapFields (n + 1)) := by
  rw [mapFields_eq]
  refine .current fun t _ => ?_
  dsimp only
  split
  · refine .next (.bind (.expectPunctuator _) fun _ _ => .bind h.expectedExpression fun e he => ?_)
    exact h.fieldsRemainder_drawn (by simpa [Field.value] using he)
  · exact h.fieldsRemainder_drawn (by simp)

theorem listItems_succ (h : Drawing ts n) :
    Yields ts (AllDrawn ts) (Reading.listItems (n + 1)) := by
  rw [Reading.listItems]
  refine .bind h.expression fun o ho => .current fun t _ => ?_
  have hitem := allDrawn_toList ho
  split
  · exact .next (.map h.listItems fun ns hns => List.forall_mem_append.2 ⟨hitem, hns⟩)
  · exact .pure hitem

theorem targetRemainder_drawn (h : Drawing ts n) {e : Node} (t : Token) (suffixed : Bool)
    (he : e.Drawn ts) : Yields ts (Node.Drawn ts) (targetRemainder n t suffixed e) := by
  unfold targetRemainder
  refine .current fun v _ => ?_
  split
  · split
    · exact .pure he
    · refine .bind (.extentFrom _) fun _ _ => .pure ?_
      exact .of (by simp) (by simp [Node.operands, he]) (by simp [Node.statements])
  · refine .bind (.expectPunctuator _) fun _ _ => .bind h.expectedExpression fun v hv => ?_
    refine .bind (.extentFrom _) fun _ _ => .pure ?_
    exact .of (by simp) (by simp [Node.operands, he, hv]) (by simp [Node.statements])

theorem statementTail_succ (h : Drawing ts n) {a : Node} (t : Token) (ha : a.Drawn ts) :
    Yields ts (Node.Drawn ts) (Reading.statementTail (n + 1) t a) := by
  rw [statementTail_eq]
  refine .current fun u _ => ?_
  split
  · exact h.binaryTail 0 ha
  · refine .current fun w _ => ?_
    dsimp only
    split
    · exact .bind (h.suffixes ha) fun _ he => h.targetRemainder_drawn t _ he
    · exact h.targetRemainder_drawn t _ ha

theorem assignmentOrCall_succ (h : Drawing ts n) :
    Yields ts (Node.Drawn ts) (Reading.assignmentOrCall (n + 1)) := by
  rw [Reading.assignmentOrCall]
  refine .current fun t _ => ?_
  have hopened : Yields ts (Node.Drawn ts) (do
      let e ← Reading.expectedExpression n
      Reading.statementTail n t e) :=
    .bind h.expectedExpression fun e he => h.statementTail t he
  split
  · exact .bind .identifier fun e he => h.statementTail t he
  · refine .next (.bind h.expectedExpression fun e he => .bind (.expectPunctuator _) fun _ _ => ?_)
    exact h.statementTail t he
  · exact hopened
  · exact hopened
  · split
    · exact hopened
    · exact .raise _

theorem statement_succ (h : Drawing ts n) (inLine : Bool) :
    Yields ts (Drawn? ts) (Reading.statement (n + 1) inLine) := by
  rw [Reading.statement]
  refine .current fun t _ => ?_
  split
  · exact .next (.pure drawn?_none)
  · exact .next (h.ifStatement _).some
  · exact .next (h.returnStatement _ _).some
  · exact .next (h.functionDeclaration _).some
  · exact .next (h.whileStatement _).some
  · exact .next (h.forStatement _).some
  · exact .next (.pure (drawn?_some (.leaf (by simp) rfl rfl)))
  · exact .next (.pure (drawn?_some (.leaf (by simp) rfl rfl)))
  · exact .next (.pure (drawn?_some (.leaf (by simp) rfl rfl)))
  · exact .next (Yields.importStatement _).some
  · exact h.assignmentOrCall.some

theorem block_succ (h : Drawing ts n) : Yields ts (AllDrawn ts) (Reading.block (n + 1)) := by
  rw [Reading.block]
  refine .current fun t _ => ?_
  split
  · exact .pure allDrawn_nil
  · refine .bind (h.statement _) fun o ho => .bind .consumeLineEnd fun _ _ => ?_
    exact .map h.block fun ns hns => List.forall_mem_append.2 ⟨allDrawn_toList ho, hns⟩

theorem lineBody_succ (h : Drawing ts n) : Yields ts (AllDrawn ts) (Reading.lineBody (n + 1)) := by
  rw [Reading.lineBody]
  refine .current fun t _ => ?_
  split
  · exact .pure allDrawn_nil
  · refine .bind (h.statement _) fun o ho => .map h.lineBody fun ns hns => ?_
    exact List.forall_mem_append.2 ⟨allDrawn_toList ho, hns⟩

theorem constructBody_succ (h : Drawing ts n) (k : Keyword) :
    Yields ts (AllDrawn ts) (Reading.constructBody (n + 1) k) := by
  rw [Reading.constructBody]
  refine .current fun t _ => ?_
  split
  · exact .bind h.block fun s hs => .bind (.expectKeyword _) fun _ _ => .pure hs
  · exact .bind h.lineBody fun s hs => .bind (.expectLineBodyEnd _) fun _ _ => .pure hs

theorem elseIfBlocks_succ (h : Drawing ts n) :
    Yields ts (DrawnClauses ts) (Reading.elseIfBlocks (n + 1)) := by
  rw [Reading.elseIfBlocks]
  refine .bind (.consumeKeyword _) fun b _ => ?_
  split
  · refine .previous fun t => .bind h.expectedExpression fun c hc => ?_
    refine .bind (.expectKeyword _) fun _ _ => .bind h.block fun s hs => ?_
    refine .bind (.extentFrom _) fun e _ => .map h.elseIfBlocks fun ks hks => ?_
    exact List.forall_mem_cons.2 ⟨⟨drawn?_some hc, hs⟩, hks⟩
  · exact .pure (by simp [DrawnClauses])

theorem elseBlock_succ (h : Drawing ts n) :
    Yields ts (DrawnClauses ts) (Reading.elseBlock (n + 1)) := by
  rw [Reading.elseBlock]
  refine .bind (.consumeKeyword _) fun b _ => ?_
  split
  · refine .previous fun t => .bind h.block fun s hs => .bind (.extentFrom _) fun _ _ => .pure ?_
    exact List.forall_mem_singleton.2 ⟨drawn?_none, hs⟩
  · exact .pure (by simp [DrawnClauses])

theorem elseIfLines_succ (h : Drawing ts n) :
    Yields ts (DrawnClauses ts) (Reading.elseIfLines (n + 1)) := by
  rw [Reading.elseIfLines]
  refine .bind (.consumeKeyword _) fun b _ => ?_
  split
  · refine .previous fun t => .bind h.expectedExpression fun c hc => ?_
    refine .bind (.expectKeyword _) fun _ _ => .bind h.lineBody fun s hs => ?_
    refine .bind (.extentFrom _) fun e _ => .bind .consumeLineEnd fun _ _ => ?_
    refine .map h.elseIfLines fun ks hks => ?_
    exact List.forall_mem_cons.2 ⟨⟨drawn?_some hc, hs⟩, hks⟩
  · exact .pure (by simp [DrawnClauses])

theorem elseLine_succ (h : Drawing ts n) :
    Yields ts (DrawnClauses ts) (Reading.elseLine (n + 1)) := by
  rw [Reading.elseLine]
  refine .bind (.consumeKeyword _) fun b _ => ?_
  split
  · refine .previous fun t => .bind h.lineBody fun s hs => .bind (.extentFrom _) fun _ _ => ?_
    refine .bind .consumeLineEnd fun _ _ => .pure ?_
    exact List.forall_mem_singleton.2 ⟨drawn?_none, hs⟩
  · exact .pure (by simp [DrawnClauses])

/-- A conditional is drawn from tokens if its clauses are. -/
theorem conditional {e : Extent} {ks : List Clause} (hks : DrawnClauses ts ks) :
    (Node.conditional e ks).Drawn ts := by
  refine .of (by simp) ?_ ?_
  · intro c hc
    obtain ⟨k, hk, hc⟩ := List.mem_flatMap.1 hc
    exact (hks k hk).1 c (Option.mem_toList.1 hc)
  · intro c hc
    obtain ⟨k, hk, hc⟩ := List.mem_flatMap.1 hc
    exact (hks k hk).2 c hc

theorem ifStatement_succ (h : Drawing ts n) (start : Position) :
    Yields ts (Node.Drawn ts) (Reading.ifStatement (n + 1) start) := by
  rw [Reading.ifStatement]
  refine .bind h.expectedExpression fun c hc => .bind (.expectKeyword _) fun _ _ => ?_
  have hclauses : ∀ {e s ks ls}, AllDrawn ts s → DrawnClauses ts ks → DrawnClauses ts ls →
      DrawnClauses ts (.mk e .ifClause (some c) s :: ks ++ ls) := fun hs hks hls =>
    List.forall_mem_append.2 ⟨List.forall_mem_cons.2 ⟨⟨drawn?_some hc, hs⟩, hks⟩, hls⟩
  refine .current fun t _ => ?_
  split
  · refine .bind h.block fun s hs => .bind (.extentFrom _) fun e _ => ?_
    refine .bind h.elseIfBlocks fun ks hks => .bind h.elseBlock fun ls hls => ?_
    refine .bind (.expectKeyword _) fun _ _ => .bind (.extentFrom _) fun _ _ => .pure ?_
    exact conditional (hclauses hs hks hls)
  · refine .bind h.lineBody fun s hs => .bind (.extentFrom _) fun e _ => ?_
    refine .bind .consumeLineEnd fun _ _ => .bind h.elseIfLines fun ks hks => ?_
    refine .bind h.elseLine fun ls hls => .bind (.consumeKeyword _) fun closed _ => ?_
    have hnode : Yields ts (Node.Drawn ts) (do
        return Node.conditional (← Reading.extentFrom start)
          (.mk e .ifClause (some c) s :: ks ++ ls)) :=
      .bind (.extentFrom _) fun _ _ => .pure (conditional (hclauses hs hks hls))
    split
    · exact .bind .consumeLineEnd fun _ _ => hnode
    · exact hnode

theorem whileStatement_succ (h : Drawing ts n) (start : Position) :
    Yields ts (Node.Drawn ts) (Reading.whileStatement (n + 1) start) := by
  rw [Reading.whileStatement]
  refine .bind h.expectedExpression fun c hc => .bind (h.constructBody _) fun s hs => ?_
  refine .bind (.extentFrom _) fun _ _ => .pure ?_
  exact .of (by simp) (by simp [Node.operands, hc]) hs

theorem forStatement_succ (h : Drawing ts n) (start : Position) :
    Yields ts (Node.Drawn ts) (Reading.forStatement (n + 1) start) := by
  rw [Reading.forStatement]
  refine .bind (Yields.consumePunctuator _).discard fun _ _ => .bind .identifier fun v hv => ?_
  refine .bind (.expectKeyword _) fun _ _ => .bind h.expectedExpression fun c hc => ?_
  refine .bind (Yields.consumePunctuator _).discard fun _ _ => ?_
  refine .bind (h.constructBody _) fun s hs => .bind (.extentFrom _) fun _ _ => .pure ?_
  exact .of (by simp) (by simp [Node.operands, hv, hc]) hs

theorem functionDeclaration_succ (h : Drawing ts n) (start : Position) :
    Yields ts (Node.Drawn ts) (Reading.functionDeclaration (n + 1) start) := by
  rw [functionDeclaration_eq]
  have hbody : ∀ (name : Option String) (ps : Except Node (List Parameter)),
      DrawnParameters ts ps → Yields ts (Node.Drawn ts) (functionBody n start name ps) := by
    intro name ps hps
    cases ps with
    | error a => exact .pure hps
    | ok ps =>
      refine .bind (h.constructBody _) fun s hs => .bind (.extentFrom _) fun _ _ => .pure ?_
      refine .of (by simp) ?_ hs
      intro c hc
      obtain ⟨q, hq, hc⟩ := List.mem_flatMap.1 hc
      exact hps q hq c (Option.mem_toList.1 hc)
  have hheader : ∀ name : Option String,
      Yields ts (Node.Drawn ts) (functionRemainder n start name) := by
    intro name
    unfold functionRemainder
    refine .bind (.expectPunctuator _) fun _ _ => .bind (.consumePunctuator _) fun b _ => ?_
    split
    · exact hbody name (.ok []) (by simp [DrawnParameters])
    · exact .bind h.parameters (hbody name)
  refine .current fun t _ => ?_
  dsimp only
  split
  · exact .bind Yields.identifier.discard fun _ _ => hheader _
  · exact hheader _

theorem parameters_succ (h : Drawing ts n) :
    Yields ts (DrawnParameters ts) (Reading.parameters (n + 1)) := by
  rw [parameters_eq]
  refine .current fun t _ => ?_
  split
  · exact .map (.raise _) fun a ha => ha
  · have hrest : ∀ d : Option Node, Drawn? ts d →
        Yields ts (DrawnParameters ts) (parametersRemainder n t d) := by
      intro d hd
      unfold parametersRemainder
      refine .bind (.extentFrom _) fun e _ => .bind (.consumePunctuator _) fun b _ => ?_
      split
      · refine .bind h.parameters fun ps hps => ?_
        cases ps with
        | error a => exact .pure hps
        | ok ps => exact .pure (List.forall_mem_cons.2 ⟨hd, hps⟩)
      · exact .bind (.expectPunctuator _) fun _ _ => .pure (List.forall_mem_singleton.2 hd)
    refine .note (.next (.bind (.consumePunctuator _) fun b _ => ?_))
    split
    · exact .bind h.expectedExpression.some hrest
    · exact hrest none drawn?_none

theorem returnStatement_succ (h : Drawing ts n) (start : Position) (inLine : Bool) :
    Yields ts (Node.Drawn ts) (Reading.returnStatement (n + 1) start inLine) := by
  rw [Reading.returnStatement]
  refine .bind h.expression fun o ho => .bind (.extentFrom _) fun e _ => ?_
  have hnode : (Node.returnStatement e o).Drawn ts :=
    .of (by simp) (allDrawn_toList ho) (by simp [Node.statements])
  dsimp only
  split
  · exact .bind .consumeLineEnd fun _ _ => .pure hnode
  · exact .pure hnode

/-- Under the bound zero nothing is read. -/
theorem zero : Drawing ts 0 := by
  constructor <;> intros <;> exact .exhausted

theorem succ (h : Drawing ts n) : Drawing ts (n + 1) where
  primary := h.primary_succ
  righthand := h.righthand_succ
  callSuffix := h.callSuffix_succ
  suffixes := h.suffixes_succ
  unaryExpression := h.unaryExpression_succ
  binaryTail := h.binaryTail_succ
  operand := h.operand_succ
  subExpression := h.subExpression_succ
  expression := by
    rw [Reading.expression]
    exact h.subExpression 0
  expectedExpression := h.expectedExpression_succ
  compoundAssignment := h.compoundAssignment_succ
  moreArguments := h.moreArguments_succ
  mapFields := h.mapFields_succ
  listItems := h.listItems_succ
  statementTail := h.statementTail_succ
  assignmentOrCall := h.assignmentOrCall_succ
  statement := h.statement_succ
  block := h.block_succ
  lineBody := h.lineBody_succ
  constructBody := h.constructBody_succ
  elseIfBlocks := h.elseIfBlocks_succ
  elseBlock := h.elseBlock_succ
  elseIfLines := h.elseIfLines_succ
  elseLine := h.elseLine_succ
  ifStatement := h.ifStatement_succ
  whileStatement := h.whileStatement_succ
  forStatement := h.forStatement_succ
  functionDeclaration := h.functionDeclaration_succ
  parameters := h.parameters_succ
  returnStatement := h.returnStatement_succ

end Drawing

/-- The productions give trees that are drawn from the tokens ahead. -/
theorem drawing (ts : List Token) (n : Nat) : Drawing ts n := by
  induction n with
  | zero => exact .zero
  | succ n ih => exact ih.succ

theorem chunkBody_yields (n : Nat) : Yields ts (AllDrawn ts) (chunkBody n) := by
  induction n with
  | zero => exact .exhausted
  | succ n ih =>
    rw [chunkBody]
    refine .bind (drawing ts n).block fun body hbody => .current fun t _ => ?_
    split
    · exact .pure hbody
    · refine .bind (.raise _) fun unread hunread => .bind ih fun more hmore => .pure ?_
      exact List.forall_mem_append.2 ⟨hbody, List.forall_mem_cons.2 ⟨hunread, hmore⟩⟩

theorem chunk_yields (n : Nat) : Yields ts (Node.Drawn ts) (chunk n) := by
  unfold chunk
  refine .next (.current fun t _ => .bind (chunkBody_yields n) fun body hbody => ?_)
  refine .current fun u _ => ?_
  intro r s a hr h
  cases h
  exact ⟨hr, .of (by simp) (by simp [Node.operands]) hbody⟩

end Reading

/-- The tree of a source text is drawn from its tokens. -/
theorem parse_chunk_drawn {mode : ReadingMode} {source : String} {p : Parsed}
    (h : parse mode source = .ok p) : p.chunk.Drawn (TokenStream.ofSource mode source).tokens := by
  have hstart : (Reader.ofTokens mode.lenient (TokenStream.ofSource mode source)).Draws
      (TokenStream.ofSource mode source).tokens := by
    intro t ht hk
    rcases List.mem_cons.1 ht with rfl | ht
    · cases hk
    · exact ht
  unfold parse TokenStream.parse at h
  dsimp only at h
  split at h
  next hparse =>
    split at hparse
    next hchunk =>
      cases hparse
      cases h
      exact (Reading.chunk_yields _ hstart hchunk).2
    · cases hparse
  · cases h
  · cases h

/-- Every string literal in the tree of a source text is the literal of one of its tokens. -/
theorem parse_drawn {mode : ReadingMode} {source : String} {p : Parsed}
    (h : parse mode source = .ok p) :
    p.chunk.Everywhere (Node.IsDrawn (TokenStream.ofSource mode source).tokens) :=
  Node.Everywhere.mono (fun _ hn => hn.1) (parse_chunk_drawn h)

/-- Every member in the tree of a source text has a name, or text that was passed over. -/
theorem parse_names_members {mode : ReadingMode} {source : String} {p : Parsed}
    (h : parse mode source = .ok p) : p.chunk.Everywhere Node.NamesMember :=
  Node.Everywhere.mono (fun _ hn => hn.2) (parse_chunk_drawn h)

end LineScript
