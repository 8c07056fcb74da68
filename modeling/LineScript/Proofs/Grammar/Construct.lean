import LineScript.Proofs.Grammar.Header

/-!
# Reading a construct behind its header

A statement that begins with a header reads the header and goes on with the body. What the body is
depends on the first token behind the header, which no part of the header may take.
-/

namespace LineScript

/-- A token that does not continue an expression in front of it. -/
structure Token.IsApart (t : Token) : Prop where
  operator : BinaryOperator.ofToken? t = none
  punctuator : ∀ q, t.kind ≠ .punctuator q

theorem Token.IsApart.isPunctuator {t : Token} (h : t.IsApart) (q : Punctuator) :
    t.isPunctuator q = false := by
  simp [Token.isPunctuator, h.punctuator q]

namespace Reading

variable {lenient : Bool} {t u previous : Token} {rest : List Token} {stop : Option LexError}
  {errors : List ParseError} {names : List String}

theorem suffixes_apart (n : Nat) (e : Node) {r : Reader} (hr : r.current.IsApart) :
    suffixes (n + 1) e r = .ok e r := by
  rw [suffixes, current_bind]
  cases hk : r.current.kind with
  | punctuator q => exact absurd hk (hr.punctuator q)
  | _ => rfl

theorem binaryTail_apart (n : Nat) (e : Node) (bound : Nat) {r : Reader} (hr : r.current.IsApart) :
    binaryTail (n + 1) e bound r = .ok e r := by
  rw [binaryTail, current_bind, hr.operator]
  rfl

theorem advance_cons :
    advance ⟨lenient, t, previous, u :: rest, stop, errors, names⟩ =
      .ok () ⟨lenient, u, t, rest, stop, errors, names⟩ := rfl

theorem expectKeyword_met {k : Keyword} (ht : t.kind = .keyword k) :
    expectKeyword k ⟨lenient, t, previous, u :: rest, stop, errors, names⟩ =
      .ok () ⟨lenient, u, t, rest, stop, errors, names⟩ := by
  unfold expectKeyword consumeKeyword
  rw [bind_apply, current_bind]
  simp only [Token.isKeyword, ht, beq_self_eq_true, if_true]
  rfl

/-- Moving over a word, if it is the current token. -/
theorem consumeKeyword_ok {k : Keyword} {r s : Reader} {b : Bool}
    (h : consumeKeyword k r = .ok b s) :
    b = true ∧ r.current.isKeyword k = true ∧ r.step = .ok s ∨
      b = false ∧ r.current.isKeyword k = false ∧ s = r := by
  unfold consumeKeyword at h
  rw [current_bind] at h
  cases hk : r.current.isKeyword k with
  | true =>
    rw [hk, if_pos rfl] at h
    obtain ⟨_, t, ht, h⟩ := bind_eq_ok.1 h
    cases h
    exact .inl ⟨rfl, rfl, advance_ok ht⟩
  | false =>
    rw [hk] at h
    cases h
    exact .inr ⟨rfl, rfl, rfl⟩

theorem consumeKeyword_of_step {k : Keyword} {r s : Reader} (hk : r.current.isKeyword k = true)
    (hs : r.step = .ok s) : consumeKeyword k r = .ok true s := by
  unfold consumeKeyword
  rw [current_bind, hk, if_pos rfl, bind_apply, advance_of_step hs]
  rfl

theorem consumeKeyword_of_not {k : Keyword} {r : Reader} (hk : r.current.isKeyword k = false) :
    consumeKeyword k r = .ok false r := by
  unfold consumeKeyword
  rw [current_bind, hk]
  rfl

/-- A strict reading goes on behind a word that has to be there if and only if it is there. -/
theorem expectKeyword_strict {k : Keyword} {r s : Reader} {u : Unit} (hr : r.lenient = false) :
    expectKeyword k r = .ok u s ↔ r.current.isKeyword k = true ∧ r.step = .ok s := by
  unfold expectKeyword
  constructor
  · intro h
    obtain ⟨b, t, hb, ht⟩ := bind_eq_ok.1 h
    obtain ⟨rfl, hk, hs⟩ | ⟨rfl, _, rfl⟩ := consumeKeyword_ok hb
    · cases ht
      exact ⟨hk, hs⟩
    · simp only [Bool.not_false, if_true, discard_eq] at ht
      obtain ⟨_, _, hraise, _⟩ := bind_eq_ok.1 ht
      rw [raise_strict hr] at hraise
      cases hraise
  · rintro ⟨hk, hs⟩
    rw [bind_apply, consumeKeyword_of_step hk hs]
    rfl

theorem consumePunctuator_met {q : Punctuator} (ht : t.kind = .punctuator q) :
    consumePunctuator q ⟨lenient, t, previous, u :: rest, stop, errors, names⟩ =
      .ok true ⟨lenient, u, t, rest, stop, errors, names⟩ := by
  unfold consumePunctuator
  rw [current_bind]
  simp only [Token.isPunctuator, ht, beq_self_eq_true, if_true]
  rfl

theorem expectPunctuator_met {q : Punctuator} (ht : t.kind = .punctuator q) :
    expectPunctuator q ⟨lenient, t, previous, u :: rest, stop, errors, names⟩ =
      .ok () ⟨lenient, u, t, rest, stop, errors, names⟩ := by
  unfold expectPunctuator
  rw [bind_apply, consumePunctuator_met ht]
  rfl

theorem consumePunctuator_apart (q : Punctuator) {r : Reader} (hr : r.current.IsApart) :
    discard (consumePunctuator q) r = .ok () r := by
  unfold consumePunctuator
  rw [discard_eq, bind_apply, current_bind, hr.isPunctuator q]
  rfl

/-- The names met, with one more. -/
def noted (names : List String) (name : String) : List String :=
  if names.contains name then names else names ++ [name]

theorem identifier_name (ht : t.kind = .identifier) :
    identifier ⟨lenient, t, previous, u :: rest, stop, errors, names⟩ =
      .ok (.identifier t.extent t.value)
        ⟨lenient, u, t, rest, stop, errors, noted names t.value⟩ := by
  unfold identifier noted
  rw [current_bind]
  simp only [Token.isIdentifier, ht, beq_self_eq_true, if_true]
  rw [bind_apply, show ∀ r : Reader, note t.value r = .ok () (r.note t.value) from fun _ => rfl]
  simp only [Reader.note]
  split <;> rfl

/-- A name that nothing continues is an expression. -/
theorem expectedExpression_name (n : Nat) (ht : t.kind = .identifier) (hu : u.IsApart) :
    expectedExpression (n + 6) ⟨lenient, t, previous, u :: rest, stop, errors, names⟩ =
      .ok (.identifier t.extent t.value)
        ⟨lenient, u, t, rest, stop, errors, noted names t.value⟩ := by
  have hunary : UnaryOperator.ofToken? t = none := by simp [UnaryOperator.ofToken?, ht]
  have hprimary : primary (n + 2) ⟨lenient, t, previous, u :: rest, stop, errors, names⟩ =
      .ok none ⟨lenient, t, previous, u :: rest, stop, errors, names⟩ := by
    rw [primary, current_bind]
    simp only [Token.isLiteral, Token.isValueLiteral, ht]
    rfl
  have hright : righthand (n + 2) ⟨lenient, t, previous, u :: rest, stop, errors, names⟩ =
      .ok (some (.identifier t.extent t.value))
        ⟨lenient, u, t, rest, stop, errors, noted names t.value⟩ := by
    rw [righthand, current_bind]
    simp only [ht]
    rw [bind_apply, identifier_name ht]
    simp only [map_eq_pure_bind]
    rw [bind_apply, suffixes_apart n _ hu]
    rfl
  rw [expectedExpression, bind_apply, expression, subExpression, current_bind]
  simp only [hunary]
  rw [bind_apply, operand, bind_apply, hprimary]
  simp only [hright, map_eq_pure_bind]
  rw [bind_apply, binaryTail_apart (n + 2) _ 0 hu]
  rfl

theorem not_endsBlock_of_isEndOfLine (ht : t.isEndOfLine = true) : t.endsBlock = false := by
  have ht : t.kind = .endOfLine := by simpa [Token.isEndOfLine] using ht
  simp [Token.endsBlock, ht]

/-- A block goes on behind an empty line, and moves over the end of the next line with it. -/
theorem block_emptyLine_succ (n : Nat) {r r₁ : Reader} (heol : r.current.isEndOfLine = true)
    (hstep : r.step = .ok r₁) :
    block (n + 2) r = (consumeLineEnd >>= fun _ => block (n + 1)) r₁ := by
  have hk : r.current.kind = .endOfLine := by simpa [Token.isEndOfLine] using heol
  have hstatement : statement (n + 1) false r = .ok none r₁ := by
    rw [statement, current_bind]
    simp only [hk]
    rw [bind_apply, advance_of_step hstep]
    rfl
  rw [block, current_bind, not_endsBlock_of_isEndOfLine heol]
  simp only [Bool.false_eq_true, if_false]
  rw [bind_apply, hstatement]
  simp only [Option.toList_none, List.nil_append, id_map']

theorem consumeLineEnd_of_not {r : Reader} (h : r.current.isEndOfLine = false) :
    consumeLineEnd r = .ok () r := by
  unfold consumeLineEnd
  rw [current_bind, h]
  rfl

theorem consumeLineEnd_ok {r s : Reader} {u : Unit} (heol : r.current.isEndOfLine = true)
    (h : consumeLineEnd r = .ok u s) : r.step = .ok s := by
  unfold consumeLineEnd at h
  rw [current_bind, if_pos heol] at h
  exact advance_ok h

theorem consumeLineEnd_of_step {r s : Reader} (heol : r.current.isEndOfLine = true)
    (h : r.step = .ok s) : consumeLineEnd r = .ok () s := by
  unfold consumeLineEnd
  rw [current_bind, if_pos heol, advance_of_step h]

theorem block_emptyLine_step {n : Nat} {r s : Reader} {a : List Node}
    (heol : r.current.isEndOfLine = true) (h : block n r = .ok a s) : ∃ r₁, r.step = .ok r₁ := by
  have hk : r.current.kind = .endOfLine := by simpa [Token.isEndOfLine] using heol
  obtain _ | _ | n := n
  · cases h
  · rw [block, current_bind, not_endsBlock_of_isEndOfLine heol] at h
    cases h
  · rw [block, current_bind, not_endsBlock_of_isEndOfLine heol] at h
    obtain ⟨_, t, hstatement, _⟩ := bind_eq_ok.1 h
    rw [statement, current_bind] at hstatement
    simp only [hk] at hstatement
    obtain ⟨_, u, hu, _⟩ := bind_eq_ok.1 hstatement
    exact ⟨u, advance_ok hu⟩

theorem block_emptyLine_aux (n : Nat) {r r₁ s : Reader} {a : List Node}
    (heol : r.current.isEndOfLine = true) (hstep : r.step = .ok r₁) :
    (block n r = .ok a s → ∃ m, block m r₁ = .ok a s) ∧
      (block n r₁ = .ok a s → ∃ m, block m r = .ok a s) := by
  -- An empty line takes the end of the next one along, so the two directions need each other.
  induction n generalizing r r₁ with
  | zero =>
    constructor
    · intro h
      cases h
    · intro h
      cases h
  | succ n ih =>
    have into : ∀ {r r₁ : Reader}, r.current.isEndOfLine = true → r.step = .ok r₁ →
        block (n + 1) r = .ok a s → ∃ m, block m r₁ = .ok a s := by
      intro r r₁ heol hstep h
      cases n with
      | zero =>
        rw [block, current_bind, not_endsBlock_of_isEndOfLine heol] at h
        cases h
      | succ n =>
        rw [block_emptyLine_succ n heol hstep] at h
        obtain ⟨_, r₂, hline, h₂⟩ := bind_eq_ok.1 h
        cases h₁ : r₁.current.isEndOfLine with
        | false =>
          rw [consumeLineEnd_of_not h₁] at hline
          cases hline
          exact ⟨n + 1, h₂⟩
        | true => exact (ih h₁ (consumeLineEnd_ok h₁ hline)).2 h₂
    refine ⟨into heol hstep, fun h => ?_⟩
    cases h₁ : r₁.current.isEndOfLine with
    | false =>
      refine ⟨n + 2, ?_⟩
      rw [block_emptyLine_succ n heol hstep, bind_apply, consumeLineEnd_of_not h₁]
      exact h
    | true =>
      obtain ⟨r₂, hstep₂⟩ := block_emptyLine_step h₁ h
      obtain ⟨m, hm⟩ := into h₁ hstep₂ h
      refine ⟨m + 2, ?_⟩
      rw [block_emptyLine_succ m heol hstep, bind_apply, consumeLineEnd_of_step h₁ hstep₂]
      exact block_mono (Nat.le_succ m) hm

/-- An empty line in front changes nothing. -/
theorem block_emptyLine {r r₁ s : Reader} {a : List Node} (heol : r.current.isEndOfLine = true)
    (hstep : r.step = .ok r₁) :
    (∃ n, block n r = .ok a s) ↔ ∃ n, block n r₁ = .ok a s :=
  ⟨fun ⟨n, h⟩ => (block_emptyLine_aux n heol hstep).1 h,
    fun ⟨n, h⟩ => (block_emptyLine_aux n heol hstep).2 h⟩

/-- A statement up to the end of the source is a block. -/
theorem block_last {n : Nat} {r s : Reader} {node : Node} (hr : r.current.endsBlock = false)
    (h : statement (n + 1) false r = .ok (some node) s) (hs : s.current.isEndOfFile = true) :
    block (n + 2) r = .ok [node] s := by
  have hk : s.current.kind = .endOfFile := by simpa [Token.isEndOfFile] using hs
  have hline : s.current.isEndOfLine = false := by simp [Token.isEndOfLine, hk]
  have hend : block (n + 1) s = .ok [] s := by
    rw [block, current_bind, show s.current.endsBlock = true by simp [Token.endsBlock, hk]]
    rfl
  rw [block, current_bind, hr]
  simp only [Bool.false_eq_true, if_false]
  rw [bind_apply, h]
  simp only
  rw [bind_apply, consumeLineEnd_of_not hline]
  simp only [map_eq_pure_bind]
  rw [bind_apply, hend]
  rfl

theorem map_apply_congr {α β : Type} {f : α → β} {x y : Reading α} {r s : Reader} (h : x r = y s) :
    (f <$> x) r = (f <$> y) s := by
  simp only [map_eq_pure_bind]
  rw [bind_apply, bind_apply, h]

/-- Reads what is behind the condition of a conditional. -/
def conditionalRemainder (n : Nat) (start : Position) (condition : Node) : Reading Node := do
  if (← current).isEndOfLine then
    let body ← block n
    let first := Clause.mk (← extentFrom start) .ifClause (some condition) body
    let more ← elseIfBlocks n
    let last ← elseBlock n
    expectKeyword .endIf
    return .conditional (← extentFrom start) (first :: more ++ last)
  else
    let body ← lineBody n
    let first := Clause.mk (← extentFrom start) .ifClause (some condition) body
    consumeLineEnd
    let more ← elseIfLines n
    let last ← elseLine n
    if !(← consumeKeyword .endIf) then consumeLineEnd
    return .conditional (← extentFrom start) (first :: more ++ last)

end Reading

namespace Header

open Reading

/-- The places of the names in a header. -/
abbrev Places := Extent × Extent

/-- The statement that the header of a loop or a function makes with a body. -/
def enclose (places : Places) (extent : Extent) (body : List Node) : Header → Node
  | conditional c =>
    .conditional extent [.mk extent .ifClause (some (.identifier places.1 c)) body]
  | whileLoop c => .whileLoop extent (.identifier places.1 c) body
  | forLoop v c => .forLoop extent (.identifier places.1 v) (.identifier places.2 c) body
  | function f => .function extent (some f) [] body

/-- Reads what is behind a header. -/
def remainder (places : Places) (start : Position) (n : Nat) : Header → Reading Node
  | conditional c => conditionalRemainder n start (.identifier places.1 c)
  | h => do
    let body ← constructBody n h.closing
    return h.enclose places (← extentFrom start) body

variable {n : Nat} {u : Token} {ts more : List Token}

section

variable {lenient : Bool} {t t₂ t₃ t₄ previous : Token} {stop : Option LexError}
  {errors : List ParseError} {names : List String} {start : Position}

/-- Reads what is behind the word that a header begins with. -/
def production (start : Position) (n : Nat) : Header → Reading Node
  | conditional _ => ifStatement n start
  | whileLoop _ => whileStatement n start
  | forLoop _ _ => forStatement n start
  | function _ => functionDeclaration n start

/-- A header begins with the word of its production. -/
theorem statement_word (h : Header) (ht : h.tokens.head?.map Prod.fst = some t.kind)
    (inLine : Bool) :
    statement (n + 1) inLine ⟨lenient, t, previous, u :: more, stop, errors, names⟩ =
      (some <$> h.production t.start n) ⟨lenient, u, t, more, stop, errors, names⟩ := by
  rw [statement, current_bind]
  cases h <;>
  · simp only [tokens, List.head?_cons, Option.map_some, Option.some.injEq] at ht
    simp only [← ht]
    rw [bind_apply, advance_cons, production]

theorem ifStatement_name (h₂ : t₂.kind = .identifier) (h₃ : t₃.kind = .keyword .thenWord) :
    ifStatement (n + 8) start ⟨lenient, t₂, previous, t₃ :: u :: more, stop, errors, names⟩ =
      conditionalRemainder (n + 7) start (.identifier t₂.extent t₂.value)
        ⟨lenient, u, t₃, more, stop, errors, noted names t₂.value⟩ := by
  have h₃apart : t₃.IsApart := ⟨by simp [BinaryOperator.ofToken?, h₃], by simp [h₃]⟩
  rw [ifStatement, bind_apply, expectedExpression_name (n + 1) h₂ h₃apart]
  simp only
  rw [bind_apply, expectKeyword_met h₃]
  rfl

theorem whileStatement_name (h₂ : t₂.kind = .identifier) (hu : u.IsApart) :
    whileStatement (n + 8) start ⟨lenient, t₂, previous, u :: more, stop, errors, names⟩ =
      (whileLoop t₂.value).remainder (t₂.extent, t₂.extent) start (n + 7)
        ⟨lenient, u, t₂, more, stop, errors, noted names t₂.value⟩ := by
  rw [whileStatement, bind_apply, expectedExpression_name (n + 1) h₂ hu]
  rfl

theorem forStatement_names (h₂ : t₂.kind = .identifier) (h₃ : t₃.kind = .keyword .inWord)
    (h₄ : t₄.kind = .identifier) (hu : u.IsApart) :
    forStatement (n + 8) start
        ⟨lenient, t₂, previous, t₃ :: t₄ :: u :: more, stop, errors, names⟩ =
      (forLoop t₂.value t₄.value).remainder (t₂.extent, t₄.extent) start (n + 7)
        ⟨lenient, u, t₄, more, stop, errors, noted (noted names t₂.value) t₄.value⟩ := by
  have h₂apart : t₂.IsApart := ⟨by simp [BinaryOperator.ofToken?, h₂], by simp [h₂]⟩
  rw [forStatement, bind_apply, consumePunctuator_apart _ h₂apart]
  simp only
  rw [bind_apply, identifier_name h₂]
  simp only
  rw [bind_apply, expectKeyword_met h₃]
  simp only
  rw [bind_apply, expectedExpression_name (n + 1) h₄ hu]
  simp only
  rw [bind_apply, consumePunctuator_apart _ hu]
  rfl

theorem functionDeclaration_name (h₂ : t₂.kind = .identifier)
    (h₃ : t₃.kind = .punctuator .parenOpen) (h₄ : t₄.kind = .punctuator .parenClose) :
    functionDeclaration (n + 8) start
        ⟨lenient, t₂, previous, t₃ :: t₄ :: u :: more, stop, errors, names⟩ =
      (function t₂.value).remainder (t₂.extent, t₂.extent) start (n + 7)
        ⟨lenient, u, t₄, more, stop, errors, noted names t₂.value⟩ := by
  have hident : t₂.isIdentifier = true := by simp [Token.isIdentifier, h₂]
  rw [functionDeclaration, current_bind]
  simp only [hident, if_true]
  rw [discard_eq, bind_assoc, bind_apply, identifier_name h₂]
  simp only [pure_bind]
  rw [bind_apply, expectPunctuator_met h₃]
  simp only
  rw [bind_apply, consumePunctuator_met h₄]
  rfl

end

/-- A statement that begins with a header goes on with the body behind it. -/
theorem statement_header (h : Header) (ht : ts.map (fun t => (t.kind, t.value)) = h.tokens)
    (hu : u.IsApart) {r : Reader} (hr : r.current :: r.rest = ts ++ u :: more) :
    ∃ places previous names, ∀ n inLine, statement (n + 9) inLine r =
      (some <$> h.remainder places r.current.start (n + 7))
        ⟨r.lenient, u, previous, more, r.stop, r.errors, names⟩ := by
  obtain ⟨lenient, current, previous, rest, stop, errors, names⟩ := r
  dsimp only at hr ⊢
  have hword : h.tokens.head?.map Prod.fst = ts.head?.map Token.kind := by
    rw [← ht, List.head?_map, Option.map_map]
    rfl
  cases h with
  | conditional c =>
    obtain ⟨t₁, _, rfl, -, ht⟩ := List.map_eq_cons_iff.1 ht
    obtain ⟨t₂, _, rfl, h₂, ht⟩ := List.map_eq_cons_iff.1 ht
    obtain ⟨t₃, _, rfl, h₃, ht⟩ := List.map_eq_cons_iff.1 ht
    obtain rfl := List.map_eq_nil_iff.1 ht
    obtain ⟨k₂, rfl⟩ := Prod.mk.inj h₂
    obtain ⟨k₃, -⟩ := Prod.mk.inj h₃
    obtain ⟨rfl, rfl⟩ := List.cons.inj hr
    exact ⟨(t₂.extent, t₂.extent), t₃, _, fun n inLine =>
      (statement_word (conditional _) hword inLine).trans
        (map_apply_congr (ifStatement_name k₂ k₃))⟩
  | whileLoop c =>
    obtain ⟨t₁, _, rfl, -, ht⟩ := List.map_eq_cons_iff.1 ht
    obtain ⟨t₂, _, rfl, h₂, ht⟩ := List.map_eq_cons_iff.1 ht
    obtain rfl := List.map_eq_nil_iff.1 ht
    obtain ⟨k₂, rfl⟩ := Prod.mk.inj h₂
    obtain ⟨rfl, rfl⟩ := List.cons.inj hr
    exact ⟨(t₂.extent, t₂.extent), t₂, _, fun n inLine =>
      (statement_word (whileLoop _) hword inLine).trans
        (map_apply_congr (whileStatement_name k₂ hu))⟩
  | forLoop v c =>
    obtain ⟨t₁, _, rfl, -, ht⟩ := List.map_eq_cons_iff.1 ht
    obtain ⟨t₂, _, rfl, h₂, ht⟩ := List.map_eq_cons_iff.1 ht
    obtain ⟨t₃, _, rfl, h₃, ht⟩ := List.map_eq_cons_iff.1 ht
    obtain ⟨t₄, _, rfl, h₄, ht⟩ := List.map_eq_cons_iff.1 ht
    obtain rfl := List.map_eq_nil_iff.1 ht
    obtain ⟨k₂, rfl⟩ := Prod.mk.inj h₂
    obtain ⟨k₃, -⟩ := Prod.mk.inj h₃
    obtain ⟨k₄, rfl⟩ := Prod.mk.inj h₄
    obtain ⟨rfl, rfl⟩ := List.cons.inj hr
    exact ⟨(t₂.extent, t₄.extent), t₄, _, fun n inLine =>
      (statement_word (forLoop _ _) hword inLine).trans
        (map_apply_congr (forStatement_names k₂ k₃ k₄ hu))⟩
  | function f =>
    obtain ⟨t₁, _, rfl, -, ht⟩ := List.map_eq_cons_iff.1 ht
    obtain ⟨t₂, _, rfl, h₂, ht⟩ := List.map_eq_cons_iff.1 ht
    obtain ⟨t₃, _, rfl, h₃, ht⟩ := List.map_eq_cons_iff.1 ht
    obtain ⟨t₄, _, rfl, h₄, ht⟩ := List.map_eq_cons_iff.1 ht
    obtain rfl := List.map_eq_nil_iff.1 ht
    obtain ⟨k₂, rfl⟩ := Prod.mk.inj h₂
    obtain ⟨k₃, -⟩ := Prod.mk.inj h₃
    obtain ⟨k₄, -⟩ := Prod.mk.inj h₄
    obtain ⟨rfl, rfl⟩ := List.cons.inj hr
    exact ⟨(t₂.extent, t₂.extent), t₄, _, fun n inLine =>
      (statement_word (function _) hword inLine).trans
        (map_apply_congr (functionDeclaration_name k₂ k₃ k₄))⟩

theorem elseIfBlocks_nil {r s : Reader} (h : elseIfBlocks n r = .ok [] s) :
    r.current.isKeyword .elseIfWord = false ∧ s = r := by
  cases n with
  | zero => cases h
  | succ n =>
    rw [elseIfBlocks] at h
    obtain ⟨b, t, hb, ht⟩ := bind_eq_ok.1 h
    obtain ⟨rfl, hk, hs⟩ | ⟨rfl, hk, rfl⟩ := consumeKeyword_ok hb
    · rw [if_pos rfl] at ht
      obtain ⟨_, _, _, h⟩ := bind_eq_ok.1 ht
      obtain ⟨_, _, _, h⟩ := bind_eq_ok.1 h
      obtain ⟨_, _, _, h⟩ := bind_eq_ok.1 h
      obtain ⟨_, _, _, h⟩ := bind_eq_ok.1 h
      obtain ⟨_, _, _, h⟩ := bind_eq_ok.1 h
      rw [map_eq_pure_bind] at h
      obtain ⟨_, _, _, h⟩ := bind_eq_ok.1 h
      cases h
    · cases ht
      exact ⟨hk, rfl⟩

theorem elseBlock_nil {r s : Reader} (h : elseBlock n r = .ok [] s) :
    r.current.isKeyword .elseWord = false ∧ s = r := by
  cases n with
  | zero => cases h
  | succ n =>
    rw [elseBlock] at h
    obtain ⟨b, t, hb, ht⟩ := bind_eq_ok.1 h
    obtain ⟨rfl, hk, hs⟩ | ⟨rfl, hk, rfl⟩ := consumeKeyword_ok hb
    · rw [if_pos rfl] at ht
      obtain ⟨_, _, _, h⟩ := bind_eq_ok.1 ht
      obtain ⟨_, _, _, h⟩ := bind_eq_ok.1 h
      obtain ⟨_, _, _, h⟩ := bind_eq_ok.1 h
      cases h
    · cases ht
      exact ⟨hk, rfl⟩

theorem elseIfBlocks_of_not {r : Reader} (h : r.current.isKeyword .elseIfWord = false) :
    elseIfBlocks (n + 1) r = .ok [] r := by
  rw [elseIfBlocks, bind_apply, consumeKeyword_of_not h]
  rfl

theorem elseBlock_of_not {r : Reader} (h : r.current.isKeyword .elseWord = false) :
    elseBlock (n + 1) r = .ok [] r := by
  rw [elseBlock, bind_apply, consumeKeyword_of_not h]
  rfl

variable {places : Places} {start : Position} {r s : Reader} {body : List Node} {node : Node}

theorem extentFrom_apply : extentFrom start r = .ok ⟨start, r.previous.stop⟩ r := rfl

theorem extentFrom_ok {e : Extent} (h : extentFrom start r = .ok e s) : s = r := by
  cases h
  rfl

theorem constructBody_block {k : Keyword} (hr : r.lenient = false)
    (heol : r.current.isEndOfLine = true) (hok : constructBody n k r = .ok body s) :
    ∃ m r', block m r = .ok body r' ∧ r'.current.isKeyword k = true ∧ r'.step = .ok s := by
  cases n with
  | zero => cases hok
  | succ n =>
    rw [constructBody, current_bind, if_pos heol] at hok
    obtain ⟨body', r', hblock, hok'⟩ := bind_eq_ok.1 hok
    obtain ⟨_, s', hend, hs⟩ := bind_eq_ok.1 hok'
    cases hs
    have hr' : r'.lenient = false :=
      ((Advances.of_built (built n).block _ _ _ hblock).lenient).trans hr
    obtain ⟨hk, hstep⟩ := (expectKeyword_strict hr').1 hend
    exact ⟨n, r', hblock, hk, hstep⟩

theorem enclose_eq {e : Extent} {body' : List Node} (h : Header)
    (hb : h.Encloses body (h.enclose places e body')) : body' = body := by
  cases h with
  | conditional c =>
    obtain ⟨_, _, _, h⟩ := hb
    cases h
    rfl
  | whileLoop c =>
    obtain ⟨_, _, h⟩ := hb
    cases h
    rfl
  | forLoop v c =>
    obtain ⟨_, _, _, h⟩ := hb
    cases h
    rfl
  | function f =>
    obtain ⟨_, h⟩ := hb
    cases h
    rfl

/-- A construct whose body is on lines of its own ends with its closing word. -/
theorem remainder_block (h : Header) (hr : r.lenient = false) (heol : r.current.isEndOfLine = true)
    (hok : h.remainder places start n r = .ok node s) (hbody : h.Encloses body node) :
    ∃ m r', block m r = .ok body r' ∧ r'.current.isKeyword h.closing = true ∧
      r'.step = .ok s := by
  have plain : ∀ k, k = h.closing → (do
      let body ← constructBody n k
      return h.enclose places (← extentFrom start) body) r = .ok node s →
      ∃ m r', block m r = .ok body r' ∧ r'.current.isKeyword h.closing = true ∧
        r'.step = .ok s := by
    rintro _ rfl hok
    obtain ⟨body', s', hc, hok'⟩ := bind_eq_ok.1 hok
    cases hok'
    obtain rfl := enclose_eq h hbody
    exact constructBody_block hr heol hc
  cases h with
  | conditional c =>
    obtain ⟨e, e₁, e₂, rfl⟩ := hbody
    rw [remainder, conditionalRemainder, current_bind, if_pos heol] at hok
    obtain ⟨body', r₁, hblock, hok₁⟩ := bind_eq_ok.1 hok
    obtain ⟨_, r₂, hext, hok₂⟩ := bind_eq_ok.1 hok₁
    obtain rfl := extentFrom_ok hext
    obtain ⟨more, r₃, hmore, hok₃⟩ := bind_eq_ok.1 hok₂
    obtain ⟨last, r₄, hlast, hok₄⟩ := bind_eq_ok.1 hok₃
    obtain ⟨_, r₅, hend, hok₅⟩ := bind_eq_ok.1 hok₄
    have hr₁ : r₂.lenient = false :=
      ((Advances.of_built (built n).block _ _ _ hblock).lenient).trans hr
    obtain ⟨_, r₆, hext', hok₆⟩ := bind_eq_ok.1 hok₅
    obtain rfl := extentFrom_ok hext'
    cases more with
    | nil =>
      obtain ⟨_, rfl⟩ := elseIfBlocks_nil hmore
      cases last with
      | nil =>
        obtain ⟨_, rfl⟩ := elseBlock_nil hlast
        obtain ⟨hk, hstep⟩ := (expectKeyword_strict hr₁).1 hend
        cases hok₆
        exact ⟨n, _, hblock, hk, hstep⟩
      | cons c cs => cases hok₆
    | cons c cs => cases hok₆
  | whileLoop c => exact plain _ rfl hok
  | forLoop v c => exact plain _ rfl hok
  | function f => exact plain _ rfl hok

/-- A body on lines of its own, up to the closing word, makes a construct. -/
theorem remainder_of_block (h : Header) (places : Places) (start : Position)
    (hr : r.lenient = false) (heol : r.current.isEndOfLine = true) {r' : Reader}
    (hblock : block n r = .ok body r')
    (hk : r'.current.isKeyword h.closing = true) (hstep : r'.step = .ok s) :
    ∃ node, h.remainder places start (n + 1) r = .ok node s ∧ h.Encloses body node := by
  have hr' : r'.lenient = false :=
    ((Advances.of_built (built n).block _ _ _ hblock).lenient).trans hr
  have hend := (expectKeyword_strict (u := ()) hr').2 ⟨hk, hstep⟩
  have plain : constructBody (n + 1) h.closing r = .ok body s := by
    rw [constructBody, current_bind, if_pos heol, bind_apply, hblock]
    simp only
    rw [bind_apply, hend]
    rfl
  cases h with
  | conditional c =>
    have hk' : r'.current.kind = .keyword .endIf := by simpa [Token.isKeyword, closing] using hk
    refine ⟨.conditional ⟨start, s.previous.stop⟩ [.mk ⟨start, r'.previous.stop⟩ .ifClause
      (some (.identifier places.1 c)) body], ?_, _, _, _, rfl⟩
    rw [remainder, conditionalRemainder, current_bind, if_pos heol, bind_apply,
      block_mono (Nat.le_succ n) hblock]
    simp only
    rw [bind_apply, extentFrom_apply]
    simp only
    rw [bind_apply, elseIfBlocks_of_not (by simp [Token.isKeyword, hk'])]
    simp only
    rw [bind_apply, elseBlock_of_not (by simp [Token.isKeyword, hk'])]
    simp only
    rw [bind_apply, show expectKeyword .endIf r' = .ok () s from hend]
    rfl
  | whileLoop c =>
    refine ⟨.whileLoop ⟨start, s.previous.stop⟩ (.identifier places.1 c) body, ?_, _, _, rfl⟩
    rw [remainder, bind_apply, plain]
    · rfl
    · simp
  | forLoop v c =>
    refine ⟨.forLoop ⟨start, s.previous.stop⟩ (.identifier places.1 v) (.identifier places.2 c)
      body, ?_, _, _, _, rfl⟩
    rw [remainder, bind_apply, plain]
    · rfl
    · simp
  | function f =>
    refine ⟨.function ⟨start, s.previous.stop⟩ (some f) [] body, ?_, _, rfl⟩
    rw [remainder, bind_apply, plain]
    · rfl
    · simp

theorem not_endsBlock (h : Header) {t : Token}
    (ht : (t :: ts).map (fun t => (t.kind, t.value)) = h.tokens) : t.endsBlock = false := by
  cases h <;>
  · simp only [tokens, List.map_cons] at ht
    obtain ⟨ht, _⟩ := List.cons.inj ht
    obtain ⟨ht, _⟩ := Prod.mk.inj ht
    simp [Token.endsBlock, ht, Keyword.closesBlock]

end Header

end LineScript
