import LineScript.Proofs.Grammar.Names
import LineScript.Proofs.Grammar.Parenthesis
import LineScript.Proofs.Token.Fragments

/-!
# Compound assignments

A compound assignment is read by the loop that reads suffixes, its expansion by the assignment
branch of a statement, by climbing precedences and by reading a group in parentheses. Both come to
the same tree. The target may be any access chain and the value any expression without functions, on
any number of lines. Only a comment may not end the value, because it would swallow the parenthesis
behind it.
-/

namespace LineScript

open Reading (Encloses Gives)

/-- The tokens of a name with members and indices behind it, and its node. -/
inductive IsAccess : List Token → Node → Prop where
  | name {t : Token} (ht : t.kind = .identifier) : IsAccess [t] (.identifier t.extent t.value)
  | member {ts : List Token} {a : Node} {point t : Token} (h : IsAccess ts a)
      (hpoint : point.kind = .punctuator .dot) (ht : t.kind = .identifier) :
      IsAccess (ts ++ [point, t]) (.member ⟨a.start, t.stop⟩ a (.identifier t.extent t.value))
  | index {ts inside : List Token} {a key : Node} {l u : Token} (h : IsAccess ts a)
      (hl : l.kind = .punctuator .bracketOpen) (hu : u.kind = .punctuator .bracketClose)
      (hkey : Encloses l inside u key) :
      IsAccess (ts ++ l :: inside ++ [u]) (.index ⟨a.start, u.stop⟩ a key)

namespace IsAccess

variable {ts : List Token} {a : Node}

/-- A chain begins with a name, and no operator is behind the name. -/
theorem first (h : IsAccess ts a) : ∃ t rest, ts = t :: rest ∧ t.kind = .identifier ∧
    ∀ v ∈ rest.head?, BinaryOperator.ofToken? v = none := by
  induction h with
  | name ht => exact ⟨_, [], rfl, ht, by simp⟩
  | member h hpoint ht ih =>
    obtain ⟨t, rest, rfl, hkind, hrest⟩ := ih
    refine ⟨t, _, rfl, hkind, ?_⟩
    cases rest with
    | nil => simp [BinaryOperator.ofToken?, hpoint, BinaryOperator.ofPunctuator?]
    | cons v rest => simpa using hrest
  | index h hl hu hkey ih =>
    obtain ⟨t, rest, rfl, hkind, hrest⟩ := ih
    refine ⟨t, _, by rw [List.append_assoc, List.cons_append], hkind, ?_⟩
    cases rest with
    | nil => simp [BinaryOperator.ofToken?, hl, BinaryOperator.ofPunctuator?]
    | cons v rest => simpa using hrest

theorem ne_nil (h : IsAccess ts a) : ts ≠ [] := by
  obtain ⟨t, rest, rfl, -⟩ := h.first
  simp

/-- A chain ends with a name or a bracket. -/
theorem last (h : IsAccess ts a) : ∀ t ∈ ts.getLast?, t.endsBlock = false := by
  cases h with
  | name ht => simp [Token.endsBlock, ht]
  | member h hpoint ht => simp [Token.endsBlock, ht]
  | index h hl hu hkey =>
    rw [List.getLast?_concat]
    simp [Token.endsBlock, hu]

end IsAccess

namespace Reading

open Reader (Ahead)

section

variable {previous point t u l : Token} {rest : List Token} {errors : List ParseError}
  {names : List String}

theorem suffixes_member (n : Nat) (a : Node) (hpoint : point.kind = .punctuator .dot)
    (ht : t.kind = .identifier) :
    suffixes (n + 1) a ⟨false, point, previous, t :: u :: rest, none, errors, names⟩ =
      suffixes n (.member ⟨a.start, t.stop⟩ a (.identifier t.extent t.value))
        ⟨false, u, t, rest, none, errors, noted names t.value⟩ := by
  rw [suffixes, current_bind]
  simp only [hpoint, compoundOperator?, Punctuator.compound?, Option.bind_none]
  rw [bind_apply, advance_cons]
  simp only
  rw [bind_apply, identifier_name ht]
  rfl

theorem suffixes_index {n : Nat} {a key : Node} {v w : Token} {more : List Token} {s : Reader}
    (hl : l.kind = .punctuator .bracketOpen) (hu : u.kind = .punctuator .bracketClose)
    (hkey : expectedExpression n ⟨false, w, l, rest, none, errors, names⟩ = .ok key s)
    (hs : s.Ahead (u :: v :: more)) :
    suffixes (n + 1) a ⟨false, l, previous, w :: rest, none, errors, names⟩ =
      suffixes n (.index ⟨a.start, u.stop⟩ a key)
        ⟨false, v, u, more, none, s.errors, s.names⟩ := by
  obtain ⟨before, errors', names', rfl⟩ := ahead_eq hs
  rw [suffixes, current_bind]
  simp only [hl, compoundOperator?, Punctuator.compound?, Option.bind_none]
  rw [bind_apply, advance_cons]
  simp only
  rw [bind_apply, hkey]
  simp only
  rw [bind_apply, expectPunctuator_met hu]
  rfl

end

variable {ts more : List Token} {a : Node} {u : Token} {r : Reader}

/-- The loop that reads suffixes goes through a chain, at any place and in front of anything. -/
theorem suffixes_access (h : IsAccess ts a) (p : Placement)
    (hr : r.Ahead (ts.map (Token.relocate p) ++ u :: more)) :
    ∃ first r₁ s n k, identifier r = .ok first r₁ ∧ s.Ahead (u :: more) ∧
      ∀ m, n ≤ m → suffixes (m + k) first r₁ = suffixes m (a.relocate p.place) s := by
  induction h generalizing u more with
  | @name t ht =>
    obtain ⟨previous, errors, names, rfl⟩ := ahead_eq hr
    have ht' : (t.relocate p).kind = .identifier := ht
    exact ⟨_, _, _, 0, 0, identifier_name ht', ⟨rfl, rfl, rfl⟩, fun m _ => rfl⟩
  | @member ts a point t h hpoint ht ih =>
    have hchain : r.Ahead (ts.map (Token.relocate p) ++
        point.relocate p :: t.relocate p :: u :: more) := by simpa using hr
    obtain ⟨first, r₁, s, n, k, hfirst, hs, hloop⟩ := ih hchain
    obtain ⟨previous, errors, names, rfl⟩ := ahead_eq hs
    refine ⟨first, r₁, ⟨false, u, t.relocate p, more, none, errors, noted names t.value⟩, n, k + 1,
      hfirst, ⟨rfl, rfl, rfl⟩, fun m hm => ?_⟩
    rw [← Nat.add_assoc, Nat.add_right_comm, hloop (m + 1) (by omega),
      suffixes_member m _ (by simpa using hpoint) (by simpa using ht)]
    simp [Node.relocate, Extent.relocate]
  | @index ts inside a key l v h hl hv hkey ih =>
    obtain ⟨w, rest, hw⟩ : ∃ w rest,
        (inside ++ [v]).map (Token.relocate p) ++ u :: more = w :: rest := by
      cases inside <;> exact ⟨_, _, rfl⟩
    have hchain : r.Ahead (ts.map (Token.relocate p) ++ l.relocate p :: w :: rest) := by
      rw [← hw]
      simpa using hr
    obtain ⟨first, r₁, s, n, k, hfirst, hs, hloop⟩ := ih hchain
    obtain ⟨previous, errors, names, rfl⟩ := ahead_eq hs
    have hdot : v.isPunctuator .dot = false := by simp [Token.isPunctuator, hv]
    have hinside : Ahead ((inside ++ [v]).map (Token.relocate p) ++ u :: more)
        ⟨false, w, l.relocate p, rest, none, errors, names⟩ := ⟨rfl, rfl, hw.symm⟩
    obtain ⟨s₁, hkeys, hs₁⟩ := hkey.gives_at p hdot hinside rfl
    obtain ⟨n₁, hn₁⟩ := hkeys.expectedExpression
    refine ⟨first, r₁, ⟨false, u, v.relocate p, more, none, s₁.errors, s₁.names⟩, max n n₁, k + 1,
      hfirst, ⟨rfl, rfl, rfl⟩, fun m hm => ?_⟩
    rw [← Nat.add_assoc, Nat.add_right_comm, hloop (m + 1) (by omega),
      suffixes_index (by simpa using hl) (by simpa using hv) (hn₁ m (by omega)) hs₁]
    simp [Node.relocate, Extent.relocate]

/-- A chain in front of something that does not go on with it is an operand. -/
theorem operand_access (h : IsAccess ts a) (p : Placement) (hu : isSuffix u = false)
    (hr : r.Ahead (ts.map (Token.relocate p) ++ u :: more)) :
    UnaryOperator.ofToken? r.current = none ∧
      ∃ s, Gives operand r (some (a.relocate p.place)) s ∧ s.Ahead (u :: more) := by
  obtain ⟨first, r₁, s, n, k, hfirst, hs, hloop⟩ := suffixes_access h p hr
  have hname : r.current.kind = .identifier := by
    obtain ⟨t, rest, rfl, hkind, -⟩ := h.first
    rw [hr.current]
    exact hkind
  have hsuffix : isSuffix s.current = false := by
    rw [hs.current]
    exact hu
  refine ⟨by simp [UnaryOperator.ofToken?, hname], s, ⟨n + k + 3, fun m hm => ?_⟩, hs⟩
  obtain ⟨m, rfl⟩ : ∃ j, m = j + 1 + k + 2 := ⟨m - k - 3, by omega⟩
  rw [operand, primary, bind_apply, current_bind]
  simp only [Token.isLiteral, Token.isValueLiteral, hname]
  rw [righthand]
  change (current >>= _) r = _
  rw [current_bind, hname]
  simp only [map_eq_pure_bind]
  rw [bind_apply, hfirst]
  simp only
  rw [bind_apply, hloop (m + 1) (by omega), suffixes_of_not hsuffix]
  rfl

/-- Reads what is behind the target of a statement that begins with a name. -/
def statementEnd (n : Nat) (t : Token) (e : Node) : Reading Node := do
  let here ← current
  if here.isTerminator || here.endsLineBody then
    if isStatementNode e then return e else return .callStatement (← extentFrom t.start) e
  else
    expectPunctuator .assign
    let value ← expectedExpression n
    return .assignment (← extentFrom t.start) e value

/-- At the end of a source nothing is added to a statement. -/
theorem statementEnd_of_isEndOfFile {n : Nat} {t : Token} {e : Node}
    (hr : r.current.isEndOfFile = true) (he : isStatementNode e = true) :
    statementEnd n t e r = .ok e r := by
  rw [statementEnd, current_bind, Token.isTerminator, hr, Bool.or_true, Bool.true_or, he]
  rfl

/-- The suffixes behind the first name of a statement are read by the same loop, if there are any
and if there are none. -/
theorem statementTail_suffixes {n : Nat} {t : Token} {origin e : Node} {s : Reader}
    (ht : t.isValueLiteral = false) (hr : BinaryOperator.ofToken? r.current = none)
    (h : suffixes (n + 1) origin r = .ok e s) :
    statementTail (n + 2) t origin r = statementEnd (n + 1) t e s := by
  rw [statementTail, current_bind, hr]
  simp only [Option.isSome_none, Bool.false_eq_true, if_false]
  rw [current_bind]
  simp only [ht, Bool.false_and, Bool.false_or]
  split
  · rw [bind_apply, h]
    rfl
  next hsuffix =>
    rw [suffixes_of_not (by simpa using hsuffix)] at h
    cases h
    rfl

/-- A statement that begins with a chain. -/
theorem statement_access (h : IsAccess ts a) (p : Placement)
    (hr : r.Ahead (ts.map (Token.relocate p) ++ u :: more))
    (hu : BinaryOperator.ofToken? u = none) :
    ∃ s n k, s.Ahead (u :: more) ∧ ∀ (m : Nat) (inLine : Bool) (e : Node) (s' : Reader), n ≤ m →
      suffixes (m + 1) (a.relocate p.place) s = .ok e s' →
      statement (m + k + 4) inLine r = (some <$> statementEnd (m + k + 1) r.current e) s' := by
  obtain ⟨first, r₁, s, n, k, hfirst, hs, hloop⟩ := suffixes_access h p hr
  obtain ⟨t, rest, rfl, hkind, hrest⟩ := h.first
  have hname : r.current.kind = .identifier := by
    rw [hr.current]
    exact hkind
  -- behind the name is a suffix of the chain or what is behind the chain
  have hoperator : BinaryOperator.ofToken? r₁.current = none := by
    obtain ⟨previous, errors, names, rfl⟩ := ahead_eq hr
    cases rest with
    | nil =>
      rw [show r₁.current = u from ?_]
      · exact hu
      · rw [List.map_nil, List.append_eq, List.nil_append, identifier_name hname] at hfirst
        cases hfirst
        rfl
    | cons v rest =>
      rw [show r₁.current = v.relocate p from ?_]
      · exact hrest v rfl
      · rw [List.map_cons, List.append_eq, List.cons_append, identifier_name hname] at hfirst
        cases hfirst
        rfl
  refine ⟨s, n, k, hs, fun m inLine e s' hm he => ?_⟩
  have hsuffixes : suffixes (m + k + 1) first r₁ = .ok e s' := by
    rw [Nat.add_right_comm, hloop (m + 1) (by omega), he]
  rw [statement, current_bind]
  simp only [hname, map_eq_pure_bind]
  rw [bind_apply, bind_apply, assignmentOrCall, current_bind]
  simp only [hname]
  rw [bind_apply, hfirst]
  simp only
  rw [statementTail_suffixes (by simp [Token.isValueLiteral, hname]) hoperator hsuffixes]

/-- Behind a token, tokens are read as an expression with the given tree, up to positions, and
others are left. -/
def ReadsAs (before : Token) (ts : List Token) (value : Node) (left : List Token) : Prop :=
  ∀ r : Reader, r.Ahead ts → r.previous = before →
    ∃ e s, Gives expression r (some e) s ∧ Same Node.erase value e ∧ s.Ahead left

variable {p : Placement} {last w : Token} {o : BinaryOperator} {value : Node}

theorem suffixes_compound {n : Nat} {q : Punctuator} {e : Node} {s s₁ s₂ : Reader}
    (hsign : s.current.kind = .punctuator q) (ho : compoundOperator? q = some o)
    (hstep : s.step = .ok s₁) (hvalue : subExpression n 0 s₁ = .ok (some e) s₂)
    (hs₂ : isSuffix s₂.current = false) :
    suffixes (n + 2) a s = .ok (.assignment ⟨a.start, s₂.previous.stop⟩ a
      (.binary ⟨s₁.current.start, s₂.previous.stop⟩ o a e)) s₂ := by
  rw [suffixes, current_bind, hsign]
  simp only [ho]
  rw [bind_apply, advance_of_step hstep]
  simp only
  rw [bind_apply, compoundAssignment, current_bind, bind_apply, hvalue]
  exact suffixes_of_not hs₂ n _

theorem isSuffix_of_isEndOfFile (h : last.isEndOfFile = true) : isSuffix last = false :=
  (Token.Closes.of_isEndOfFile h).suffix

/-- A compound assignment at the end of a source. -/
theorem statement_compound {sign : Token} {q : Punctuator} {extent extent' : Extent}
    (h : IsAccess ts a) (hr : r.Ahead (ts.map (Token.relocate p) ++ sign :: w :: more))
    (hsign : sign.kind = .punctuator q) (ho : compoundOperator? q = some o)
    (hvalue : ReadsAs sign (w :: more) value [last]) (hlast : last.isEndOfFile = true) :
    ∃ node s, Gives (statement · false) r (some node) s ∧ s.current.isEndOfFile = true ∧
      Same Node.erase (.assignment extent a (.binary extent' o a value)) node := by
  have hplain : BinaryOperator.ofToken? sign = none := by
    unfold BinaryOperator.ofToken?
    rw [hsign]
    cases q <;> first | rfl | cases ho
  obtain ⟨s, n, k, hs, hstatement⟩ := statement_access h p hr hplain
  obtain ⟨previous, errors, names, rfl⟩ := ahead_eq hs
  obtain ⟨e, s₂, ⟨n₂, hn₂⟩, he, hs₂⟩ := hvalue ⟨false, w, sign, more, none, errors, names⟩
    ⟨rfl, rfl, rfl⟩ rfl
  have hend : s₂.current.isEndOfFile = true := by
    rw [hs₂.current]
    exact hlast
  have htarget := Node.erase_relocate p.place a
  refine ⟨.assignment ⟨(a.relocate p.place).start, s₂.previous.stop⟩ (a.relocate p.place)
      (.binary ⟨w.start, s₂.previous.stop⟩ o (a.relocate p.place) e), s₂,
    ⟨max n n₂ + k + 5, fun m hm => ?_⟩, hend,
    same_assignment htarget (same_binary o htarget he)⟩
  obtain ⟨m, rfl⟩ : ∃ j, m = j + 1 + k + 4 := ⟨m - k - 5, by omega⟩
  have hread : subExpression m 0 ⟨false, w, sign, more, none, errors, names⟩ = .ok (some e) s₂ :=
    hn₂ (m + 1) (by omega)
  have hsuffixes := suffixes_compound (a := a.relocate p.place) hsign ho (s := ⟨false, sign,
    previous, w :: more, none, errors, names⟩) rfl hread (isSuffix_of_isEndOfFile hend)
  dsimp only
  rw [hstatement (m + 1) false _ s₂ (by omega) hsuffixes, map_eq_pure_bind, bind_apply,
    statementEnd_of_isEndOfFile hend rfl]
  rfl

/-- The chain, an operator and a group in parentheses make the value of the expansion. -/
theorem expectedExpression_expanded (extent : Extent) {sign l u : Token} (h : IsAccess ts a)
    (hr : r.Ahead (ts.map (Token.relocate p) ++ sign :: l :: w :: more))
    (hsign : BinaryOperator.ofToken? sign = some o) (ho : o.isLogical = false)
    (hl : l.kind = .punctuator .parenOpen) (hu : u.kind = .punctuator .parenClose)
    (hvalue : ReadsAs l (w :: more) value [u, last]) (hlast : last.isEndOfFile = true) :
    ∃ e s, Gives expectedExpression r e s ∧ Same Node.erase (.binary extent o a value) e ∧
      s.Ahead [last] := by
  obtain ⟨hunary, s, ⟨n, hn⟩, hs⟩ := operand_access h p (isSuffix_of_operator hsign) hr
  obtain ⟨previous, errors, names, rfl⟩ := ahead_eq hs
  obtain ⟨e, s₂, hread, he, hs₂⟩ := hvalue ⟨false, w, l, more, none, errors, names⟩
    ⟨rfl, rfl, rfl⟩ rfl
  obtain ⟨n₂, hn₂⟩ := hread.expectedExpression
  have hclosed : BinaryOperator.ofToken? last = none := (Token.Closes.of_isEndOfFile hlast).operator
  have hplain : UnaryOperator.ofToken? l = none := by simp [UnaryOperator.ofToken?, hl]
  refine ⟨.binary ⟨(a.relocate p.place).start, u.stop⟩ o (a.relocate p.place) e,
    ⟨s₂.lenient, last, u, [], s₂.stop, s₂.errors, s₂.names⟩, ?_,
    same_binary o (Node.erase_relocate p.place a) he, hs₂.strict, hs₂.stop, rfl⟩
  refine Gives.expectedExpression ⟨max n n₂ + 8, fun m hm => ?_⟩
  obtain ⟨m, rfl⟩ : ∃ j, m = j + 7 := ⟨m - 7, by omega⟩
  have hright : subExpression (m + 4) o.rightBound
      ⟨false, l, sign, w :: more, none, errors, names⟩ =
        .ok (some e) ⟨s₂.lenient, last, u, [], s₂.stop, s₂.errors, s₂.names⟩ := by
    have hinside := hn₂ (m + 1) (by omega)
    rw [subExpression_operand _ hplain (operand_group hl hu (isSuffix_of_isEndOfFile hlast) hinside
      hs₂.tokens), map_eq_pure_bind, bind_apply, binaryTail_of_not hclosed]
    rfl
  have htail := binaryTail_operator (e := a.relocate p.place)
    (r := ⟨false, sign, previous, l :: w :: more, none, errors, names⟩) hsign
    (Nat.not_le.2 o.precedence_pos) rfl hright
  rw [expression, subExpression_operand 0 hunary (hn (m + 5) (by omega)), map_eq_pure_bind,
    bind_apply, htail, binaryTail_of_not hclosed, binaryNode, ho]
  rfl

/-- The expansion of a compound assignment at the end of a source. -/
theorem statement_expanded {p' : Placement} {assign sign l u : Token} {extent extent' : Extent}
    (h : IsAccess ts a) (hr : r.Ahead (ts.map (Token.relocate p) ++ assign ::
      (ts.map (Token.relocate p') ++ sign :: l :: w :: more)))
    (hassign : assign.kind = .punctuator .assign)
    (hsign : BinaryOperator.ofToken? sign = some o) (ho : o.isLogical = false)
    (hl : l.kind = .punctuator .parenOpen) (hu : u.kind = .punctuator .parenClose)
    (hvalue : ReadsAs l (w :: more) value [u, last]) (hlast : last.isEndOfFile = true) :
    ∃ node s, Gives (statement · false) r (some node) s ∧ s.current.isEndOfFile = true ∧
      Same Node.erase (.assignment extent a (.binary extent' o a value)) node := by
  have hplain : BinaryOperator.ofToken? assign = none := by
    simp [BinaryOperator.ofToken?, hassign, BinaryOperator.ofPunctuator?]
  have hapart : isSuffix assign = false := by simp [isSuffix, hassign, Punctuator.compound?]
  obtain ⟨s, n, k, hs, hstatement⟩ := statement_access h p hr hplain
  obtain ⟨v, rest, hv⟩ : ∃ v rest,
      ts.map (Token.relocate p') ++ sign :: l :: w :: more = v :: rest := by
    cases ts <;> exact ⟨_, _, rfl⟩
  rw [hv] at hs
  obtain ⟨previous, errors, names, rfl⟩ := ahead_eq hs
  obtain ⟨e, s₂, ⟨n₂, hn₂⟩, he, hs₂⟩ := expectedExpression_expanded extent' h
    (r := ⟨false, v, assign, rest, none, errors, names⟩) ⟨rfl, rfl, hv.symm⟩ hsign ho hl hu hvalue
    hlast
  have hend : s₂.current.isEndOfFile = true := by
    rw [hs₂.current]
    exact hlast
  refine ⟨.assignment ⟨r.current.start, s₂.previous.stop⟩ (a.relocate p.place) e, s₂,
    ⟨max n n₂ + k + 4, fun m hm => ?_⟩, hend,
    same_assignment (Node.erase_relocate p.place a) he⟩
  obtain ⟨m, rfl⟩ : ∃ j, m = j + k + 4 := ⟨m - k - 4, by omega⟩
  have hsuffixes := suffixes_of_not (r := ⟨false, assign, previous, v :: rest, none, errors,
    names⟩) hapart m (a.relocate p.place)
  dsimp only
  rw [hstatement m false _ _ (by omega) hsuffixes, map_eq_pure_bind, bind_apply, statementEnd,
    current_bind]
  simp only [Token.isTerminator, Token.isEndOfLine, Token.isEndOfFile, Token.endsLineBody, hassign]
  rw [if_neg (by decide), bind_apply, expectPunctuator_met hassign]
  simp only
  rw [bind_apply, hn₂ (m + k + 1) (by omega)]
  rfl

end Reading

/-- A text is accepted up to its end as one expression. -/
def Accepts (tabWidth : Nat) (source : String) (e : Node) : Prop :=
  ∃ t ts n s, TokenStream.ofSource ⟨false, tabWidth⟩ source = ⟨t :: ts, none, []⟩ ∧
    Reading.expression n (.ofFirst t ts) = .ok (some e) s ∧ s.current.isEndOfFile = true

namespace Accepts

variable {tabWidth : Nat} {source : String} {ts : List Token} {e : Node}

/-- The tokens of an expression are read up to the end of its text. -/
theorem reading (h : Accepts tabWidth source e) (hts : Tokenizes tabWidth source ts) :
    ∃ last n, ∃ r s : Reader, last.kind = .endOfFile ∧ r.Ahead (ts ++ [last]) ∧
      r.previous.line = 1 ∧ Reading.expression n r = .ok (some e) s ∧
      s.current.isEndOfFile = true ∧ ∀ t ∈ ts, t.isEndOfFile = false := by
  obtain ⟨t, us, n, s, hsource, hread, hs⟩ := h
  obtain ⟨d, hscans, hblanks⟩ := hts
  obtain ⟨last, d', hend, hlast⟩ := Cursor.scan_end tabWidth hblanks
  rw [TokenStream.ofSource_of_scans hscans hend (by simp [Token.isEndOfFile, hlast])] at hsource
  exact ⟨last, n, _, s, hlast, ⟨rfl, rfl, (TokenStream.mk.inj hsource).1.symm⟩, rfl, hread, hs,
    hscans.not_end⟩

/-- An expression has a token. -/
theorem ne_nil (h : Accepts tabWidth source e) (hts : Tokenizes tabWidth source ts) : ts ≠ [] := by
  rintro rfl
  obtain ⟨last, n, r, s, hlast, hr, -, hread, -⟩ := h.reading hts
  have hends : r.current.EndsExpression := by
    rw [hr.current]
    exact .inl hlast
  cases Reading.expression_of_ends hends hread

/-- An expression without functions is read as such at another place, in front of the end of a
source or of a closing parenthesis. -/
theorem readsAs (h : Accepts tabWidth source e) (hts : Tokenizes tabWidth source ts)
    (hplain : ∀ t ∈ ts, t.isKeyword .functionWord = false) {p : Placement} {before mark : Token}
    (hbefore : before.line = p.line 1) (hmark : mark.EndsExpression) (more : List Token) :
    Reading.ReadsAs before (ts.map (Token.relocate p) ++ mark :: more) e (mark :: more) := by
  obtain ⟨last, n, r₀, s₀, hlast, hr₀, hline, hread, hs₀, hinside⟩ := h.reading hts
  intro r hr hprevious
  have hbeside : Copy.Beside ⟨p, last, mark, more, hlast, hmark⟩ ts r₀ r :=
    ⟨hr₀, hr, by rw [hprevious, hbefore, hline], fun t ht => ⟨hinside t ht, hplain t ht⟩⟩
  exact Reading.expression_repeated hbeside hread hs₀

end Accepts

section

variable {tabWidth : Nat} {target value : String} {ts us : List Token} {a : Node}
  {sign operator : Punctuator}

/-- The signs of compound assignments and of their operators are scanned to one token each. -/
theorem ofChars?_compound (h : sign.compound? = some operator) (tail : List Char) :
    Punctuator.ofChars? (sign.text.toList ++ ' ' :: tail) = some sign ∧
      Punctuator.ofChars? (operator.text.toList ++ ' ' :: tail) = some operator ∧
      sign ≠ .dot ∧ operator ≠ .dot := by
  cases sign <;> cases h <;> exact ⟨rfl, rfl, by decide, by decide⟩

/-- The tokens of a compound assignment. -/
theorem ofSource_compound (htarget : Tokenizes tabWidth target ts) (haccess : IsAccess ts a)
    (hvalue : Tokenizes tabWidth value us) (hus : us ≠ [])
    (hsign : sign.compound? = some operator) :
    ∃ (p p' : Placement) (t last : Token),
      TokenStream.ofSource ⟨false, tabWidth⟩ (target ++ " " ++ sign.text ++ " " ++ value) =
        ⟨ts.map (Token.relocate p) ++ t :: (us.map (Token.relocate p') ++ [last]), none, []⟩ ∧
      t.kind = .punctuator sign ∧ t.line = p'.line 1 ∧ last.kind = .endOfFile := by
  obtain ⟨hchars, -, hdot, -⟩ := ofChars?_compound hsign value.toList
  obtain ⟨p, blanks, d₁, -, hscans₁, hpage₁, hrest₁, hblanks⟩ := htarget.inFront Scan.parts_blank
    (.inr haccess.last) (Cursor.ofSource_onPage (target ++ " " ++ sign.text ++ " " ++ value))
    (q := sign.text.toList ++ ' ' :: value.toList) (by simp [Cursor.ofSource])
  obtain ⟨t, d₂, hscans₂, hkind, hline, hpage₂, hrest₂⟩ := Cursor.Scans.punctuator tabWidth sign
    (' ' :: value.toList) hpage₁ (hrest₁.trans (by simp))
    (List.forall_mem_append.2 ⟨hblanks, Header.blank_singleton⟩) hchars hdot (by simp)
  obtain ⟨p', d₃, last, d₄, hline', hscans₃, hend, hlast⟩ := hvalue.atEnd hus hpage₂ hrest₂
  have hsource := TokenStream.ofSource_of_scans (hscans₁.append (hscans₂.append hscans₃)) hend
    (by simp [Token.isEndOfFile, hlast])
  exact ⟨p, p', t, last, by simpa using hsource, hkind, hline.trans hline'.symm, hlast⟩

/-- The tokens of the expansion of a compound assignment. -/
theorem ofSource_expansion (htarget : Tokenizes tabWidth target ts) (haccess : IsAccess ts a)
    (hvalue : Tokenizes tabWidth value us) (hsign : sign.compound? = some operator) :
    ∃ (p p' p'' : Placement) (assign t l u last : Token),
      TokenStream.ofSource ⟨false, tabWidth⟩
          (target ++ " = " ++ target ++ " " ++ operator.text ++ " (" ++ value ++ ")") =
        ⟨ts.map (Token.relocate p) ++ assign :: (ts.map (Token.relocate p') ++
          t :: l :: (us.map (Token.relocate p'') ++ [u, last])), none, []⟩ ∧
      assign.kind = .punctuator .assign ∧ t.kind = .punctuator operator ∧
      l.kind = .punctuator .parenOpen ∧ l.line = p''.line 1 ∧ u.kind = .punctuator .parenClose ∧
      last.kind = .endOfFile := by
  let group := '(' :: (value.toList ++ [')'])
  let sum := target.toList ++ ' ' :: (operator.text.toList ++ ' ' :: group)
  obtain ⟨-, hchars, -, hdot⟩ := ofChars?_compound hsign group
  have behind : ∀ {blanks : List Char}, (∀ y ∈ blanks, Scan.isBlank y = true) →
      ∀ y ∈ blanks ++ [' '], Scan.isBlank y = true :=
    fun hblanks => List.forall_mem_append.2 ⟨hblanks, Header.blank_singleton⟩
  obtain ⟨p, blanks₁, d₁, -, hscans₁, hpage₁, hrest₁, hblanks₁⟩ := htarget.inFront Scan.parts_blank
    (.inr haccess.last) (Cursor.ofSource_onPage
      (target ++ " = " ++ target ++ " " ++ operator.text ++ " (" ++ value ++ ")"))
    (q := '=' :: ' ' :: sum) (by simp [Cursor.ofSource, sum, group])
  obtain ⟨assign, d₂, hscans₂, hassign, -, hpage₂, hrest₂⟩ := Cursor.Scans.punctuator tabWidth
    .assign (' ' :: sum) hpage₁ (hrest₁.trans (by simp [Punctuator.text])) (behind hblanks₁) rfl
    (by decide) (by simp)
  obtain ⟨p', blanks₃, d₃, -, hscans₃, hpage₃, hrest₃, hblanks₃⟩ := htarget.inFront Scan.parts_blank
    (.inr haccess.last) (hpage₂.advance 1) (q := operator.text.toList ++ ' ' :: group)
    (by simp [hrest₂, sum])
  obtain ⟨t, d₄, hscans₄, ht, -, hpage₄, hrest₄⟩ := Cursor.Scans.punctuator tabWidth operator
    (' ' :: group) hpage₃ (hrest₃.trans (by simp)) (behind hblanks₃) hchars hdot (by simp)
  obtain ⟨l, d₅, hscans₅, hl, hline, hpage₅, hrest₅⟩ := Cursor.Scans.punctuator tabWidth .parenOpen
    (value.toList ++ [')']) hpage₄ (hrest₄.trans (by simp [Punctuator.text, group]))
    Header.blank_singleton rfl (by decide) (by simp)
  obtain ⟨p'', blanks₆, d₆, hline', hscans₆, hpage₆, hrest₆, hblanks₆⟩ := hvalue.inFront
    Scan.parts_parenthesis (.inl rfl) hpage₅ hrest₅
  obtain ⟨u, d₇, hscans₇, hu, -, -, hrest₇⟩ := Cursor.Scans.punctuator tabWidth .parenClose []
    hpage₆ (hrest₆.trans (by simp [Punctuator.text])) hblanks₆ rfl (by decide) (by decide)
  obtain ⟨last, d₈, hend, hlast⟩ := Cursor.scan_end (c := d₇) tabWidth (by simp [hrest₇])
  have hscans₃ := hscans₃.behind_blank hrest₂ (by simpa using haccess.ne_nil)
  have hsource := TokenStream.ofSource_of_scans (hscans₁.append (hscans₂.append (hscans₃.append
    (hscans₄.append (hscans₅.append (hscans₆.append hscans₇)))))) hend
    (by simp [Token.isEndOfFile, hlast])
  exact ⟨p, p', p'', assign, t, l, u, last, by simpa using hsource, hassign, ht, hl,
    hline.trans hline'.symm, hu, hlast⟩

end

/-- The names among tokens. -/
def Token.listed (ts : List Token) : List String :=
  (ts.filter (·.isIdentifier)).map (·.value)

theorem Token.listed_append (ts us : List Token) :
    Token.listed (ts ++ us) = Token.listed ts ++ Token.listed us := by
  simp [Token.listed]

theorem Token.listed_cons {t : Token} (ht : t.isIdentifier = false) (ts : List Token) :
    Token.listed (t :: ts) = Token.listed ts := by
  simp [Token.listed, ht]

theorem Token.listed_relocate (p : Placement) (ts : List Token) :
    Token.listed (ts.map (Token.relocate p)) = Token.listed ts := by
  simp [Token.listed, List.filter_map, Function.comp_def]

/-- Names that are listed twice in front are listed once. -/
theorem eraseDups_twice (xs ys : List String) :
    (xs ++ (xs ++ ys)).eraseDups = (xs ++ ys).eraseDups := by
  have hself : xs.removeAll xs = [] := by simp [List.removeAll]
  have happend : (xs ++ ys).removeAll xs = xs.removeAll xs ++ ys.removeAll xs := by
    simp [List.removeAll]
  rw [List.eraseDups_append, happend, hself, List.nil_append, ← List.eraseDups_append]

/-- The extent of all trees without positions. -/
def Extent.nowhere : Extent := ⟨.origin, .origin⟩

/-- A source with a single statement up to its end, whose tree is known but for positions. -/
theorem parse_single {tabWidth : Nat} {source : String} {t : Token} {ts : List Token}
    {node node' : Node} {names : List String} {s : Reader}
    (hsource : TokenStream.ofSource ⟨false, tabWidth⟩ source = ⟨t :: ts, none, []⟩)
    (ht : t.endsBlock = false)
    (h : Gives (Reading.statement · false) (.ofFirst t ts) (some node) s)
    (hs : s.current.isEndOfFile = true) (hnode : Same Node.erase node' node)
    (hnames : (Token.listed (t :: ts)).eraseDups = names) :
    ∃ out, parse ⟨false, tabWidth⟩ source = .ok out ∧
      out.chunk.erase = .chunk .nowhere [node'.erase] names := by
  obtain ⟨n, hn⟩ := h
  obtain ⟨out, hout, hstatements⟩ := (parse_strict_ok hsource).2
    ⟨_, s, Reading.block_last ht (hn (n + 1) (Nat.le_succ n)) hs, hs⟩
  obtain ⟨extent, body, hchunk⟩ := parse_strict_names hout
  rw [hchunk] at hstatements
  obtain rfl : body = [node] := hstatements
  rw [hsource] at hchunk
  refine ⟨out, hout, ?_⟩
  rw [hchunk, ← hnode, ← hnames]
  rfl

section

variable {tabWidth : Nat} {target value : String} {ts us : List Token} {a e : Node}
  {sign operator : Punctuator} {o : BinaryOperator}

/-- What a compound assignment is read to. -/
theorem parse_compound (hsign : sign.compound? = some operator)
    (ho : Reading.compoundOperator? sign = some o) (htarget : Tokenizes tabWidth target ts)
    (haccess : IsAccess ts a) (hvalue : Tokenizes tabWidth value us)
    (haccepts : Accepts tabWidth value e)
    (hplain : ∀ t ∈ us, t.isKeyword .functionWord = false) :
    ∃ out, parse ⟨false, tabWidth⟩ (target ++ " " ++ sign.text ++ " " ++ value) = .ok out ∧
      out.chunk.erase = .chunk .nowhere
        [(Node.assignment .nowhere a (.binary .nowhere o a e)).erase]
        (Token.listed ts ++ Token.listed us).eraseDups := by
  obtain ⟨p, p', t, last, hsource, ht, hline, hlast⟩ := ofSource_compound htarget haccess hvalue
    (haccepts.ne_nil hvalue) hsign
  have hread := haccepts.readsAs hvalue hplain hline (.inl hlast) []
  have hnames : (Token.listed (ts.map (Token.relocate p) ++
      t :: (us.map (Token.relocate p') ++ [last]))).eraseDups =
        (Token.listed ts ++ Token.listed us).eraseDups := by
    have ht' : t.isIdentifier = false := by simp [Token.isIdentifier, ht]
    have hlast' : last.isIdentifier = false := by simp [Token.isIdentifier, hlast]
    rw [Token.listed_append, Token.listed_cons ht', Token.listed_append, Token.listed_cons hlast']
    simp only [Token.listed_relocate]
    rw [show Token.listed [] = [] from rfl, List.append_nil]
  obtain ⟨w, more, hw⟩ : ∃ w more, us.map (Token.relocate p') ++ [last] = w :: more := by
    cases us <;> exact ⟨_, _, rfl⟩
  obtain ⟨first, rest, rfl, hfirst, -⟩ := haccess.first
  rw [hw] at hread hsource hnames
  obtain ⟨node, s, hstatement, hs, hnode⟩ := Reading.statement_compound haccess
    (r := .ofFirst (first.relocate p) (rest.map (Token.relocate p) ++ t :: w :: more))
    ⟨rfl, rfl, rfl⟩ ht ho hread (by simp [Token.isEndOfFile, hlast])
  exact parse_single hsource (by simp [Token.endsBlock, hfirst]) hstatement hs hnode hnames

/-- What the expansion of a compound assignment is read to. -/
theorem parse_expansion (hsign : sign.compound? = some operator)
    (ho : BinaryOperator.ofPunctuator? operator = some o) (hlogical : o.isLogical = false)
    (htarget : Tokenizes tabWidth target ts) (haccess : IsAccess ts a)
    (hvalue : Tokenizes tabWidth value us) (haccepts : Accepts tabWidth value e)
    (hplain : ∀ t ∈ us, t.isKeyword .functionWord = false) :
    ∃ out, parse ⟨false, tabWidth⟩
        (target ++ " = " ++ target ++ " " ++ operator.text ++ " (" ++ value ++ ")") = .ok out ∧
      out.chunk.erase = .chunk .nowhere
        [(Node.assignment .nowhere a (.binary .nowhere o a e)).erase]
        (Token.listed ts ++ Token.listed us).eraseDups := by
  obtain ⟨p, p', p'', assign, t, l, u, last, hsource, hassign, ht, hl, hline, hu, hlast⟩ :=
    ofSource_expansion htarget haccess hvalue hsign
  have hread := haccepts.readsAs hvalue hplain hline (.inr hu) [last]
  have hoperator : BinaryOperator.ofToken? t = some o := by
    simp [BinaryOperator.ofToken?, ht, ho]
  have hnames : (Token.listed (ts.map (Token.relocate p) ++ assign ::
      (ts.map (Token.relocate p') ++ t :: l :: (us.map (Token.relocate p'') ++
        [u, last])))).eraseDups = (Token.listed ts ++ Token.listed us).eraseDups := by
    have mark : ∀ {v : Token} {q : Punctuator}, v.kind = .punctuator q →
        v.isIdentifier = false := by
      intro v q hv
      simp [Token.isIdentifier, hv]
    have hlast' : last.isIdentifier = false := by simp [Token.isIdentifier, hlast]
    rw [Token.listed_append, Token.listed_cons (mark hassign), Token.listed_append,
      Token.listed_cons (mark ht), Token.listed_cons (mark hl), Token.listed_append,
      Token.listed_cons (mark hu), Token.listed_cons hlast']
    simp only [Token.listed_relocate]
    rw [show Token.listed [] = [] from rfl, List.append_nil, eraseDups_twice]
  obtain ⟨w, more, hw⟩ : ∃ w more, us.map (Token.relocate p'') ++ [u, last] = w :: more := by
    cases us <;> exact ⟨_, _, rfl⟩
  obtain ⟨first, rest, rfl, hfirst, -⟩ := haccess.first
  rw [hw] at hread hsource hnames
  obtain ⟨node, s, hstatement, hs, hnode⟩ := Reading.statement_expanded haccess
    (r := .ofFirst (first.relocate p) (rest.map (Token.relocate p) ++ assign ::
      ((first :: rest).map (Token.relocate p') ++ t :: l :: w :: more))) ⟨rfl, rfl, rfl⟩ hassign
    hoperator hlogical hl hu hread (by simp [Token.isEndOfFile, hlast])
  exact parse_single hsource (by simp [Token.endsBlock, hfirst]) hstatement hs hnode hnames

/-- A compound assignment and its expansion are read to the same tree, up to positions: the target
is assigned the operator's result on the target and the value. The target is an access chain, and
the value a text that is accepted as one expression, without functions and without a comment behind
its last token. -/
theorem compound_expansion (hsign : sign.compound? = some operator)
    (htarget : Tokenizes tabWidth target ts) (haccess : IsAccess ts a)
    (hvalue : Tokenizes tabWidth value us) (haccepts : Accepts tabWidth value e)
    (hplain : ∀ t ∈ us, t.isKeyword .functionWord = false) :
    ∃ out out' o names,
      parse ⟨false, tabWidth⟩ (target ++ " " ++ sign.text ++ " " ++ value) = .ok out ∧
      parse ⟨false, tabWidth⟩
        (target ++ " = " ++ target ++ " " ++ operator.text ++ " (" ++ value ++ ")") = .ok out' ∧
      out'.chunk.erase = out.chunk.erase ∧ BinaryOperator.ofPunctuator? operator = some o ∧
      out.chunk.erase = .chunk .nowhere
        [(Node.assignment .nowhere a (.binary .nowhere o a e)).erase] names := by
  obtain ⟨o, ho, hcompound, hlogical⟩ : ∃ o, BinaryOperator.ofPunctuator? operator = some o ∧
      Reading.compoundOperator? sign = some o ∧ o.isLogical = false := by
    cases sign <;> cases hsign <;> exact ⟨_, rfl, rfl, rfl⟩
  obtain ⟨out, hout, htree⟩ := parse_compound hsign hcompound htarget haccess hvalue haccepts hplain
  obtain ⟨out', hout', htree'⟩ := parse_expansion hsign ho hlogical htarget haccess hvalue haccepts
    hplain
  exact ⟨out, out', o, _, hout, hout', htree'.trans htree.symm, ho, htree⟩

end

/-- The tokens of `a[b]`. -/
def elementTokens : List Token :=
  [glyph .identifier "a" 1] ++ glyph (.punctuator .bracketOpen) "[" 2 ::
    [glyph .identifier "b" 3] ++ [glyph (.punctuator .bracketClose) "]" 4]

/-- The tree of `a[b]`, without positions. -/
def elementNode : Node :=
  .index .nowhere (.identifier .nowhere "a") (.identifier .nowhere "b")

/-- The tokens of `c | d`. -/
def unionTokens : List Token :=
  [glyph .identifier "c" 1, glyph (.punctuator .pipe) "|" 3, glyph .identifier "d" 5]

/-- The tree of `c | d`, without positions. -/
def unionNode : Node :=
  .binary .nowhere .bitOr (.identifier .nowhere "c") (.identifier .nowhere "d")

theorem compound_expansion_element :
    ∃ out out' names,
      parse ⟨false, 1⟩ "a[b] *= c | d" = .ok out ∧
      parse ⟨false, 1⟩ "a[b] = a[b] * (c | d)" = .ok out' ∧
      out'.chunk.erase = out.chunk.erase ∧
      out.chunk.erase = .chunk .nowhere
        [.assignment .nowhere elementNode (.binary .nowhere .mul elementNode unionNode)] names := by
  have htarget : Tokenizes 1 "a[b]" elementTokens :=
    ⟨_, .next (by cbv) rfl (.next (by cbv) rfl (.next (by cbv) rfl (.next (by cbv) rfl .done))),
      by simp⟩
  have hkey : Encloses (glyph (.punctuator .bracketOpen) "[" 2) [glyph .identifier "b" 3]
      (glyph (.punctuator .bracketClose) "]" 4) (.identifier ⟨⟨1, 3⟩, ⟨1, 4⟩⟩ "b") :=
    ⟨9, [Reader.placeholder], by simp,
      ⟨false, glyph .identifier "b" 3, glyph (.punctuator .bracketOpen) "[" 2,
        [glyph (.punctuator .bracketClose) "]" 4, Reader.placeholder], none, [], []⟩, _,
      ⟨rfl, rfl, rfl⟩, rfl, rfl, ⟨rfl, rfl, rfl⟩⟩
  have haccess : IsAccess elementTokens _ := .index (.name rfl) rfl rfl hkey
  have hvalue : Tokenizes 1 "c | d" unionTokens :=
    ⟨_, .next (by cbv) rfl (.next (by cbv) rfl (.next (by cbv) rfl .done)), by simp⟩
  have haccepts : Accepts 1 "c | d" (.binary ⟨⟨1, 1⟩, ⟨1, 6⟩⟩ .bitOr
      (.identifier ⟨⟨1, 1⟩, ⟨1, 2⟩⟩ "c") (.identifier ⟨⟨1, 5⟩, ⟨1, 6⟩⟩ "d")) :=
    ⟨glyph .identifier "c" 1, [glyph (.punctuator .pipe) "|" 3, glyph .identifier "d" 5,
      ⟨.endOfFile, "<eof>", ⟨5, 5⟩, ⟨⟨1, 6⟩, ⟨1, 6⟩⟩⟩], 9, _, by cbv, rfl, rfl⟩
  obtain ⟨out, out', o, names, hout, hout', hsame, ho, htree⟩ := compound_expansion
    (show Punctuator.starAssign.compound? = some .star from rfl) htarget haccess hvalue haccepts
    (by simp [unionTokens, glyph, Token.isKeyword])
  cases ho
  exact ⟨out, out', names, hout, hout', hsame, htree⟩

/-- The tree of `x += y // c`. -/
def commented : Node :=
  .chunk ⟨⟨1, 1⟩, ⟨1, 12⟩⟩
    [.assignment ⟨⟨1, 1⟩, ⟨1, 7⟩⟩ (.identifier ⟨⟨1, 1⟩, ⟨1, 2⟩⟩ "x")
      (.binary ⟨⟨1, 6⟩, ⟨1, 7⟩⟩ .add (.identifier ⟨⟨1, 1⟩, ⟨1, 2⟩⟩ "x")
        (.identifier ⟨⟨1, 6⟩, ⟨1, 7⟩⟩ "y"))] ["x", "y"]

/-- A comment at the end of the value takes the parenthesis behind it away. -/
theorem compound_expansion_comment :
    Tokenizes 1 "x" [glyph .identifier "x" 1] ∧
      IsAccess [glyph .identifier "x" 1] (.identifier ⟨⟨1, 1⟩, ⟨1, 2⟩⟩ "x") ∧
      Accepts 1 "y // c" (.identifier ⟨⟨1, 1⟩, ⟨1, 2⟩⟩ "y") ∧
      ((TokenStream.ofSource ⟨false, 1⟩ "y // c").tokens.all
        fun t => !t.isKeyword .functionWord) = true ∧
      parse ⟨false, 1⟩ "x += y // c" = .ok ⟨commented, []⟩ ∧
      ∃ e, parse ⟨false, 1⟩ "x = x + (y // c)" = .error e := by
  have htarget : Tokenizes 1 "x" [glyph .identifier "x" 1] :=
    ⟨_, .next (by cbv) rfl .done, by simp⟩
  have haccepts : Accepts 1 "y // c" (.identifier ⟨⟨1, 1⟩, ⟨1, 2⟩⟩ "y") :=
    ⟨glyph .identifier "y" 1, [⟨.endOfFile, "<eof>", ⟨6, 6⟩, ⟨⟨1, 7⟩, ⟨1, 7⟩⟩⟩], 9, _, by cbv, rfl,
      rfl⟩
  exact ⟨htarget, .name rfl, haccepts, by cbv, by cbv, _, by cbv⟩

end LineScript
