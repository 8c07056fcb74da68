import LineScript.Proofs.Grammar.Moves

/-!
# No reading moves on from the end of the source

Every production looks at the current token before it moves on. One lemma says so for each
production, given that it holds of the productions it calls; unlike the proof that bounds suffice,
it needs to know nothing about the nodes that are passed around.
-/

namespace LineScript

namespace Reading

open Reader (Leads Sound)

variable {α β : Type}

/-- From a place, a reading has a run that never moves on from the end of the source. -/
def GuardedAt (r : Reader) (x : Reading α) : Prop :=
  ∃ ps, Moves x r ps (x r) ∧ ∀ p ∈ ps, p.current.isEndOfFile = false

/-- From a place at a token for which `P` holds, a reading has a run that never moves on from the
end of the source. -/
def Guarded (P : Token → Prop) (x : Reading α) : Prop :=
  ∀ r : Reader, r.Sound → P r.current → GuardedAt r x

/-- A reading that never moves on from the end of the source, whatever the current token is. -/
abbrev Safe (x : Reading α) : Prop := Guarded anyToken x

namespace GuardedAt

variable {r : Reader} {x : Reading α} {k : α → Reading β}

theorem leads {s : Reader} {a : α} (h : GuardedAt r x) (hx : x r = .ok a s) : r.Leads s := by
  obtain ⟨ps, hmoves, _⟩ := h
  rw [hx] at hmoves
  exact hmoves.leads

theorem bind (hx : GuardedAt r x) (hk : ∀ a s, x r = .ok a s → GuardedAt s (k a)) :
    GuardedAt r (x >>= k) := by
  obtain ⟨ps, hmoves, hps⟩ := hx
  unfold GuardedAt
  rw [bind_apply]
  cases hxr : x r with
  | ok a s =>
    rw [hxr] at hmoves
    obtain ⟨qs, hrest, hqs⟩ := hk a s hxr
    refine ⟨ps ++ qs, .bind hmoves hrest, ?_⟩
    intro p hp
    rcases List.mem_append.1 hp with hp | hp
    · exact hps p hp
    · exact hqs p hp
  | error e s =>
    rw [hxr] at hmoves
    exact ⟨ps, .stop hmoves, hps⟩

theorem pure (a : α) : GuardedAt r (pure a) := ⟨[], .pure a r, by simp⟩

theorem map {f : α → β} (hx : GuardedAt r x) : GuardedAt r (f <$> x) := by
  rw [map_eq_pure_bind]
  exact hx.bind fun a _ _ => pure (f a)

theorem point : GuardedAt r numberBehindPoint := ⟨[], .point r, by simp⟩

theorem current : GuardedAt r Reading.current := ⟨[], .current r, by simp⟩

/-- Moving on from a token other than the end of the source. -/
theorem advance (h : r.current.isEndOfFile = false) : GuardedAt r Reading.advance := by
  refine ⟨[r], .advance r, ?_⟩
  intro p hp
  rwa [List.mem_singleton.1 hp]

end GuardedAt

namespace Guarded

variable {P : Token → Prop} {x : Reading α} {k : α → Reading β}

theorem weaken {Q : Token → Prop} (h : Guarded Q x) (hPQ : ∀ t, P t → Q t) : Guarded P x :=
  fun r hr hP => h r hr (hPQ _ hP)

theorem any (h : Safe x) : Guarded P x := h.weaken fun _ _ => trivial

theorem pure (a : α) : Guarded P (pure a) := fun _ _ _ => .pure a

theorem exhausted : Guarded P (Reading.exhausted : Reading α) :=
  fun r _ _ => ⟨[], .exhausted r, by simp⟩

theorem bind (hx : Guarded P x) (hk : ∀ a, Safe (k a)) : Guarded P (x >>= k) :=
  fun r hr hP => (hx r hr hP).bind fun a s hs =>
    hk a s (hr.of_leads ((hx r hr hP).leads hs)) trivial

theorem map {f : α → β} (hx : Guarded P x) : Guarded P (f <$> x) := by
  rw [map_eq_pure_bind]
  exact hx.bind fun a => pure (f a)

theorem discard (hx : Guarded P x) : Guarded P (discard x) := by
  rw [discard_eq]
  exact hx.bind fun _ => pure ()

/-- A look at the current token, which what follows may go by. -/
theorem current {k : Token → Reading β} (hk : ∀ t, P t → Guarded (· = t) (k t)) :
    Guarded P (Reading.current >>= k) := by
  intro r hr hP
  refine GuardedAt.current.bind fun t s hs => ?_
  cases hs
  exact hk r.current hP r hr rfl

theorem previous {k : Token → Reading β} (hk : ∀ t, Guarded P (k t)) :
    Guarded P (Reading.previous >>= k) := by
  intro r hr hP
  obtain ⟨ps, hmoves, hps⟩ := hk r.previous r hr hP
  exact ⟨[] ++ ps, .bind (.previous r) hmoves, hps⟩

theorem note {name : String} {k : Reading β} (hk : Guarded P k) :
    Guarded P (Reading.note name >>= fun _ => k) := by
  intro r hr hP
  have hnote := Reader.leads_note r name
  obtain ⟨ps, hmoves, hps⟩ := hk (r.note name) (hr.of_leads hnote)
    (by rwa [Reader.current_note])
  exact ⟨[] ++ ps, .bind (.note name r) hmoves, hps⟩

theorem raise (f : ParseFault) : Guarded P (raise f) := by
  intro r _ _
  refine ⟨_, .raise f r, ?_⟩
  intro p hp
  split at hp
  · exact Reader.skips_not_end p hp
  · cases hp

theorem advance (hP : ∀ t, P t → t.isEndOfFile = false) : Guarded P Reading.advance :=
  fun r _ hr => .advance (hP r.current hr)

theorem next {k : Reading β} (hP : ∀ t, P t → t.isEndOfFile = false) (hk : Safe k) :
    Guarded P (Reading.advance >>= fun _ => k) :=
  (advance hP).bind fun _ => hk

theorem extentFrom (start : Position) : Guarded P (extentFrom start) :=
  previous fun _ => pure _

theorem emptyHere : Guarded P emptyHere := current fun _ _ => pure _

theorem test {P : Token → Prop} (accepts : Token → Bool)
    (h : ∀ t, accepts t = true → t.isEndOfFile = false) : Guarded P (do
      if accepts (← Reading.current) then
        Reading.advance
        return true
      else return false) := by
  refine current fun t _ => ?_
  split
  next ht => exact next (fun u hu => hu ▸ h t ht) (pure true)
  · exact pure false

theorem consumePunctuator (q : Punctuator) : Guarded P (consumePunctuator q) :=
  test (·.isPunctuator q)
    fun t ht => not_endOfFile_of_kind (by simpa [Token.isPunctuator] using ht) (by simp)

theorem consumeKeyword (k : Keyword) : Guarded P (consumeKeyword k) :=
  test (·.isKeyword k)
    fun t ht => not_endOfFile_of_kind (by simpa [Token.isKeyword] using ht) (by simp)

theorem consumeLineEnd : Guarded P consumeLineEnd := by
  unfold Reading.consumeLineEnd
  refine current fun t _ => ?_
  split
  next ht =>
    have hk : t.kind = .endOfLine := by simpa [Token.isEndOfLine] using ht
    exact advance fun u hu => not_endOfFile_of_kind (hu ▸ hk) (by simp)
  · exact pure ()

theorem expectPunctuator (q : Punctuator) : Guarded P (expectPunctuator q) := by
  unfold Reading.expectPunctuator
  refine (consumePunctuator q).bind fun b => ?_
  split
  · exact (raise _).discard
  · exact pure ()

theorem expectKeyword (k : Keyword) : Guarded P (expectKeyword k) := by
  unfold Reading.expectKeyword
  refine (consumeKeyword k).bind fun b => ?_
  split
  · exact (raise _).discard
  · exact pure ()

theorem expectLineBodyEnd (k : Keyword) : Guarded P (expectLineBodyEnd k) := by
  unfold Reading.expectLineBodyEnd
  refine current fun t _ => ?_
  split
  · exact pure ()
  · refine (consumeKeyword k).bind fun b => ?_
    split
    · exact (raise _).discard
    · exact pure ()

theorem identifier : Guarded P identifier := by
  unfold Reading.identifier
  refine current fun t _ => ?_
  split
  next ht =>
    have hk : t.kind = .identifier := by simpa [Token.isIdentifier] using ht
    exact note (next (fun u hu => not_endOfFile_of_kind (hu ▸ hk) (by simp)) (pure _))
  · exact raise _

theorem literal : Guarded (·.isLiteral = true) literal :=
  current fun _ ht => next (fun _ hu => hu ▸ not_endOfFile_of_isLiteral ht) (pure _)

theorem importStatement (start : Position) : Guarded P (importStatement start) := by
  unfold Reading.importStatement
  refine current fun t _ => ?_
  split
  · exact raise _
  next ht =>
    have hk : t.kind = .string := by simpa using ht
    refine next (fun _ hu => not_endOfFile_of_kind (hu ▸ hk) (by simp)) (current fun _ _ => ?_)
    split
    · exact pure _
    · exact raise _

/-- What stands behind a point is a number if that is what was found. -/
theorem kind_of_numberBehindPoint {r s : Reader} (hdot : r.current.kind = .punctuator .dot)
    (h : numberBehindPoint r = .ok true s) :
    ∃ t rest, r.rest = t :: rest ∧ t.kind = .number := by
  have hp : r.current.isPunctuator .dot = true := by simp [Token.isPunctuator, hdot]
  rw [numberBehindPoint, if_pos hp] at h
  obtain ⟨k, u, hpeek, hk⟩ := bind_eq_ok.1 h
  injection hk with hk _
  have hk : k = .number := by simpa using hk
  unfold peek at hpeek
  split at hpeek
  next _ t rest hrest =>
    cases hpeek
    exact ⟨t, rest, hrest, hk⟩
  · cases hpeek
  · cases hpeek
    rw [hdot] at hk
    cases hk

/-- Only where a number stands behind a point, both are moved over. -/
theorem fraction : Guarded (·.kind = .punctuator .dot) (do
    if ← numberBehindPoint then some <$> detachedFraction else return none) := by
  intro r hr hdot
  refine GuardedAt.point.bind fun b s hb => ?_
  obtain rfl := numberBehindPoint_ok hb
  cases b with
  | false => exact .pure none
  | true =>
    obtain ⟨t, rest, hrest, hnumber⟩ := kind_of_numberBehindPoint hdot hb
    refine GuardedAt.map (GuardedAt.current.bind fun u v hv => ?_)
    cases hv
    refine (GuardedAt.advance (not_endOfFile_of_kind hdot (by simp))).bind fun _ v hv => ?_
    have hstep : s.step = .ok v := advance_ok hv
    simp only [Reader.step, hrest, Except.ok.injEq] at hstep
    subst hstep
    refine GuardedAt.current.bind fun u v hv => ?_
    cases hv
    refine (GuardedAt.advance (not_endOfFile_of_kind hnumber (by simp))).bind fun _ _ _ => ?_
    exact .pure _

end Guarded

/-- The productions under a bound never move on from the end of the source. Two of them are only
called at a token that they move over at once. -/
structure Careful (n : Nat) : Prop where
  primary : Safe (primary n)
  righthand : Safe (righthand n)
  callSuffix : ∀ a, Guarded (·.kind = .punctuator .parenOpen) (callSuffix n a)
  suffixes : ∀ a, Safe (suffixes n a)
  unaryExpression : ∀ o, Guarded notEndOfFile (unaryExpression n o)
  binaryTail : ∀ a bound, Safe (binaryTail n a bound)
  operand : Safe (operand n)
  subExpression : ∀ bound, Safe (subExpression n bound)
  expression : Safe (expression n)
  expectedExpression : Safe (expectedExpression n)
  compoundAssignment : ∀ a o, Safe (compoundAssignment n a o)
  moreArguments : Safe (moreArguments n)
  mapFields : Safe (mapFields n)
  listItems : Safe (listItems n)
  statementTail : ∀ t a, Safe (statementTail n t a)
  assignmentOrCall : Safe (assignmentOrCall n)
  statement : ∀ inLine, Safe (statement n inLine)
  block : Safe (block n)
  lineBody : Safe (lineBody n)
  constructBody : ∀ k, Safe (constructBody n k)
  elseIfBlocks : Safe (elseIfBlocks n)
  elseBlock : Safe (elseBlock n)
  elseIfLines : Safe (elseIfLines n)
  elseLine : Safe (elseLine n)
  ifStatement : ∀ start, Safe (ifStatement n start)
  whileStatement : ∀ start, Safe (whileStatement n start)
  forStatement : ∀ start, Safe (forStatement n start)
  functionDeclaration : ∀ start, Safe (functionDeclaration n start)
  parameters : Safe (parameters n)
  returnStatement : ∀ start inLine, Safe (returnStatement n start inLine)

namespace Careful

variable {n : Nat}

theorem primary_succ (h : Careful n) : Safe (Reading.primary (n + 1)) := by
  rw [primary_eq]
  refine .current fun t _ => ?_
  split
  next hl =>
    refine .bind (Guarded.literal.weaken fun u hu => hu ▸ hl) fun e => .current fun u _ => ?_
    split
    · exact (h.suffixes e).any.map
    · exact .pure _
  · split
    next hk => exact Guarded.fraction.weaken fun u hu => hu ▸ hk
    next hk =>
      refine .next (fun u hu => not_endOfFile_of_kind (hu ▸ hk) (by simp)) ?_
      exact (h.functionDeclaration _).map
    next hk =>
      refine .next (fun u hu => not_endOfFile_of_kind (hu ▸ hk) (by simp)) ?_
      exact .bind h.mapFields fun fs => .bind (.extentFrom _) fun e => (h.suffixes _).map
    next hk =>
      refine .next (fun u hu => not_endOfFile_of_kind (hu ▸ hk) (by simp)) ?_
      refine .bind h.listItems fun ns => .bind (.expectPunctuator _) fun _ => ?_
      exact .bind (.extentFrom _) fun e => (h.suffixes _).map
    · exact .pure _

theorem righthand_succ (h : Careful n) : Safe (Reading.righthand (n + 1)) := by
  rw [Reading.righthand]
  refine .current fun t _ => ?_
  split
  next hk => exact .bind .identifier fun e => (h.suffixes e).map
  next hk =>
    refine .next (fun u hu => not_endOfFile_of_kind (hu ▸ hk) (by simp)) ?_
    refine .bind h.expectedExpression fun e => .bind (.expectPunctuator _) fun _ => ?_
    exact (h.suffixes e).map
  · exact .pure _

theorem callRemainder_safe (a : Node) (cs : List Node) : Safe (callRemainder a cs) :=
  .bind (.expectPunctuator _) fun _ => .bind (.extentFrom _) fun _ => .pure _

theorem callSuffix_succ (h : Careful n) (a : Node) :
    Guarded (·.kind = .punctuator .parenOpen) (Reading.callSuffix (n + 1) a) := by
  rw [callSuffix_eq]
  refine .previous fun t => .current fun u hu => ?_
  split
  · exact .raise _
  · refine .next (fun w hw => not_endOfFile_of_kind (hw ▸ hu) (by simp)) ?_
    refine .bind h.expression fun o => ?_
    cases o with
    | none => exact .bind (.pure _) fun cs => callRemainder_safe a cs
    | some e => exact .bind h.moreArguments.map fun cs => callRemainder_safe a cs

theorem suffixes_succ (h : Careful n) (a : Node) : Safe (Reading.suffixes (n + 1) a) := by
  rw [Reading.suffixes]
  refine .current fun t _ => ?_
  split
  next q hk =>
    have moved : ∀ u, u = t → u.isEndOfFile = false :=
      fun u hu => not_endOfFile_of_kind (hu ▸ hk) (by simp)
    split
    · exact .next moved (.bind (h.compoundAssignment a _) fun e => h.suffixes e)
    · split
      · refine .next moved (.bind h.expectedExpression fun c => ?_)
        exact .bind (.expectPunctuator _) fun _ => .bind (.extentFrom _) fun e => h.suffixes _
      · refine .next moved (.bind .identifier fun c => ?_)
        exact .bind (.extentFrom _) fun e => h.suffixes _
      · exact .bind ((h.callSuffix a).weaken fun u hu => hu ▸ hk) fun e => h.suffixes e
      · exact .pure _
  · exact .pure _

/-- An operand that may be missing, followed by something that is careful. -/
theorem orEmpty {α : Type} {x : Reading (Option Node)} {k : Node → Reading α} {P : Token → Prop}
    (hx : Guarded P x) (hk : ∀ a, Safe (k a)) :
    Guarded P (x >>= fun o => match o with
      | some e => Pure.pure e >>= k
      | none => Reading.emptyHere >>= k) := by
  refine .bind hx fun o => ?_
  cases o with
  | none => exact .bind .emptyHere hk
  | some e => exact hk e

theorem unaryExpression_succ (h : Careful n) (o : UnaryOperator) :
    Guarded notEndOfFile (Reading.unaryExpression (n + 1) o) := by
  rw [Reading.unaryExpression]
  refine .current fun t ht => .next (fun u hu => hu ▸ ht) ?_
  exact orEmpty h.operand fun a => .bind (.extentFrom _) fun _ => .pure _

theorem binaryTail_succ (h : Careful n) (a : Node) (bound : Nat) :
    Safe (Reading.binaryTail (n + 1) a bound) := by
  rw [Reading.binaryTail]
  refine .current fun t _ => ?_
  cases ho : BinaryOperator.ofToken? t with
  | none => exact .pure _
  | some o =>
    dsimp only
    split
    · exact .pure _
    · refine .next (fun u hu => hu ▸ Ample.not_endOfFile_of_binaryOperator ho) ?_
      refine orEmpty (h.subExpression _) fun c => ?_
      exact .bind (.extentFrom _) fun e => h.binaryTail _ bound

theorem operand_succ (h : Careful n) : Safe (Reading.operand (n + 1)) := by
  rw [Reading.operand]
  refine .bind h.primary fun o => ?_
  cases o with
  | none => exact h.righthand
  | some e => exact .pure _

theorem subExpression_succ (h : Careful n) (bound : Nat) :
    Safe (Reading.subExpression (n + 1) bound) := by
  rw [Reading.subExpression]
  refine .current fun t _ => ?_
  split
  next o ho =>
    refine .bind ((h.unaryExpression o).weaken fun u hu =>
      hu ▸ Ample.not_endOfFile_of_unaryOperator ho) fun e => ?_
    exact (h.binaryTail e bound).map
  · refine .bind h.operand.any fun o => ?_
    cases o with
    | none => exact .pure _
    | some e => exact (h.binaryTail e bound).map

theorem expectedExpression_succ (h : Careful n) : Safe (Reading.expectedExpression (n + 1)) := by
  rw [Reading.expectedExpression]
  refine .bind h.expression fun o => ?_
  cases o with
  | none => exact .raise _
  | some e => exact .pure _

theorem compoundAssignment_succ (h : Careful n) (a : Node) (o : BinaryOperator) :
    Safe (Reading.compoundAssignment (n + 1) a o) := by
  rw [Reading.compoundAssignment]
  refine .current fun t _ => ?_
  exact orEmpty (h.subExpression 0).any fun c => .previous fun _ => .pure _

theorem moreArguments_succ (h : Careful n) : Safe (Reading.moreArguments (n + 1)) := by
  rw [Reading.moreArguments]
  refine .bind (.consumePunctuator _) fun b => ?_
  split
  · exact .bind h.expectedExpression fun e => h.moreArguments.map
  · exact .pure _

theorem fieldsRemainder_safe (h : Careful n) (entry : List Field) :
    Safe (fieldsRemainder n entry) := by
  unfold fieldsRemainder
  refine .bind (.consumePunctuator _) fun b => ?_
  split
  · exact .pure _
  · refine .current fun t _ => ?_
    split
    next hs =>
      exact .next (fun u hu => hu ▸ Ample.not_endOfFile_of_isSeparator hs) h.mapFields.map
    · exact .bind (.discard (.raise _)) fun _ => .pure _

theorem mapFields_succ (h : Careful n) : Safe (Reading.mapFields (n + 1)) := by
  rw [mapFields_eq]
  refine .current fun t _ => ?_
  dsimp only
  split
  next hk =>
    have hk : t.kind = .string := by simpa using hk
    refine .next (fun u hu => not_endOfFile_of_kind (hu ▸ hk) (by simp)) ?_
    refine .bind (.expectPunctuator _) fun _ => .bind h.expectedExpression fun e => ?_
    exact h.fieldsRemainder_safe _
  · exact (h.fieldsRemainder_safe _).any

theorem listItems_succ (h : Careful n) : Safe (Reading.listItems (n + 1)) := by
  rw [Reading.listItems]
  refine .bind h.expression fun o => .current fun t _ => ?_
  split
  next hs => exact .next (fun u hu => hu ▸ Ample.not_endOfFile_of_isSeparator hs) h.listItems.map
  · exact .pure _

theorem targetRemainder_safe (h : Careful n) (t : Token) (suffixed : Bool) (e : Node) :
    Safe (targetRemainder n t suffixed e) := by
  unfold targetRemainder
  refine .current fun v _ => ?_
  split
  · split
    · exact .pure _
    · exact .bind (.extentFrom _) fun _ => .pure _
  · refine .bind (.expectPunctuator _) fun _ => .bind h.expectedExpression fun v => ?_
    exact .bind (.extentFrom _) fun _ => .pure _

theorem statementTail_succ (h : Careful n) (t : Token) (a : Node) :
    Safe (Reading.statementTail (n + 1) t a) := by
  rw [statementTail_eq]
  refine .current fun u _ => ?_
  split
  · exact (h.binaryTail a 0).any
  · refine .current fun w _ => ?_
    dsimp only
    split
    · exact .bind (h.suffixes a).any fun e => h.targetRemainder_safe t _ e
    · exact (h.targetRemainder_safe t _ a).any

theorem assignmentOrCall_succ (h : Careful n) : Safe (Reading.assignmentOrCall (n + 1)) := by
  rw [Reading.assignmentOrCall]
  refine .current fun t _ => ?_
  have opened : Guarded (· = t) (do
      let e ← Reading.expectedExpression n
      Reading.statementTail n t e) :=
    .bind h.expectedExpression.any fun e => h.statementTail t e
  split
  · exact .bind .identifier fun e => h.statementTail t e
  next hk =>
    refine .next (fun u hu => not_endOfFile_of_kind (hu ▸ hk) (by simp)) ?_
    refine .bind h.expectedExpression fun e => .bind (.expectPunctuator _) fun _ => ?_
    exact h.statementTail t e
  · exact opened
  · exact opened
  · split
    · exact opened
    · exact .raise _

theorem statement_succ (h : Careful n) (inLine : Bool) :
    Safe (Reading.statement (n + 1) inLine) := by
  rw [Reading.statement]
  refine .current fun t _ => ?_
  have next : ∀ {k : TokenKind} {x : Reading (Option Node)}, t.kind = k → k ≠ .endOfFile →
      Safe x → Guarded (· = t) (Reading.advance >>= fun _ => x) :=
    fun hk hne hx => .next (fun u hu => not_endOfFile_of_kind (hu ▸ hk) hne) hx
  split
  next hk => exact next hk (by simp) (.pure _)
  next hk => exact next hk (by simp) (h.ifStatement _).map
  next hk => exact next hk (by simp) (h.returnStatement _ _).map
  next hk => exact next hk (by simp) (h.functionDeclaration _).map
  next hk => exact next hk (by simp) (h.whileStatement _).map
  next hk => exact next hk (by simp) (h.forStatement _).map
  next hk => exact next hk (by simp) (.pure _)
  next hk => exact next hk (by simp) (.pure _)
  next hk => exact next hk (by simp) (.pure _)
  next hk => exact next hk (by simp) (.map (.importStatement _))
  · exact h.assignmentOrCall.any.map

theorem block_succ (h : Careful n) : Safe (Reading.block (n + 1)) := by
  rw [Reading.block]
  refine .current fun t _ => ?_
  split
  · exact .pure _
  · exact .bind (h.statement _).any fun s => .bind .consumeLineEnd fun _ => h.block.map

theorem lineBody_succ (h : Careful n) : Safe (Reading.lineBody (n + 1)) := by
  rw [Reading.lineBody]
  refine .current fun t _ => ?_
  split
  · exact .pure _
  · exact .bind (h.statement _).any fun s => h.lineBody.map

theorem constructBody_succ (h : Careful n) (k : Keyword) :
    Safe (Reading.constructBody (n + 1) k) := by
  rw [Reading.constructBody]
  refine .current fun t _ => ?_
  split
  · exact .bind h.block.any fun s => .bind (.expectKeyword _) fun _ => .pure _
  · exact .bind h.lineBody.any fun s => .bind (.expectLineBodyEnd _) fun _ => .pure _

theorem elseIfBlocks_succ (h : Careful n) : Safe (Reading.elseIfBlocks (n + 1)) := by
  rw [Reading.elseIfBlocks]
  refine .bind (.consumeKeyword _) fun b => ?_
  split
  · refine .previous fun t => .bind h.expectedExpression fun c => ?_
    refine .bind (.expectKeyword _) fun _ => .bind h.block fun s => ?_
    exact .bind (.extentFrom _) fun e => h.elseIfBlocks.map
  · exact .pure _

theorem elseBlock_succ (h : Careful n) : Safe (Reading.elseBlock (n + 1)) := by
  rw [Reading.elseBlock]
  refine .bind (.consumeKeyword _) fun b => ?_
  split
  · exact .previous fun t => .bind h.block fun s => .bind (.extentFrom _) fun _ => .pure _
  · exact .pure _

theorem elseIfLines_succ (h : Careful n) : Safe (Reading.elseIfLines (n + 1)) := by
  rw [Reading.elseIfLines]
  refine .bind (.consumeKeyword _) fun b => ?_
  split
  · refine .previous fun t => .bind h.expectedExpression fun c => ?_
    refine .bind (.expectKeyword _) fun _ => .bind h.lineBody fun s => ?_
    exact .bind (.extentFrom _) fun e => .bind .consumeLineEnd fun _ => h.elseIfLines.map
  · exact .pure _

theorem elseLine_succ (h : Careful n) : Safe (Reading.elseLine (n + 1)) := by
  rw [Reading.elseLine]
  refine .bind (.consumeKeyword _) fun b => ?_
  split
  · refine .previous fun t => .bind h.lineBody fun s => ?_
    exact .bind (.extentFrom _) fun _ => .bind .consumeLineEnd fun _ => .pure _
  · exact .pure _

theorem ifStatement_succ (h : Careful n) (start : Position) :
    Safe (Reading.ifStatement (n + 1) start) := by
  rw [Reading.ifStatement]
  refine .bind h.expectedExpression fun c => .bind (.expectKeyword _) fun _ => ?_
  refine .current fun t _ => ?_
  split
  · refine .bind h.block.any fun s => .bind (.extentFrom _) fun e => ?_
    refine .bind h.elseIfBlocks fun cs => .bind h.elseBlock fun ds => ?_
    exact .bind (.expectKeyword _) fun _ => .bind (.extentFrom _) fun _ => .pure _
  · refine .bind h.lineBody.any fun s => .bind (.extentFrom _) fun e => ?_
    refine .bind .consumeLineEnd fun _ => .bind h.elseIfLines fun cs => ?_
    refine .bind h.elseLine fun ds => .bind (.consumeKeyword _) fun closed => ?_
    split
    · exact .bind .consumeLineEnd fun _ => .bind (.extentFrom _) fun _ => .pure _
    · exact .bind (.extentFrom _) fun _ => .pure _

theorem whileStatement_succ (h : Careful n) (start : Position) :
    Safe (Reading.whileStatement (n + 1) start) := by
  rw [Reading.whileStatement]
  refine .bind h.expectedExpression fun c => .bind (h.constructBody _) fun s => ?_
  exact .bind (.extentFrom _) fun _ => .pure _

theorem forStatement_succ (h : Careful n) (start : Position) :
    Safe (Reading.forStatement (n + 1) start) := by
  rw [Reading.forStatement]
  refine .bind (.discard (.consumePunctuator _)) fun _ => .bind .identifier fun v => ?_
  refine .bind (.expectKeyword _) fun _ => .bind h.expectedExpression fun c => ?_
  refine .bind (.discard (.consumePunctuator _)) fun _ => .bind (h.constructBody _) fun s => ?_
  exact .bind (.extentFrom _) fun _ => .pure _

theorem functionDeclaration_succ (h : Careful n) (start : Position) :
    Safe (Reading.functionDeclaration (n + 1) start) := by
  rw [functionDeclaration_eq]
  have body : ∀ (name : Option String) (ps : Except Node (List Parameter)),
      Safe (functionBody n start name ps) := by
    intro name ps
    cases ps with
    | error a => exact .pure _
    | ok ps => exact .bind (h.constructBody _) fun s => .bind (.extentFrom _) fun _ => .pure _
  have header : ∀ name : Option String, Safe (functionRemainder n start name) := by
    intro name
    unfold functionRemainder
    refine .bind (.expectPunctuator _) fun _ => .bind (.consumePunctuator _) fun b => ?_
    split
    · exact body name (.ok [])
    · exact .bind h.parameters fun ps => body name ps
  refine .current fun t _ => ?_
  dsimp only
  split
  · exact .bind (.discard .identifier) fun _ => header _
  · exact (header _).any

theorem parameters_succ (h : Careful n) : Safe (Reading.parameters (n + 1)) := by
  rw [parameters_eq]
  refine .current fun t _ => ?_
  split
  · exact .map (.raise _)
  next ht =>
    have rest : ∀ d : Option Node, Safe (parametersRemainder n t d) := by
      intro d
      unfold parametersRemainder
      refine .bind (.extentFrom _) fun e => .bind (.consumePunctuator _) fun b => ?_
      split
      · refine .bind h.parameters fun ps => ?_
        cases ps <;> exact .pure _
      · exact .bind (.expectPunctuator _) fun _ => .pure _
    have hi : t.kind = .identifier := by simpa [Token.isIdentifier] using ht
    refine .note (.next (fun u hu => not_endOfFile_of_kind (hu ▸ hi) (by simp)) ?_)
    refine .bind (.consumePunctuator _) fun b => ?_
    split
    · exact .bind h.expectedExpression.map fun d => rest d
    · exact rest none

theorem returnStatement_succ (h : Careful n) (start : Position) (inLine : Bool) :
    Safe (Reading.returnStatement (n + 1) start inLine) := by
  rw [Reading.returnStatement]
  refine .bind h.expression fun o => .bind (.extentFrom _) fun e => ?_
  dsimp only
  split
  · exact .bind .consumeLineEnd fun _ => .pure _
  · exact .pure _

/-- Under the bound zero nothing is read. -/
theorem zero : Careful 0 := by
  constructor <;> intros <;> exact .exhausted

theorem succ (h : Careful n) : Careful (n + 1) where
  primary := h.primary_succ
  righthand := h.righthand_succ
  callSuffix := h.callSuffix_succ
  suffixes := h.suffixes_succ
  unaryExpression := h.unaryExpression_succ
  binaryTail := h.binaryTail_succ
  operand := h.operand_succ
  subExpression := h.subExpression_succ
  expression := by
    rw [Reading.expression]
    exact h.subExpression 0
  expectedExpression := h.expectedExpression_succ
  compoundAssignment := h.compoundAssignment_succ
  moreArguments := h.moreArguments_succ
  mapFields := h.mapFields_succ
  listItems := h.listItems_succ
  statementTail := h.statementTail_succ
  assignmentOrCall := h.assignmentOrCall_succ
  statement := h.statement_succ
  block := h.block_succ
  lineBody := h.lineBody_succ
  constructBody := h.constructBody_succ
  elseIfBlocks := h.elseIfBlocks_succ
  elseBlock := h.elseBlock_succ
  elseIfLines := h.elseIfLines_succ
  elseLine := h.elseLine_succ
  ifStatement := h.ifStatement_succ
  whileStatement := h.whileStatement_succ
  forStatement := h.forStatement_succ
  functionDeclaration := h.functionDeclaration_succ
  parameters := h.parameters_succ
  returnStatement := h.returnStatement_succ

end Careful

/-- The productions never move on from the end of the source. -/
theorem careful (n : Nat) : Careful n := by
  induction n with
  | zero => exact .zero
  | succ n ih => exact ih.succ

theorem chunkBody_safe (n : Nat) : Safe (chunkBody n) := by
  induction n with
  | zero => exact .exhausted
  | succ n ih =>
    rw [chunkBody]
    refine .bind (careful n).block fun body => .current fun t _ => ?_
    split
    · exact .pure _
    · exact .bind (.raise _) fun unread => .bind ih fun more => .pure _

end Reading

end LineScript
