import LineScript.Proofs.Grammar.Productions

/-!
# Where readings move

Which productions move over a token whenever they succeed, and which readings no bound cuts short.
A reading is fed if the tokens ahead are few enough for its bound; every token that is moved over
gives room for `32` more nested readings.
-/

namespace LineScript

namespace Reader

/-- The last token ahead is the end of the source, unless an error stopped the scanner, which a
lenient scanner never does. -/
structure Sound (r : Reader) : Prop where
  last : r.stop = none → ∀ t ∈ (r.current :: r.rest).getLast?, t.isEndOfFile = true
  lenient : r.lenient = true → r.stop = none

theorem getLast?_of_suffix {a b : Token} {as bs : List Token} (h : a :: as <:+ b :: bs) :
    (a :: as).getLast? = (b :: bs).getLast? := by
  obtain ⟨u, hu⟩ := h
  rw [← hu, List.getLast?_append]
  simp [List.getLast?_cons]

theorem Sound.of_leads {r s : Reader} (h : r.Sound) (hrs : r.Leads s) : s.Sound where
  last hs := by
    rw [getLast?_of_suffix hrs.tokens]
    exact h.last (hrs.stop ▸ hs)
  lenient hl := by
    rw [hrs.stop]
    exact h.lenient (hrs.lenient ▸ hl)

/-- Only at the end of the source nothing is ahead. -/
theorem Sound.rest_ne_nil {r : Reader} (h : r.Sound) (hs : r.stop = none)
    (hc : r.current.isEndOfFile = false) : r.rest ≠ [] := by
  intro hr
  have := h.last hs r.current (by simp [hr])
  simp [this] at hc

theorem step_length {r s : Reader} (h : r.Sound) (hc : r.current.isEndOfFile = false)
    (hs : r.step = .ok s) : s.rest.length < r.rest.length := by
  obtain ⟨t, rest, hrest, rfl⟩ | ⟨hrest, hstop, rfl⟩ := step_ok hs
  · simp [hrest]
  · exact absurd hrest (h.rest_ne_nil hstop hc)

theorem lineEnd_length_le (current previous : Token) (rest : List Token) :
    (lineEnd current previous rest).2.2.length ≤ rest.length := by
  have := (lineEnd_suffix current previous rest).length_le
  simpa using this

/-- Skipping a line moves over the current token, unless that ends the line. -/
theorem skipLine_length {r : Reader} (h : r.Sound) (hl : r.lenient = true)
    (hc : r.current.isTerminator = false) : r.skipLine.rest.length < r.rest.length := by
  have hne := h.rest_ne_nil (h.lenient hl) (by
    simp only [Token.isTerminator, Bool.or_eq_false_iff] at hc
    exact hc.2)
  obtain ⟨t, rest, hrest⟩ := List.exists_cons_of_ne_nil hne
  have hle := lineEnd_length_le t r.current rest
  simp only [skipLine, hrest, lineEnd, hc, Bool.false_eq_true, if_false, List.length_cons]
  omega

theorem rest_note (r : Reader) (name : String) : (r.note name).rest = r.rest := by
  unfold note
  split <;> rfl

theorem current_note (r : Reader) (name : String) :
    (r.note name).current = r.current := by
  unfold note
  split <;> rfl

end Reader

namespace Reading

open Reader (Leads Sound)

variable {α β : Type}

/-- A reading that is built from steps, and whose results `V` relates to something. -/
abbrev Built (V : α → α → Prop) (x : Reading α) : Prop := Alike .same false true true V x x

/-- A reading only moves forward. -/
def Advances (x : Reading α) : Prop := ∀ (r s : Reader) (a : α), x r = .ok a s → r.Leads s

namespace Advances

theorem of_built {V : α → α → Prop} {x : Reading α} (h : Built V x) : Advances x :=
  fun _ _ _ hx => (h.leads (fun _ => rfl) hx).2

theorem pure (a : α) : Advances (pure a : Reading α) :=
  of_built (.pure (V := fun _ _ => True) trivial)

theorem bind {V : α → α → Prop} {x : Reading α} {k : α → Reading β} (hx : Built V x)
    (hk : ∀ a c, V a c → Advances (k a)) : Advances (x >>= k) := by
  intro r s b h
  obtain ⟨a, t, hxt, hks⟩ := bind_eq_ok.1 h
  obtain ⟨⟨c, hc⟩, hrt⟩ := hx.leads (fun _ => rfl) hxt
  exact hrt.trans (hk a c hc t s b hks)

theorem map {x : Reading α} {f : α → β} (hx : Advances x) : Advances (f <$> x) := by
  rw [map_eq_pure_bind]
  intro r s b h
  obtain ⟨a, t, hxt, hks⟩ := bind_eq_ok.1 h
  cases hks
  exact hx r _ a hxt

end Advances

/-- At a token for which `P` holds, a reading moves over a token whenever it succeeds. -/
def Consumes (P : Token → Prop) (x : Reading α) : Prop :=
  ∀ (r s : Reader) (a : α), r.Sound → P r.current → x r = .ok a s → s.rest.length < r.rest.length

/-- A reading that no bound cuts short. -/
def Unbounded (x : Reading α) : Prop := ∀ r s : Reader, x r ≠ .error .exhausted s

namespace Unbounded

theorem pure (a : α) : Unbounded (pure a) := by
  intro r s h
  cases h

theorem bind {x : Reading α} {k : α → Reading β} (hx : Unbounded x) (hk : ∀ a, Unbounded (k a)) :
    Unbounded (x >>= k) := by
  intro r s h
  rw [bind_apply] at h
  cases hxr : x r with
  | ok a t =>
    rw [hxr] at h
    exact hk a t s h
  | error e t =>
    rw [hxr] at h
    cases h
    exact hx r _ hxr

theorem current : Unbounded current := by
  intro r s h
  cases h

theorem previous : Unbounded previous := by
  intro r s h
  cases h

theorem note (name : String) : Unbounded (note name) := by
  intro r s h
  cases h

theorem raise (f : ParseFault) : Unbounded (raise f) := by
  intro r s h
  unfold Reading.raise at h
  dsimp only at h
  split at h <;> cases h

theorem advance : Unbounded advance := by
  intro r s h
  unfold Reading.advance at h
  split at h
  · cases h
  next he =>
    obtain ⟨_, _, _, rfl⟩ := Reader.step_error he
    cases h

theorem numberBehindPoint : Unbounded numberBehindPoint := by
  intro r s h
  unfold Reading.numberBehindPoint at h
  split at h
  · have hp : Unbounded peek := by
      intro r s h
      unfold peek at h
      split at h <;> cases h
    exact bind hp (fun _ => pure _) r s h
  · cases h

theorem discard {x : Reading α} (hx : Unbounded x) : Unbounded (discard x) := by
  rw [discard_eq]
  exact hx.bind fun _ => pure ()

theorem consumePunctuator (q : Punctuator) : Unbounded (consumePunctuator q) := by
  unfold Reading.consumePunctuator
  refine current.bind fun t => ?_
  split
  · exact advance.bind fun _ => pure true
  · exact pure false

theorem consumeKeyword (k : Keyword) : Unbounded (consumeKeyword k) := by
  unfold Reading.consumeKeyword
  refine current.bind fun t => ?_
  split
  · exact advance.bind fun _ => pure true
  · exact pure false

theorem consumeLineEnd : Unbounded consumeLineEnd := by
  unfold Reading.consumeLineEnd
  refine current.bind fun t => ?_
  split
  · exact advance
  · exact pure ()

theorem expectPunctuator (q : Punctuator) : Unbounded (expectPunctuator q) := by
  unfold Reading.expectPunctuator
  refine (consumePunctuator q).bind fun b => ?_
  split
  · exact (raise _).discard
  · exact pure ()

theorem expectKeyword (k : Keyword) : Unbounded (expectKeyword k) := by
  unfold Reading.expectKeyword
  refine (consumeKeyword k).bind fun b => ?_
  split
  · exact (raise _).discard
  · exact pure ()

theorem expectLineBodyEnd (k : Keyword) : Unbounded (expectLineBodyEnd k) := by
  unfold Reading.expectLineBodyEnd
  refine current.bind fun t => ?_
  split
  · exact pure ()
  · refine (consumeKeyword k).bind fun b => ?_
    split
    · exact (raise _).discard
    · exact pure ()

theorem extentFrom (start : Position) : Unbounded (extentFrom start) :=
  previous.bind fun _ => pure _

theorem emptyHere : Unbounded emptyHere :=
  current.bind fun _ => pure _

theorem identifier : Unbounded identifier := by
  unfold Reading.identifier
  refine current.bind fun t => ?_
  split
  · exact (note _).bind fun _ => advance.bind fun _ => pure _
  · exact raise _

theorem literal : Unbounded literal :=
  current.bind fun _ => advance.bind fun _ => pure _

theorem detachedFraction : Unbounded detachedFraction :=
  current.bind fun _ => advance.bind fun _ => current.bind fun _ => advance.bind fun _ => pure _

theorem importStatement (start : Position) : Unbounded (importStatement start) := by
  unfold Reading.importStatement
  refine current.bind fun t => ?_
  split
  · exact raise _
  · refine advance.bind fun _ => current.bind fun u => ?_
    split
    · exact pure _
    · exact raise _

end Unbounded

/-- At a token for which `P` holds, and with tokens ahead that `b` has room for, a reading is never
exhausted. -/
def Fed (P : Token → Prop) (b : Nat) (x : Reading α) : Prop :=
  ∀ r s : Reader, r.Sound → P r.current → 32 * r.rest.length ≤ b → x r ≠ .error .exhausted s

/-- Any token. -/
def anyToken (_ : Token) : Prop := True

/-- Any token but the end of the source. -/
def notEndOfFile (t : Token) : Prop := t.isEndOfFile = false

namespace Fed

variable {P : Token → Prop} {b : Nat} {x : Reading α} {k : α → Reading β}

theorem of_unbounded (h : Unbounded x) : Fed P b x := fun r s _ _ _ => h r s

theorem pure (a : α) : Fed P b (pure a) := of_unbounded (.pure a)

theorem raise (f : ParseFault) : Fed P b (raise f) := of_unbounded (.raise f)

theorem weaken {Q : Token → Prop} (h : Fed Q b x) (hPQ : ∀ t, P t → Q t) : Fed P b x :=
  fun r s hs hP hb => h r s hs (hPQ _ hP) hb

/-- A reading in front that may move. -/
theorem bind {V : α → α → Prop} (hx : Fed P b x) (ha : Built V x)
    (hk : ∀ a c, V a c → Fed anyToken b (k a)) : Fed P b (x >>= k) := by
  intro r s hs hP hb h
  rw [bind_apply] at h
  cases hxr : x r with
  | ok a t =>
    rw [hxr] at h
    obtain ⟨⟨c, hc⟩, hrt⟩ := ha.leads (fun _ => rfl) hxr
    have hle := hrt.length_le
    exact hk a c hc t s (hs.of_leads hrt) trivial (by omega) h
  | error e t =>
    rw [hxr] at h
    cases h
    exact hx r _ hs hP hb hxr

/-- A reading in front that no bound cuts short. -/
theorem free {V : α → α → Prop} (hx : Unbounded x) (ha : Built V x)
    (hk : ∀ a c, V a c → Fed anyToken b (k a)) : Fed P b (x >>= k) :=
  .bind (of_unbounded hx) ha hk

/-- A reading in front that moves gives room for one more token. -/
theorem bind_consumes {V : α → α → Prop} (hx : Fed P b x) (ha : Built V x) (hc : Consumes P x)
    (hk : ∀ a c, V a c → 32 ≤ b → Fed anyToken (b - 32) (k a)) : Fed P b (x >>= k) := by
  intro r s hs hP hb h
  rw [bind_apply] at h
  cases hxr : x r with
  | ok a t =>
    rw [hxr] at h
    obtain ⟨⟨c, hac⟩, hrt⟩ := ha.leads (fun _ => rfl) hxr
    have hlt := hc r t a hs hP hxr
    exact hk a c hac (by omega) t s (hs.of_leads hrt) trivial (by omega) h
  | error e t =>
    rw [hxr] at h
    cases h
    exact hx r _ hs hP hb hxr

theorem current {k : Token → Reading β} (hk : ∀ t, P t → Fed (· = t) b (k t)) :
    Fed P b (Reading.current >>= k) :=
  fun r s hs hP hb h => hk r.current hP r s hs rfl hb h

theorem previous {k : Token → Reading β} (hk : ∀ t, Fed P b (k t)) :
    Fed P b (Reading.previous >>= k) :=
  fun r s hs hP hb h => hk r.previous r s hs hP hb h

theorem map {f : α → β} (hx : Fed P b x) : Fed P b (f <$> x) := by
  rw [map_eq_pure_bind]
  intro r s hs hP hb h
  rw [bind_apply] at h
  cases hxr : x r with
  | ok a t =>
    rw [hxr] at h
    cases h
  | error e t =>
    rw [hxr] at h
    cases h
    exact hx r _ hs hP hb hxr

theorem any (h : Fed anyToken b x) : Fed P b x :=
  h.weaken fun _ _ => trivial

/-- Moving on from a token other than the end of the source. -/
theorem next {k : Reading β} (hP : ∀ t, P t → t.isEndOfFile = false)
    (hk : 32 ≤ b → Fed anyToken (b - 32) k) : Fed P b (Reading.advance >>= fun _ => k) :=
  .bind_consumes (of_unbounded .advance) .advance
    (fun _ _ _ hs hP' hr => Reader.step_length hs (hP _ hP') (advance_ok hr)) fun _ _ _ => hk

end Fed

theorem not_endOfFile_of_kind {t : Token} {k : TokenKind} (h : t.kind = k)
    (hk : k ≠ .endOfFile) : t.isEndOfFile = false := by
  simp [Token.isEndOfFile, h, hk]

theorem Fed.consumed {P : Token → Prop} {b : Nat} {k : Bool → Reading β} (test : Token → Bool)
    (ht : ∀ t, test t = true → t.isEndOfFile = false)
    (hyes : 32 ≤ b → Fed anyToken (b - 32) (k true)) (hno : Fed anyToken b (k false)) :
    Fed P b
      ((do
        if test (← Reading.current) then
          Reading.advance
          return true
        else return false) >>= k) := by
  rw [bind_assoc]
  refine .current fun t _ => ?_
  split
  next h =>
    rw [bind_assoc]
    refine .next (fun u hu => hu ▸ ht t h) fun hb => ?_
    rw [pure_bind]
    exact hyes hb
  · rw [pure_bind]
    exact hno.weaken fun _ _ => trivial

namespace Fed

variable {P : Token → Prop} {b : Nat}

theorem consumePunctuator {q : Punctuator} {k : Bool → Reading β}
    (hyes : 32 ≤ b → Fed anyToken (b - 32) (k true)) (hno : Fed anyToken b (k false)) :
    Fed P b (consumePunctuator q >>= k) :=
  consumed (·.isPunctuator q)
    (fun t ht => not_endOfFile_of_kind (by simpa [Token.isPunctuator] using ht) (by simp)) hyes hno

theorem consumeKeyword {q : Keyword} {k : Bool → Reading β}
    (hyes : 32 ≤ b → Fed anyToken (b - 32) (k true)) (hno : Fed anyToken b (k false)) :
    Fed P b (consumeKeyword q >>= k) :=
  consumed (·.isKeyword q)
    (fun t ht => not_endOfFile_of_kind (by simpa [Token.isKeyword] using ht) (by simp)) hyes hno

end Fed

namespace Consumes

variable {P : Token → Prop} {x : Reading α} {k : α → Reading β}

theorem weaken {Q : Token → Prop} (h : Consumes Q x) (hPQ : ∀ t, P t → Q t) : Consumes P x :=
  fun r s a hs hP hx => h r s a hs (hPQ _ hP) hx

theorem bind {V : α → α → Prop} (hx : Consumes P x) (ha : Built V x)
    (hk : ∀ a c, V a c → Advances (k a)) : Consumes P (x >>= k) := by
  intro r s b hs hP h
  obtain ⟨a, t, hxt, hks⟩ := bind_eq_ok.1 h
  obtain ⟨⟨c, hc⟩, _⟩ := ha.leads (fun _ => rfl) hxt
  have := hx r t a hs hP hxt
  have := (hk a c hc t s b hks).length_le
  omega

theorem map {f : α → β} (hx : Consumes P x) : Consumes P (f <$> x) := by
  rw [map_eq_pure_bind]
  intro r s b hs hP h
  obtain ⟨a, t, hxt, hks⟩ := bind_eq_ok.1 h
  cases hks
  exact hx r _ a hs hP hxt

theorem current {k : Token → Reading β} (hk : ∀ t, P t → Consumes (· = t) (k t)) :
    Consumes P (Reading.current >>= k) :=
  fun r s b hs hP h => hk r.current hP r s b hs rfl h

theorem next {k : Reading β} (hP : ∀ t, P t → t.isEndOfFile = false) (hk : Advances k) :
    Consumes P (Reading.advance >>= fun _ => k) :=
  bind (fun _ _ _ hs hP' hr => Reader.step_length hs (hP _ hP') (advance_ok hr)) .advance
    fun _ _ _ => hk

theorem raise (f : ParseFault) : Consumes (·.isTerminator = false) (raise f) := by
  intro r s a hs hP h
  cases hl : r.lenient with
  | false =>
    rw [raise_strict hl] at h
    cases h
  | true =>
    rw [raise_lenient hl] at h
    cases h
    exact Reader.skipLine_length hs hl hP

end Consumes

theorem Consumes.note {P : Token → Prop} {name : String} {k : Reading β} (hk : Consumes P k) :
    Consumes P (Reading.note name >>= fun _ => k) := by
  intro r s b hs hP h
  have := hk (r.note name) s b (hs.of_leads (Reader.leads_note r name))
    (by rwa [Reader.current_note]) h
  rwa [Reader.rest_note] at this

theorem Fed.note {P : Token → Prop} {b : Nat} {name : String} {k : Reading β} (hk : Fed P b k) :
    Fed P b (Reading.note name >>= fun _ => k) := by
  intro r s hs hP hb h
  exact hk (r.note name) s (hs.of_leads (Reader.leads_note r name))
    (by rwa [Reader.current_note]) (by rwa [Reader.rest_note]) h

/-- The productions are built from steps. -/
theorem built (n : Nat) : Level .same false true true n n := level (.inl rfl)

theorem operand_same {a : Node} (h : a.IsOperand true) : Placement.same.operand true a a :=
  ⟨(Node.relocate_id a).symm, h⟩

theorem identifier_consumes : Consumes (·.isIdentifier = true) identifier := by
  unfold identifier
  refine .current fun t ht => ?_
  rw [if_pos ht]
  refine .note (.next ?_ (.pure _))
  rintro _ rfl
  exact not_endOfFile_of_kind (by simpa [Token.isIdentifier] using ht) (by simp)

/-- The tokens that begin a literal, a list or a map. -/
def opensOperand (t : Token) : Prop :=
  t.isLiteral = true ∨ t.kind = .punctuator .braceOpen ∨ t.kind = .punctuator .bracketOpen

theorem not_endOfFile_of_isLiteral {t : Token} (h : t.isLiteral = true) :
    t.isEndOfFile = false := by
  simp only [Token.isLiteral, Token.isValueLiteral] at h
  cases hk : t.kind <;> simp_all [Token.isEndOfFile]

theorem literal_consumes : Consumes (·.isLiteral = true) literal := by
  unfold literal
  refine .current fun t ht => .next ?_ (.pure _)
  rintro _ rfl
  exact not_endOfFile_of_isLiteral ht

theorem exhausted_consumes {P : Token → Prop} : Consumes P (exhausted : Reading α) := by
  intro r s a _ _ h
  cases h

theorem primary_consumes (n : Nat) : Consumes opensOperand (primary n) := by
  cases n with
  | zero => exact exhausted_consumes
  | succ n =>
  rw [primary_eq]
  refine .current fun t ht => ?_
  split
  next hl =>
    refine .bind (literal_consumes.weaken fun u hu => hu ▸ hl) .literal fun e c he => ?_
    refine .bind .current fun u _ _ => ?_
    split
    · exact .map (.of_built ((built n).suffixes (operand_same he.2)))
    · exact .pure _
  next hl =>
    obtain ht | ht | ht := ht
    · exact absurd ht hl
    · simp only [ht]
      refine .next (fun u hu => not_endOfFile_of_kind (hu ▸ ht) (by simp)) ?_
      refine .bind (built n).mapFields fun fs _ hfs => .bind (.extentFrom _) fun e _ _ => ?_
      exact .map (.of_built ((built n).suffixes (operand_same (.mapLiteral hfs.2))))
    · simp only [ht]
      refine .next (fun u hu => not_endOfFile_of_kind (hu ▸ ht) (by simp)) ?_
      refine .bind (built n).listItems fun ns _ hns => .bind (.expectPunctuator _) fun _ _ _ => ?_
      refine .bind (.extentFrom _) fun e _ _ => ?_
      exact .map (.of_built ((built n).suffixes (operand_same (.listLiteral hns.2))))

theorem operand_consumes (n : Nat) : Consumes opensOperand (operand n) := by
  cases n with
  | zero => exact exhausted_consumes
  | succ n =>
    rw [operand]
    refine .bind (primary_consumes n) (built n).primary fun o _ _ => ?_
    cases o with
    | none => exact .of_built (built n).righthand
    | some e => exact .pure _

theorem unaryOperator_of_opensOperand {t : Token} (h : opensOperand t) :
    UnaryOperator.ofToken? t = none := by
  unfold opensOperand Token.isLiteral Token.isValueLiteral at h
  unfold UnaryOperator.ofToken?
  cases hk : t.kind with
  | keyword k => simp [hk] at h
  | punctuator q => cases q <;> simp_all
  | _ => rfl

theorem subExpression_consumes (n bound : Nat) : Consumes opensOperand (subExpression n bound) := by
  cases n with
  | zero => exact exhausted_consumes
  | succ n =>
    rw [subExpression]
    refine .current fun t ht => ?_
    rw [unaryOperator_of_opensOperand ht]
    refine .bind ((operand_consumes n).weaken fun u hu => hu ▸ ht) (built n).operand
      fun o _ ho => ?_
    cases o with
    | none => exact .pure _
    | some e => exact .map (.of_built ((built n).binaryTail bound (operand_same (ho.2 e rfl))))

theorem expression_consumes (n : Nat) : Consumes opensOperand (expression n) := by
  cases n with
  | zero => exact exhausted_consumes
  | succ n =>
    rw [expression]
    exact subExpression_consumes n 0

theorem expectedExpression_consumes (n : Nat) : Consumes opensOperand (expectedExpression n) := by
  cases n with
  | zero => exact exhausted_consumes
  | succ n =>
    rw [expectedExpression]
    refine .bind (expression_consumes n) (built n).expression fun o _ _ => ?_
    cases o with
    | none => exact .of_built (.raiseOperand .unexpectedExpression (by simp))
    | some e => exact .pure _

theorem callSuffix_consumes (n : Nat) (a : Node) :
    Consumes (·.kind = .punctuator .parenOpen) (callSuffix n a) := by
  cases n with
  | zero => exact exhausted_consumes
  | succ n =>
    intro r s b hs hP h
    rw [callSuffix] at h
    obtain ⟨t, r₁, h₁, h⟩ := bind_eq_ok.1 h
    cases h₁
    obtain ⟨u, r₂, h₂, h⟩ := bind_eq_ok.1 h
    cases h₂
    split at h
    · refine Consumes.raise _ r s b hs ?_ h
      simp [Token.isTerminator, Token.isEndOfLine, Token.isEndOfFile, hP]
    · refine Consumes.next (P := (·.kind = .punctuator .parenOpen))
        (fun u hu => not_endOfFile_of_kind hu (by simp)) ?_ r s b hs hP h
      refine .bind (built n).expression fun o _ ho => ?_
      have close : ∀ c, Advances (do
          expectPunctuator .parenClose
          return Node.call (← extentFrom a.start) a c) := fun c =>
        .bind (.expectPunctuator _) fun _ _ _ => .bind (.extentFrom _) fun _ _ _ => .pure _
      cases o with
      | none => exact .bind (.pure (V := fun _ _ => True) trivial) fun c _ _ => close c
      | some e =>
        exact .bind ((built n).moreArguments.map (W := fun _ _ => True) fun _ _ _ => trivial)
          fun c _ _ => close c

theorem statementTail_advances (n : Nat) (t : Token) {a : Node} (ha : a.IsOperand true) :
    Advances (statementTail n t a) :=
  .of_built ((built n).statementTail t (operand_same ha))

theorem assignmentOrCall_consumes (n : Nat) :
    Consumes (·.isTerminator = false) (assignmentOrCall n) := by
  cases n with
  | zero => exact exhausted_consumes
  | succ n =>
    rw [assignmentOrCall]
    refine .current fun t ht => ?_
    have opened : opensOperand t → Consumes (· = t) (do
        let e ← expectedExpression n
        statementTail n t e) := fun hp =>
      .bind ((expectedExpression_consumes n).weaken fun u hu => hu ▸ hp)
        (built n).expectedExpression fun e _ he => statementTail_advances n t he.2
    split
    next hk =>
      refine .bind (identifier_consumes.weaken fun u hu => ?_) .identifier
        fun e _ he => statementTail_advances n t he.2
      simp [Token.isIdentifier, hu, hk]
    next hk =>
      refine .next (fun u hu => not_endOfFile_of_kind (hu ▸ hk) (by simp)) ?_
      refine .bind (built n).expectedExpression fun e _ he => .bind (.expectPunctuator _) ?_
      exact fun _ _ _ => statementTail_advances n t he.2
    next hk => exact opened (.inr (.inr hk))
    next hk => exact opened (.inr (.inl hk))
    · split
      next hl => exact opened (.inl (by simp [Token.isLiteral, hl]))
      · exact (Consumes.raise _).weaken fun u hu => hu ▸ ht

/-- A statement moves over a token, whatever stands there. -/
theorem statement_consumes (n : Nat) (inLine : Bool) :
    Consumes notEndOfFile (statement n inLine) := by
  cases n with
  | zero => exact exhausted_consumes
  | succ n =>
    rw [statement]
    refine .current fun t ht => ?_
    have next : ∀ {k : Reading (Option Node)}, Advances k →
        Consumes (· = t) (advance >>= fun _ => k) :=
      fun hk => .next (fun u hu => hu ▸ ht) hk
    split
    · exact next (.pure _)
    · exact next (.map (.of_built ((built n).ifStatement _)))
    · exact next (.map (.of_built ((built n).returnStatement _ _)))
    · exact next (.map (.of_built ((built n).functionDeclaration _)))
    · exact next (.map (.of_built ((built n).whileStatement _)))
    · exact next (.map (.of_built ((built n).forStatement _)))
    · exact next (.pure _)
    · exact next (.pure _)
    · exact next (.pure _)
    · exact next (.map (.of_built (.importStatement _)))
    next hk =>
      refine .map ((assignmentOrCall_consumes n).weaken fun u hu => ?_)
      subst hu
      rw [Token.isTerminator, Bool.or_eq_false_iff]
      refine ⟨?_, ht⟩
      cases hu : u.kind <;> simp_all [Token.isEndOfLine]

end Reading

end LineScript
