import LineScript.Proofs.Grammar.Construct
import LineScript.Proofs.Grammar.Ending

/-!
# Statements on one line

A statement that no construct word opens and that holds no function is read in front of the end of
its line. Only lists and maps move over the end of a line, and they have to be closed behind it.
-/

namespace LineScript

/-- The end of a line and the end of the source behind it. -/
structure LineEnd where
  line : Token
  source : Token
  line_eol : line.isEndOfLine = true
  source_eof : source.isEndOfFile = true

namespace LineEnd

variable {L : LineEnd}

theorem line_kind (L : LineEnd) : L.line.kind = .endOfLine := by
  simpa [Token.isEndOfLine] using L.line_eol

theorem source_kind (L : LineEnd) : L.source.kind = .endOfFile := by
  simpa [Token.isEndOfFile] using L.source_eof

/-- The rest of the line is ahead, and there is no function in it. -/
structure InLine (L : LineEnd) (r : Reader) : Prop where
  strict : r.lenient = false
  ahead : ∃ us, r.current :: r.rest = us ++ [L.line, L.source] ∧
    ∀ u ∈ us, u.isTerminator = false ∧ u.isKeyword .functionWord = false

/-- The end of the source is reached. -/
structure PastLine (L : LineEnd) (r : Reader) : Prop where
  strict : r.lenient = false
  current : r.current = L.source

theorem InLine.not_function {r : Reader} (h : L.InLine r) :
    r.current.isKeyword .functionWord = false := by
  obtain ⟨us, hus, hall⟩ := h.ahead
  cases us with
  | nil =>
    obtain ⟨hc, _⟩ := List.cons.inj hus
    simp [Token.isKeyword, hc, L.line_kind]
  | cons u us =>
    obtain ⟨rfl, _⟩ := List.cons.inj hus
    exact (hall _ List.mem_cons_self).2

theorem InLine.step {r s : Reader} (h : L.InLine r) (hc : r.current.isEndOfLine = false)
    (hs : r.step = .ok s) : L.InLine s := by
  obtain ⟨us, hus, hall⟩ := h.ahead
  cases us with
  | nil =>
    obtain ⟨hcurrent, _⟩ := List.cons.inj hus
    rw [hcurrent, L.line_eol] at hc
    cases hc
  | cons u us =>
    obtain ⟨_, hrest⟩ := List.cons.inj hus
    obtain ⟨t, rest, hr, rfl⟩ | ⟨hr, _, _⟩ := Reader.step_ok hs
    · refine ⟨h.strict, us, ?_, fun v hv => hall v (List.mem_cons_of_mem u hv)⟩
      rw [← List.append_eq, ← hrest, hr]
    · rw [hr] at hrest
      simp at hrest

theorem InLine.current_of_eol {r : Reader} (h : L.InLine r)
    (heol : r.current.isEndOfLine = true) : r.current = L.line ∧ r.rest = [L.source] := by
  obtain ⟨us, hus, hall⟩ := h.ahead
  cases us with
  | nil => exact List.cons.inj hus
  | cons u us =>
    obtain ⟨hcurrent, _⟩ := List.cons.inj hus
    have := (hall u List.mem_cons_self).1
    rw [← hcurrent, Token.isTerminator, heol] at this
    cases this

theorem InLine.note {r : Reader} (h : L.InLine r) (name : String) : L.InLine (r.note name) := by
  obtain ⟨h₁, h₂⟩ := h
  unfold Reader.note
  split <;> exact ⟨h₁, h₂⟩

/-- Reading from a place on the line leads to a place on the line or past it. -/
theorem InLine.of_leads {r s : Reader} (h : L.InLine r) (hs : r.Leads s) :
    L.InLine s ∨ L.PastLine s := by
  obtain ⟨us, hus, hall⟩ := h.ahead
  obtain ⟨before, hbefore⟩ := hs.tokens
  have hstrict : s.lenient = false := hs.lenient.trans h.strict
  rw [hus] at hbefore
  obtain hle | hlt := Nat.lt_or_ge us.length before.length
  · refine .inr ⟨hstrict, ?_⟩
    have hlength := congrArg List.length hbefore
    simp only [List.length_append, List.length_cons, List.length_nil] at hlength
    have hnil : s.rest = [] := List.eq_nil_of_length_eq_zero (by omega)
    have hlast := congrArg List.getLast? hbefore
    simpa [hnil] using hlast
  · refine .inl ⟨hstrict, us.drop before.length, ?_, fun u hu => hall u (List.mem_of_mem_drop hu)⟩
    have := congrArg (List.drop before.length) hbefore
    rwa [List.drop_left, List.drop_append_of_le_length hlt] at this

end LineEnd

namespace Reading

open LineEnd (InLine PastLine)

variable {α β : Type} {L : LineEnd} {P : Token → Prop}

/-- At a token for which `P` holds, a reading does not move over the end of the line. -/
def Stays (L : LineEnd) (P : Token → Prop) (x : Reading α) : Prop :=
  ∀ ⦃r s a⦄, L.InLine r → P r.current → x r = .ok a s → L.InLine s

/-- A reading that does not succeed past the line. -/
def Stuck (L : LineEnd) (x : Reading α) : Prop :=
  ∀ ⦃r s a⦄, L.PastLine r → x r ≠ .ok a s

/-- A fraction is a point and a number, neither of which ends a line. -/
theorem detachedFraction_ok {r s : Reader} {e : Node} (hc : r.current.isEndOfLine = false)
    (hb : numberBehindPoint r = .ok true r) (h : detachedFraction r = .ok e s) :
    ∃ r₁, r.step = .ok r₁ ∧ r₁.current.isEndOfLine = false ∧ r₁.step = .ok s ∧
      e.start = r.current.start ∧ e.operands = [] ∧ e.statements = [] := by
  unfold detachedFraction at h
  rw [current_bind] at h
  obtain ⟨_, r₁, h₁, h⟩ := bind_eq_ok.1 h
  rw [current_bind] at h
  obtain ⟨_, r₂, h₂, h⟩ := bind_eq_ok.1 h
  cases h
  refine ⟨r₁, advance_ok h₁, ?_, advance_ok h₂, rfl, rfl, rfl⟩
  obtain ⟨u, rest, hrest, rfl⟩ | ⟨_, _, rfl⟩ := Reader.step_ok (advance_ok h₁)
  · unfold numberBehindPoint at hb
    split at hb
    · obtain ⟨k, _, hpeek, hnumber⟩ := bind_eq_ok.1 hb
      simp only [peek, hrest] at hpeek
      cases hpeek
      have hnumber : (u.kind == .number) = true := by
        injection hnumber
      simp only [beq_iff_eq] at hnumber
      simp [Token.isEndOfLine, hnumber]
    · cases hb
  · exact hc

namespace Stays

variable {x : Reading α} {k : α → Reading β}

theorem weaken {Q : Token → Prop} (h : Stays L Q x) (hPQ : ∀ t, P t → Q t) : Stays L P x :=
  fun _ _ _ hr hP hx => h hr (hPQ _ hP) hx

theorem any {t : Token} (h : Stays L anyToken x) : Stays L (· = t) x := h.weaken fun _ _ => trivial

theorem pure (a : α) : Stays L P (pure a) := by
  intro r s b hr _ h
  cases h
  exact hr

theorem bind (hx : Stays L P x) (hk : ∀ a, Stays L anyToken (k a)) : Stays L P (x >>= k) := by
  intro r s b hr hP h
  obtain ⟨a, t, hxt, hks⟩ := bind_eq_ok.1 h
  exact hk a (hx hr hP hxt) trivial hks

theorem map {f : α → β} (hx : Stays L P x) : Stays L P (f <$> x) := by
  rw [map_eq_pure_bind]
  exact .bind hx fun _ => .pure _

theorem current {k : Token → Reading β} (hk : ∀ t, P t → Stays L (· = t) (k t)) :
    Stays L P (Reading.current >>= k) :=
  fun r _ _ hr hP h => hk r.current hP hr rfl h

theorem previous {k : Token → Reading β} (hk : ∀ t, Stays L P (k t)) :
    Stays L P (Reading.previous >>= k) :=
  fun r _ _ hr hP h => hk r.previous hr hP h

theorem extentFrom {start : Position} {k : Extent → Reading β} (hk : ∀ e, Stays L P (k e)) :
    Stays L P (Reading.extentFrom start >>= k) := by
  unfold Reading.extentFrom
  rw [bind_assoc]
  refine .previous fun t => ?_
  rw [pure_bind]
  exact hk _

theorem note {name : String} {k : Reading β} (hk : Stays L P k) :
    Stays L P (Reading.note name >>= fun _ => k) :=
  fun _ _ _ hr hP h => hk (hr.note name) (by rwa [Reader.current_note]) h

theorem raise (f : ParseFault) : Stays L P (raise f) := by
  intro r s a hr _ h
  rw [raise_strict hr.strict] at h
  cases h

theorem next {t : Token} {k : Reading β} (ht : t.isEndOfLine = false) (hk : Stays L anyToken k) :
    Stays L (· = t) (Reading.advance >>= fun _ => k) := by
  intro r s a hr hP h
  obtain ⟨_, u, hu, hku⟩ := bind_eq_ok.1 h
  exact hk (hr.step (hP ▸ ht) (advance_ok hu)) trivial hku

/-- What has to be closed behind a reading keeps it on the line. -/
theorem closed {V : α → α → Prop} (hx : Built V x) (hk : ∀ a, Stays L anyToken (k a))
    (hs : ∀ a, Stuck L (k a)) : Stays L P (x >>= k) := by
  intro r s b hr _ h
  obtain ⟨a, t, hxt, hks⟩ := bind_eq_ok.1 h
  obtain ht | ht := hr.of_leads (Advances.of_built hx _ _ _ hxt)
  · exact hk a ht trivial hks
  · exact absurd hks (hs a ht)

theorem discard (hx : Stays L P x) : Stays L P (discard x) := by
  rw [discard_eq]
  exact .bind hx fun _ => .pure ()

theorem consumePunctuator (q : Punctuator) : Stays L anyToken (consumePunctuator q) := by
  unfold Reading.consumePunctuator
  refine .current fun t _ => ?_
  split
  next ht =>
    have hk : t.kind = .punctuator q := by simpa [Token.isPunctuator] using ht
    exact .next (by simp [Token.isEndOfLine, hk]) (.pure true)
  · exact .pure false

theorem expectPunctuator (q : Punctuator) : Stays L anyToken (expectPunctuator q) := by
  unfold Reading.expectPunctuator
  refine .bind (.consumePunctuator q) fun b => ?_
  split
  · exact (Stays.raise _).discard
  · exact .pure ()

theorem identifier : Stays L anyToken identifier := by
  unfold Reading.identifier
  refine .current fun t _ => ?_
  split
  next ht =>
    have hk : t.kind = .identifier := by simpa [Token.isIdentifier] using ht
    exact .note (.next (by simp [Token.isEndOfLine, hk]) (.pure _))
  · exact .raise _

theorem literal {t : Token} (ht : t.isEndOfLine = false) : Stays L (· = t) literal := by
  unfold Reading.literal
  refine .current fun u hu => .next ?_ (.pure _)
  rw [hu]
  exact ht

theorem emptyHere : Stays L P emptyHere := .current fun _ _ => .pure _

/-- A point with a number behind it. -/
theorem fraction {t : Token} (hk : t.kind = .punctuator .dot) :
    Stays L (· = t) (do
      if ← numberBehindPoint then some <$> detachedFraction else return none) := by
  intro r s a hr ht h
  have hc : r.current.isEndOfLine = false := by simp [Token.isEndOfLine, ht, hk]
  obtain ⟨b, r₁, hb, h₁⟩ := bind_eq_ok.1 h
  obtain rfl := numberBehindPoint_ok hb
  cases b with
  | false =>
    cases h₁
    exact hr
  | true =>
    simp only [if_true, map_eq_pure_bind] at h₁
    obtain ⟨e, r₂, he, h₂⟩ := bind_eq_ok.1 h₁
    cases h₂
    obtain ⟨r₃, hpoint, hnumber, hs, _⟩ := detachedFraction_ok hc hb he
    exact (hr.step hc hpoint).step hnumber hs

/-- A missing operand is replaced by an empty one. -/
theorem orEmpty {x : Reading (Option Node)} {k : Node → Reading β} (hx : Stays L P x)
    (hk : ∀ a, Stays L anyToken (k a)) :
    Stays L P (do
      match ← x with
      | some e => do
        let a ← Pure.pure e
        k a
      | none => do
        let a ← Reading.emptyHere
        k a) := by
  refine .bind hx fun o => ?_
  cases o with
  | none => exact .bind .emptyHere hk
  | some e =>
    dsimp only
    rw [pure_bind]
    exact hk e

end Stays

namespace Stuck

variable {x : Reading α} {k : α → Reading β}

theorem bind (hx : Stuck L x) : Stuck L (x >>= k) := by
  intro r s b hr h
  obtain ⟨a, t, hxt, _⟩ := bind_eq_ok.1 h
  exact hx hr hxt

theorem map {f : α → β} (hx : Stuck L x) : Stuck L (f <$> x) := by
  rw [map_eq_pure_bind]
  exact hx.bind

theorem expectPunctuator (q : Punctuator) : Stuck L (expectPunctuator q) := by
  intro r s a hr h
  have hq : r.current.isPunctuator q = false := by
    simp [Token.isPunctuator, hr.current, L.source_kind]
  unfold Reading.expectPunctuator Reading.consumePunctuator at h
  rw [bind_apply, current_bind, hq] at h
  simp only [Bool.false_eq_true, if_false] at h
  change (Functor.discard (raise (.unexpectedValue q.text))) r = _ at h
  rw [show Functor.discard (raise (.unexpectedValue q.text)) = discard (raise _) from rfl,
    discard_eq, bind_apply, raise_strict hr.strict] at h
  cases h

end Stuck

/-- Expressions under a bound are read in front of the end of the line. -/
structure Fits (L : LineEnd) (n : Nat) : Prop where
  subExpression : ∀ bound, Stays L anyToken (subExpression n bound)
  expression : Stays L anyToken (expression n)
  expectedExpression : Stays L anyToken (expectedExpression n)
  operand : Stays L anyToken (operand n)
  unaryExpression : ∀ {t} o, t.isEndOfLine = false → Stays L (· = t) (unaryExpression n o)
  binaryTail : ∀ a bound, Stays L anyToken (binaryTail n a bound)
  primary : Stays L anyToken (primary n)
  righthand : Stays L anyToken (righthand n)
  suffixes : ∀ a, Stays L anyToken (suffixes n a)
  compoundAssignment : ∀ a o, Stays L anyToken (compoundAssignment n a o)
  callSuffix : ∀ {t} a, t.isEndOfLine = false → Stays L (· = t) (callSuffix n a)
  moreArguments : Stays L anyToken (moreArguments n)
  mapFields : Stays L anyToken (mapFields n)
  mapFields_stuck : Stuck L (Reading.mapFields n)

namespace Fits

variable {n : Nat}

theorem not_eol_of_kind {t : Token} {k : TokenKind} (h : t.kind = k) (hk : k ≠ .endOfLine) :
    t.isEndOfLine = false := by
  simp [Token.isEndOfLine, h, hk]

theorem not_eol_of_unary {t : Token} {o : UnaryOperator}
    (h : UnaryOperator.ofToken? t = some o) : t.isEndOfLine = false := by
  unfold UnaryOperator.ofToken? at h
  cases hk : t.kind <;> simp_all [Token.isEndOfLine]

theorem not_eol_of_binary {t : Token} {o : BinaryOperator}
    (h : BinaryOperator.ofToken? t = some o) : t.isEndOfLine = false := by
  unfold BinaryOperator.ofToken? at h
  cases hk : t.kind <;> simp_all [Token.isEndOfLine]

theorem not_eol_of_literal {t : Token} (h : t.isLiteral = true) : t.isEndOfLine = false := by
  cases hk : t.kind <;> simp_all [Token.isEndOfLine, Token.isLiteral, Token.isValueLiteral]

theorem subExpression_succ (h : Fits L n) (bound : Nat) :
    Stays L anyToken (Reading.subExpression (n + 1) bound) := by
  rw [Reading.subExpression]
  refine .current fun t _ => ?_
  split
  next o ho =>
    exact .bind (h.unaryExpression o (not_eol_of_unary ho)) fun e => (h.binaryTail e bound).map
  · refine .bind h.operand.any fun o => ?_
    cases o with
    | none => exact .pure none
    | some e => exact (h.binaryTail e bound).map

theorem expectedExpression_succ (h : Fits L n) :
    Stays L anyToken (Reading.expectedExpression (n + 1)) := by
  rw [Reading.expectedExpression]
  refine .bind h.expression fun o => ?_
  cases o with
  | none => exact .raise _
  | some e => exact .pure e

theorem operand_succ (h : Fits L n) : Stays L anyToken (Reading.operand (n + 1)) := by
  rw [Reading.operand]
  refine .bind h.primary fun o => ?_
  cases o with
  | none => exact h.righthand
  | some e => exact .pure _

theorem unaryExpression_succ (h : Fits L n) {t : Token} (o : UnaryOperator)
    (ht : t.isEndOfLine = false) : Stays L (· = t) (Reading.unaryExpression (n + 1) o) := by
  rw [Reading.unaryExpression]
  refine .current fun u hu => ?_
  subst hu
  refine .next ht (.orEmpty h.operand fun a => ?_)
  exact .extentFrom fun e => .pure _

theorem binaryTail_succ (h : Fits L n) (a : Node) (bound : Nat) :
    Stays L anyToken (Reading.binaryTail (n + 1) a bound) := by
  rw [Reading.binaryTail]
  refine .current fun t _ => ?_
  split
  · exact .pure a
  next o ho =>
    split
    · exact .pure a
    · refine .next (not_eol_of_binary ho) (.orEmpty (h.subExpression _) fun c => ?_)
      exact .extentFrom fun e => h.binaryTail _ _

theorem primary_succ (h : Fits L n) : Stays L anyToken (Reading.primary (n + 1)) := by
  rw [primary_eq]
  refine .current fun t _ => ?_
  split
  next ht =>
    refine .bind (.literal (not_eol_of_literal ht)) fun e => .current fun u _ => ?_
    split
    · exact (h.suffixes e).any.map
    · exact .pure _
  · split
    next hk => exact .fraction hk
    next hk =>
      -- No function is ahead on the line.
      intro r s a hr hP _
      have := hr.not_function
      simp [Token.isKeyword, hP, hk] at this
    next hk =>
      refine .next (not_eol_of_kind hk (by simp)) (.bind h.mapFields fun fields => ?_)
      exact .extentFrom fun e => (h.suffixes _).map
    next hk =>
      refine .next (not_eol_of_kind hk (by simp)) (.closed (built n).listItems ?_ ?_)
      · exact fun items => .bind (.expectPunctuator _) fun _ => .extentFrom fun e =>
          (h.suffixes _).map
      · exact fun items => (Stuck.expectPunctuator _).bind
    · exact .pure none

theorem righthand_succ (h : Fits L n) : Stays L anyToken (Reading.righthand (n + 1)) := by
  rw [Reading.righthand]
  refine .current fun t _ => ?_
  split
  · exact .any (.bind .identifier fun e => (h.suffixes e).map)
  next hk =>
    refine .next (not_eol_of_kind hk (by simp)) (.bind h.expectedExpression fun e => ?_)
    exact .bind (.expectPunctuator _) fun _ => (h.suffixes e).map
  · exact .pure none

theorem suffixes_succ (h : Fits L n) (a : Node) :
    Stays L anyToken (Reading.suffixes (n + 1) a) := by
  rw [Reading.suffixes]
  refine .current fun t _ => ?_
  split
  next q hk =>
    have ht := not_eol_of_kind hk (by simp)
    split
    · exact .next ht (.bind (h.compoundAssignment a _) fun e => h.suffixes e)
    · split
      · refine .next ht (.bind h.expectedExpression fun key => ?_)
        exact .bind (.expectPunctuator _) fun _ => .extentFrom fun e => h.suffixes _
      · exact .next ht (.bind .identifier fun name => .extentFrom fun e => h.suffixes _)
      · exact .bind (h.callSuffix a ht) fun e => h.suffixes e
      · exact .pure a
  · exact .pure a

theorem compoundAssignment_succ (h : Fits L n) (a : Node) (o : BinaryOperator) :
    Stays L anyToken (Reading.compoundAssignment (n + 1) a o) := by
  rw [Reading.compoundAssignment]
  refine .current fun t _ => .any (.orEmpty (h.subExpression 0) fun c => ?_)
  exact .previous fun u => .pure _

theorem callRemainder_stays (a : Node) (cs : List Node) : Stays L anyToken (callRemainder a cs) :=
  .bind (.expectPunctuator _) fun _ => .extentFrom fun _ => .pure _

theorem callSuffix_succ (h : Fits L n) {t : Token} (a : Node) (ht : t.isEndOfLine = false) :
    Stays L (· = t) (Reading.callSuffix (n + 1) a) := by
  rw [callSuffix_eq]
  refine .previous fun u => .current fun v hv => ?_
  subst hv
  split
  · exact .raise _
  · refine .next ht (.bind h.expression fun o => ?_)
    cases o with
    | none => exact callRemainder_stays a []
    | some e => exact .bind h.moreArguments.map (callRemainder_stays a)

theorem moreArguments_succ (h : Fits L n) : Stays L anyToken (Reading.moreArguments (n + 1)) := by
  rw [Reading.moreArguments]
  refine .bind (.consumePunctuator _) fun b => ?_
  split
  · exact .bind h.expectedExpression fun e => h.moreArguments.map
  · exact .pure []

theorem fieldsRemainder_stays (h : Fits L n) (entry : List Field) :
    Stays L anyToken (fieldsRemainder n entry) := by
  unfold fieldsRemainder
  refine .bind (.consumePunctuator _) fun b => ?_
  split
  · exact .pure _
  · refine .current fun t _ => ?_
    split
    · exact .closed .advance (fun _ => h.mapFields.map) fun _ => h.mapFields_stuck.map
    · exact .bind (Stays.raise _).discard fun _ => .pure _

theorem mapFields_succ (h : Fits L n) : Stays L anyToken (Reading.mapFields (n + 1)) := by
  rw [mapFields_eq]
  refine .current fun t _ => ?_
  dsimp only
  split
  next hk =>
    have hk : t.kind = .string := by simpa using hk
    refine .next (not_eol_of_kind hk (by simp)) (.bind (.expectPunctuator _) fun _ => ?_)
    exact .bind h.expectedExpression fun e => h.fieldsRemainder_stays _
  · exact (h.fieldsRemainder_stays []).any

theorem mapFields_stuck_succ : Stuck L (Reading.mapFields (n + 1)) := by
  intro r s a hr h
  have hk : r.current.kind = .endOfFile := by rw [hr.current, L.source_kind]
  have hbrace : r.current.isPunctuator .braceClose = false := by simp [Token.isPunctuator, hk]
  have hseparator : isSeparator r.current = false := by
    simp [isSeparator, Token.isPunctuator, Token.isEndOfLine, hk]
  rw [Reading.mapFields, current_bind] at h
  simp only [hk] at h
  obtain ⟨entry, r₀, h₀, h⟩ := bind_eq_ok.1 h
  cases h₀
  obtain ⟨b, r₁, hb, h₁⟩ := bind_eq_ok.1 h
  unfold Reading.consumePunctuator at hb
  rw [current_bind, hbrace] at hb
  cases hb
  simp only [Bool.false_eq_true, if_false] at h₁
  rw [current_bind, hseparator] at h₁
  simp only [Bool.false_eq_true, if_false, discard_eq, bind_assoc] at h₁
  rw [bind_apply, raise_strict hr.strict] at h₁
  cases h₁

theorem zero : Fits L 0 := by
  have none : ∀ {α : Type} {x : Reading α} {P : Token → Prop}, x = exhausted → Stays L P x := by
    intro α x P hx r s a _ _ h
    rw [hx] at h
    cases h
  constructor
  case mapFields_stuck =>
    intro r s a _ h
    cases h
  all_goals
    intros
    exact none rfl

theorem succ (h : Fits L n) : Fits L (n + 1) where
  subExpression := h.subExpression_succ
  expression := by
    rw [Reading.expression]
    exact h.subExpression 0
  expectedExpression := h.expectedExpression_succ
  operand := h.operand_succ
  unaryExpression o ht := h.unaryExpression_succ o ht
  binaryTail := h.binaryTail_succ
  primary := h.primary_succ
  righthand := h.righthand_succ
  suffixes := h.suffixes_succ
  compoundAssignment := h.compoundAssignment_succ
  callSuffix a ht := h.callSuffix_succ a ht
  moreArguments := h.moreArguments_succ
  mapFields := h.mapFields_succ
  mapFields_stuck := mapFields_stuck_succ

end Fits

/-- Expressions are read in front of the end of the line. -/
theorem fits (L : LineEnd) (n : Nat) : Fits L n := by
  induction n with
  | zero => exact .zero
  | succ n ih => exact ih.succ

theorem targetRemainder_stays (n : Nat) (t : Token) (suffixed : Bool) (e : Node) :
    Stays L anyToken (targetRemainder n t suffixed e) := by
  unfold targetRemainder
  refine .current fun u _ => ?_
  split
  · split
    · exact .any (.pure _)
    · exact .any (.extentFrom fun _ => .pure _)
  · refine .any (.bind (.expectPunctuator _) fun _ => ?_)
    exact .bind (fits L n).expectedExpression fun v => .extentFrom fun _ => .pure _

theorem statementTail_stays (n : Nat) (t : Token) (a : Node) :
    Stays L anyToken (statementTail n t a) := by
  cases n with
  | zero =>
    intro r s b _ _ h
    cases h
  | succ n =>
    rw [statementTail_eq]
    refine .current fun u _ => ?_
    split
    · exact ((fits L n).binaryTail a 0).any
    · refine .any (.current fun v _ => ?_)
      dsimp only
      split
      · exact .any (.bind ((fits L n).suffixes a) fun e => targetRemainder_stays n t _ e)
      · exact (targetRemainder_stays n t _ a).any

end Reading

/-- Whether a token opens a statement without a body: a name, or a word that leaves a loop or a
function. -/
def Token.opensSimple (t : Token) : Bool :=
  match t.kind with
  | .identifier | .keyword .breakWord | .keyword .continueWord | .keyword .returnWord => true
  | _ => false

namespace Reading

open LineEnd (InLine PastLine)

variable {L : LineEnd}

theorem opensSimple_cases {t : Token} (h : t.opensSimple = true) :
    t.kind = .identifier ∨ t.kind = .keyword .breakWord ∨ t.kind = .keyword .continueWord ∨
      t.kind = .keyword .returnWord := by
  unfold Token.opensSimple at h
  split at h <;> simp_all

/-- A statement without a body is read in front of the end of its line. -/
theorem statement_stays (n : Nat) {t : Token} (ht : t.opensSimple = true) :
    Stays L (· = t) (statement n (t.isKeyword .returnWord)) := by
  cases n with
  | zero =>
    intro r s b _ _ h
    cases h
  | succ n =>
    rw [statement]
    refine .current fun u hu => ?_
    subst hu
    obtain hk | hk | hk | hk := opensSimple_cases ht
    all_goals
      have heol := Fits.not_eol_of_kind hk (by simp)
      simp only [hk]
    · refine .map ?_
      cases n with
      | zero =>
        intro r s b _ _ h
        cases h
      | succ n =>
        rw [assignmentOrCall]
        refine .current fun u hu => ?_
        subst hu
        simp only [hk]
        exact .any (.bind .identifier fun e => statementTail_stays n u e)
    · exact .next heol (.pure _)
    · exact .next heol (.pure _)
    · refine .next heol (.map ?_)
      simp only [Token.isKeyword, hk, beq_self_eq_true]
      cases n with
      | zero =>
        intro r s b _ _ h
        cases h
      | succ n =>
        rw [returnStatement]
        exact .bind (fits L n).expression fun o => .extentFrom fun e => .pure _

/-- Only an empty line is no statement. -/
theorem statement_finds (n : Nat) (inLine : Bool) {r s : Reader}
    (hr : r.current.isEndOfLine = false) : statement n inLine r ≠ .ok none s := by
  intro h
  have hk : r.current.kind ≠ .endOfLine := by simpa [Token.isEndOfLine] using hr
  cases n with
  | zero => cases h
  | succ n =>
    rw [statement, current_bind] at h
    generalize r.current = t at h hk
    refine (show Finds _ from ?_) r s h
    split
    next hk' => exact absurd hk' hk
    all_goals first
      | exact .some _
      | exact .bind fun _ => .some _
      | exact .bind fun _ => .pure _

/-- A block without statements ends at once, unless it begins with an empty line. -/
theorem block_nil {n : Nat} {r s : Reader} (h : block n r = .ok [] s)
    (hr : r.current.isEndOfLine = false) : s = r ∧ r.current.endsBlock = true := by
  cases n with
  | zero => cases h
  | succ n =>
    rw [block, current_bind] at h
    cases hb : r.current.endsBlock with
    | true =>
      rw [hb] at h
      cases h
      exact ⟨rfl, rfl⟩
    | false =>
      rw [hb] at h
      simp only [Bool.false_eq_true, if_false] at h
      obtain ⟨o, r₁, ho, h₁⟩ := bind_eq_ok.1 h
      obtain ⟨_, r₂, _, h₂⟩ := bind_eq_ok.1 h₁
      rw [map_eq_pure_bind] at h₂
      obtain ⟨more, r₃, _, h₃⟩ := bind_eq_ok.1 h₂
      cases o with
      | none => exact absurd ho (statement_finds n false hr)
      | some a => cases h₃

/-- Behind a statement on the line nothing but the end of the line is left, if the block has no
further statement. -/
theorem current_of_block {n : Nat} {r s : Reader} (hr : L.InLine r)
    (h : (consumeLineEnd >>= fun _ => block n) r = .ok [] s)
    (hs : s.current.isEndOfFile = true) : r.current = L.line ∧ r.rest = [L.source] := by
  obtain ⟨us, hus, hall⟩ := hr.ahead
  cases us with
  | nil =>
    obtain ⟨hcurrent, hrest⟩ := List.cons.inj hus
    exact ⟨hcurrent, hrest⟩
  | cons u us =>
    obtain ⟨hcurrent, hrest⟩ := List.cons.inj hus
    have hterminator := (hall u List.mem_cons_self).1
    simp only [Token.isTerminator, Bool.or_eq_false_iff] at hterminator
    rw [← hcurrent] at hterminator
    rw [bind_apply, consumeLineEnd_of_not hterminator.1] at h
    obtain ⟨rfl, _⟩ := block_nil h hterminator.1
    rw [hterminator.2] at hs
    cases hs

theorem statement_return (n : Nat) (inLine : Bool) {r : Reader}
    (hk : r.current.kind = .keyword .returnWord) :
    statement (n + 2) inLine r = (do
      advance
      let argument ← expression n
      let extent ← extentFrom r.current.start
      if !inLine then consumeLineEnd
      return some (Node.returnStatement extent argument)) r := by
  rw [statement, current_bind]
  simp only [hk, map_eq_pure_bind]
  rw [returnStatement]
  cases inLine <;>
    simp only [Bool.not_true, Bool.not_false, Bool.false_eq_true, if_true, if_false, bind_assoc,
      pure_bind]

theorem not_endsBlock_of_opensSimple {t : Token} (ht : t.opensSimple = true) :
    t.endsBlock = false := by
  obtain hk | hk | hk | hk := opensSimple_cases ht <;>
    simp [Token.endsBlock, hk, Keyword.closesBlock]

theorem not_eol_of_opensSimple {t : Token} (ht : t.opensSimple = true) :
    t.isEndOfLine = false := by
  obtain hk | hk | hk | hk := opensSimple_cases ht <;> simp [Token.isEndOfLine, hk]

/-- A line that is a block of one statement without a body, read up to the end of the line. -/
theorem statement_of_line {n : Nat} {r s : Reader} {node : Node} (hr : L.InLine r)
    (ht : r.current.opensSimple = true) (h : block n r = .ok [node] s)
    (hs : s.current.isEndOfFile = true) :
    ∃ m r', statement m (r.current.isKeyword .returnWord) r = .ok (some node) r' ∧
      r'.current = L.line ∧ r'.rest = [L.source] := by
  have heol := not_eol_of_opensSimple ht
  cases n with
  | zero => cases h
  | succ n =>
    rw [block, current_bind, not_endsBlock_of_opensSimple ht] at h
    simp only [Bool.false_eq_true, if_false] at h
    obtain ⟨o, r₁, ho, h₁⟩ := bind_eq_ok.1 h
    obtain ⟨_, r₂, hline, h₂⟩ := bind_eq_ok.1 h₁
    rw [map_eq_pure_bind] at h₂
    obtain ⟨more, r₃, hmore, h₃⟩ := bind_eq_ok.1 h₂
    obtain _ | node' := o
    · exact absurd ho (statement_finds n false heol)
    cases h₃
    cases hret : r.current.isKeyword .returnWord with
    | false =>
      have hstay := statement_stays n ht hr rfl (by rw [hret]; exact ho)
      exact ⟨n, r₁, ho, current_of_block hstay (bind_eq_ok.2 ⟨_, _, hline, hmore⟩) hs⟩
    | true =>
      have hk : r.current.kind = .keyword .returnWord := by simpa [Token.isKeyword] using hret
      obtain _ | _ | n := n
      · cases ho
      · rw [statement, current_bind] at ho
        simp only [hk, map_eq_pure_bind] at ho
        obtain ⟨_, _, _, ho⟩ := bind_eq_ok.1 ho
        cases ho
      · rw [statement_return n false hk] at ho
        obtain ⟨_, u, hu, ho₁⟩ := bind_eq_ok.1 ho
        obtain ⟨a, v, hv, ho₂⟩ := bind_eq_ok.1 ho₁
        obtain ⟨e, v', he, ho₃⟩ := bind_eq_ok.1 ho₂
        obtain rfl := Header.extentFrom_ok he
        obtain ⟨_, w, hw, ho₄⟩ := bind_eq_ok.1 ho₃
        cases ho₄
        have hstatement : statement (n + 2) true r = .ok (some (.returnStatement e a)) v' := by
          rw [statement_return n true hk]
          exact bind_eq_ok.2 ⟨_, u, hu, bind_eq_ok.2 ⟨a, v', hv, bind_eq_ok.2 ⟨e, v', he, rfl⟩⟩⟩
        have hstay := statement_stays (n + 2) ht hr rfl (by rw [hret]; exact hstatement)
        refine ⟨n + 2, v', hstatement, ?_⟩
        cases hv' : v'.current.isEndOfLine with
        | true => exact hstay.current_of_eol hv'
        | false =>
          have hw : consumeLineEnd v' = .ok _ r₁ := hw
          rw [consumeLineEnd_of_not hv'] at hw
          cases hw
          exact current_of_block hstay (bind_eq_ok.2 ⟨_, _, hline, hmore⟩) hs

end Reading

end LineScript
