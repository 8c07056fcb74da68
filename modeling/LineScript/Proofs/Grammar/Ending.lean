import LineScript.Proofs.Grammar.Progress

/-!
# Lines in front of a closing word

The same lines are read twice: in front of the end of the source, and in front of a word that closes
a block. The second reading cannot move over the word. Main statement: wherever both succeed they
give the same, although some of the readings in them look at what is behind the last line.
-/

namespace LineScript

/-- What is behind the last line: the end of the source, or a word that closes a block. -/
structure Ending where
  last : Token
  word : Token
  keyword : Keyword
  last_kind : last.kind = .endOfFile
  word_kind : word.kind = .keyword keyword
  closes : keyword = .endIf ∨ keyword = .endFor ∨ keyword = .endWhile ∨ keyword = .endFunction

namespace Ending

variable (E : Ending)

theorem word_unary : UnaryOperator.ofToken? E.word = none := by
  unfold UnaryOperator.ofToken?
  rw [E.word_kind]
  obtain h | h | h | h := E.closes <;> rw [h]

theorem word_binary : BinaryOperator.ofToken? E.word = none := by
  unfold BinaryOperator.ofToken?
  rw [E.word_kind]
  obtain h | h | h | h := E.closes <;> rw [h]

theorem word_endsLineBody : E.word.endsLineBody = true := by
  unfold Token.endsLineBody
  rw [E.word_kind]
  obtain h | h | h | h := E.closes <;> rw [h]

theorem word_endsBlock : E.word.endsBlock = true := by
  unfold Token.endsBlock
  rw [E.word_kind]
  obtain h | h | h | h := E.closes <;> rw [h] <;> rfl

theorem word_isPunctuator (q : Punctuator) : E.word.isPunctuator q = false := by
  simp [Token.isPunctuator, E.word_kind]

theorem last_isPunctuator (q : Punctuator) : E.last.isPunctuator q = false := by
  simp [Token.isPunctuator, E.last_kind]

theorem last_endsLineBody : E.last.endsLineBody = true := by
  simp [Token.endsLineBody, E.last_kind]

theorem last_endsBlock : E.last.endsBlock = true := by
  simp [Token.endsBlock, E.last_kind]

theorem last_unary : UnaryOperator.ofToken? E.last = none := by
  simp [UnaryOperator.ofToken?, E.last_kind]

theorem last_binary : BinaryOperator.ofToken? E.last = none := by
  simp [BinaryOperator.ofToken?, E.last_kind]

/-- Both readings are at the same place in front of the last line break or at it. -/
structure Twin (r r' : Reader) : Prop where
  strict : r.lenient = false
  strict' : r'.lenient = false
  stop : r.stop = none
  stop' : r'.stop ≠ none
  current : r'.current = r.current
  previous : r'.previous = r.previous
  ahead : ∃ ts, r.rest = ts ++ [E.last] ∧ r'.rest = ts ++ [E.word] ∧
    ∃ t, (r.current :: ts).getLast? = some t ∧ t.isEndOfLine = true

/-- Both readings are behind the last line break. -/
structure Met (r r' : Reader) : Prop where
  strict : r.lenient = false
  strict' : r'.lenient = false
  stop : r.stop = none
  stop' : r'.stop ≠ none
  current : r.current = E.last
  current' : r'.current = E.word
  rest : r.rest = []
  rest' : r'.rest = []
  previous : r'.previous = r.previous

/-- Both readings are at the same place. -/
def Either (r r' : Reader) : Prop := E.Twin r r' ∨ E.Met r r'

/-- Both readings are at the same token in front of what is behind the last line. -/
def At (t : Token) (r r' : Reader) : Prop := E.Twin r r' ∧ r.current = t

variable {E} {r r' s s' : Reader}

theorem Twin.step (h : E.Twin r r') (hs : r.step = .ok s) (hs' : r'.step = .ok s') :
    E.Twin s s' ∨ E.Met s s' ∧ r.current.isEndOfLine = true := by
  obtain ⟨h₁, h₂, h₃, h₄, h₅, h₆, ts, h₇, h₈, t, h₉, ht⟩ := h
  cases ts with
  | nil =>
    simp only [List.nil_append] at h₇ h₈
    simp only [Reader.step, h₇, h₈] at hs hs'
    cases hs
    cases hs'
    refine .inr ⟨⟨h₁, h₂, h₃, h₄, rfl, rfl, rfl, rfl, h₅⟩, ?_⟩
    have : r.current = t := by simpa using h₉
    rw [this, ht]
  | cons u ts =>
    simp only [List.cons_append] at h₇ h₈
    simp only [Reader.step, h₇, h₈] at hs hs'
    cases hs
    cases hs'
    refine .inl ⟨h₁, h₂, h₃, h₄, rfl, h₅, ts, rfl, rfl, t, ?_, ht⟩
    simpa [List.getLast?_cons] using h₉

theorem Either.previous (h : E.Either r r') : r'.previous = r.previous := by
  obtain h | h := h
  · exact h.previous
  · exact h.previous

theorem Either.strict (h : E.Either r r') : r.lenient = false ∧ r'.lenient = false := by
  obtain h | h := h
  · exact ⟨h.strict, h.strict'⟩
  · exact ⟨h.strict, h.strict'⟩

theorem Twin.note (h : E.Twin r r') (name : String) : E.Twin (r.note name) (r'.note name) := by
  obtain ⟨h₁, h₂, h₃, h₄, h₅, h₆, h₇⟩ := h
  unfold Reader.note
  split <;> split <;> exact ⟨h₁, h₂, h₃, h₄, h₅, h₆, h₇⟩

/-- The word behind the last line is not moved over. -/
theorem Met.step (h : E.Met r r') : ∃ e, r'.step = .error e := by
  obtain ⟨l, hl⟩ := Option.ne_none_iff_exists'.1 h.stop'
  exact ⟨.sourceError (.lex l), by simp only [Reader.step, h.rest', hl]⟩

end Ending

namespace Reading

variable {α β : Type} {E : Ending} {P : Reader → Reader → Prop}

/-- A reading that finds something whenever it succeeds. -/
def Finds (x : Reading (Option α)) : Prop := ∀ r s, x r ≠ .ok none s

theorem Finds.some (x : Reading α) : Finds (some <$> x) := by
  intro r s h
  rw [map_eq_pure_bind] at h
  obtain ⟨_, _, _, h⟩ := bind_eq_ok.1 h
  cases h

theorem Finds.pure (a : α) : Finds (Pure.pure (Option.some a)) := by
  intro r s h
  cases h

theorem Finds.bind {x : Reading β} {k : β → Reading (Option α)} (hk : ∀ b, Finds (k b)) :
    Finds (x >>= k) := by
  intro r s h
  obtain ⟨b, t, _, h⟩ := bind_eq_ok.1 h
  exact hk b t s h

/-- A reading that leaves everything where it is if it finds nothing. -/
def Tries (x : Reading (Option α)) : Prop := ∀ r s, x r = .ok none s → s = r

namespace Tries

theorem of_finds {x : Reading (Option α)} (h : Finds x) : Tries x :=
  fun r s hx => absurd hx (h r s)

theorem pure (o : Option α) : Tries (pure o) := by
  intro r s h
  cases h
  rfl

theorem current {k : Token → Reading (Option α)} (hk : ∀ t, Tries (k t)) :
    Tries (Reading.current >>= k) :=
  fun r s h => hk r.current r s h

theorem numberBehindPoint {k : Bool → Reading (Option α)} (hk : ∀ b, Tries (k b)) :
    Tries (Reading.numberBehindPoint >>= k) := by
  intro r s h
  obtain ⟨b, t, hb, ht⟩ := bind_eq_ok.1 h
  obtain rfl := numberBehindPoint_ok hb
  exact hk b t s ht

theorem bind {x : Reading (Option β)} {k : Option β → Reading (Option α)} (hx : Tries x)
    (hsome : ∀ b, Finds (k (some b))) (hnone : Tries (k none)) : Tries (x >>= k) := by
  intro r s h
  obtain ⟨o, t, ho, ht⟩ := bind_eq_ok.1 h
  cases o with
  | none =>
    obtain rfl := hx r t ho
    exact hnone t s ht
  | some b => exact absurd ht (hsome b t s)

theorem exhausted : Tries (exhausted : Reading (Option α)) := by
  intro r s h
  cases h

end Tries

theorem not_moved {r r' s : Reader} {a : α} {l : Unit → Reading α} (h : E.Met r r')
    (hy : (advance >>= l) r' = .ok a s) : False := by
  obtain ⟨_, u', hu', _⟩ := bind_eq_ok.1 hy
  obtain ⟨e, he⟩ := h.step
  rw [advance_ok hu'] at he
  cases he

/-- Where both readings succeed they give the same and are at the same place. -/
def Concur (E : Ending) (P : Reader → Reader → Prop) (x y : Reading α) : Prop :=
  ∀ ⦃r r' a s a' s'⦄, P r r' → x r = .ok a s → y r' = .ok a' s' → a' = a ∧ E.Either s s'

namespace Concur

variable {x y : Reading α} {k l : α → Reading β}

theorem mono {Q : Reader → Reader → Prop} (h : Concur E Q x y) (hPQ : ∀ r r', P r r' → Q r r') :
    Concur E P x y :=
  fun _ _ _ _ _ _ hP hx hy => h (hPQ _ _ hP) hx hy

theorem twin (h : Concur E E.Either x y) : Concur E E.Twin x y := h.mono fun _ _ => .inl

theorem met (h : Concur E E.Either x y) : Concur E E.Met x y := h.mono fun _ _ => .inr

theorem here {t : Token} (h : Concur E E.Either x y) : Concur E (E.At t) x y :=
  h.mono fun _ _ h => .inl h.1

theorem standing {t : Token} (h : Concur E E.Twin x y) : Concur E (E.At t) x y :=
  h.mono fun _ _ => And.left

theorem either (h₁ : Concur E E.Twin x y) (h₂ : Concur E E.Met x y) : Concur E E.Either x y :=
  fun _ _ _ _ _ _ hP hx hy => hP.elim (fun h => h₁ h hx hy) fun h => h₂ h hx hy

theorem pure (a : α) : Concur E E.Either (pure a) (pure a) := by
  intro r r' b s b' s' h hx hy
  cases hx
  cases hy
  exact ⟨rfl, h⟩

theorem bind (hx : Concur E P x y) (hk : ∀ a, Concur E E.Either (k a) (l a)) :
    Concur E P (x >>= k) (y >>= l) := by
  intro r r' b s b' s' h hxk hyl
  obtain ⟨a, t, hxt, hkt⟩ := bind_eq_ok.1 hxk
  obtain ⟨a', t', hyt, hlt⟩ := bind_eq_ok.1 hyl
  obtain ⟨rfl, ht⟩ := hx h hxt hyt
  exact hk a' ht hkt hlt

theorem map {f : α → β} (hx : Concur E P x y) : Concur E P (f <$> x) (f <$> y) := by
  rw [map_eq_pure_bind, map_eq_pure_bind]
  exact .bind hx fun a => .pure _

theorem current {k l : Token → Reading β} (hk : ∀ t, Concur E (E.At t) (k t) (l t)) :
    Concur E E.Twin (Reading.current >>= k) (Reading.current >>= l) := by
  intro r r' b s b' s' h hx hy
  rw [current_bind] at hx hy
  rw [h.current] at hy
  exact hk r.current ⟨h, rfl⟩ hx hy

theorem current_at {t : Token} {k l : Token → Reading β} (hk : Concur E (E.At t) (k t) (l t)) :
    Concur E (E.At t) (Reading.current >>= k) (Reading.current >>= l) := by
  intro r r' b s b' s' h hx hy
  rw [current_bind] at hx hy
  rw [h.1.current, h.2] at hy
  rw [h.2] at hx
  exact hk h hx hy

theorem current_met {k l : Token → Reading β} (hk : Concur E E.Met (k E.last) (l E.word)) :
    Concur E E.Met (Reading.current >>= k) (Reading.current >>= l) := by
  intro r r' b s b' s' h hx hy
  rw [current_bind] at hx hy
  rw [h.current'] at hy
  rw [h.current] at hx
  exact hk h hx hy

theorem previous {k l : Token → Reading β} (hP : ∀ r r', P r r' → E.Either r r')
    (hk : ∀ t, Concur E P (k t) (l t)) :
    Concur E P (Reading.previous >>= k) (Reading.previous >>= l) := by
  intro r r' b s b' s' h hx hy
  have hx : k r.previous r = .ok b s := hx
  have hy : l r'.previous r' = .ok b' s' := hy
  rw [(hP r r' h).previous] at hy
  exact hk r.previous h hx hy

/-- Moving over a token that does not end a line. -/
theorem next {t : Token} {k l : Reading β} (ht : t.isEndOfLine = false)
    (hk : Concur E E.Twin k l) :
    Concur E (E.At t) (Reading.advance >>= fun _ => k) (Reading.advance >>= fun _ => l) := by
  rintro r r' b s b' s' ⟨h, rfl⟩ hx hy
  obtain ⟨_, u, hu, hku⟩ := bind_eq_ok.1 hx
  obtain ⟨_, u', hu', hlu⟩ := bind_eq_ok.1 hy
  obtain htwin | ⟨_, heol⟩ := h.step (advance_ok hu) (advance_ok hu')
  · exact hk htwin hku hlu
  · rw [ht] at heol
    cases heol

theorem advance : Concur E E.Twin Reading.advance Reading.advance := by
  intro r r' b s b' s' h hx hy
  refine ⟨rfl, ?_⟩
  obtain htwin | ⟨hmet, _⟩ := h.step (advance_ok hx) (advance_ok hy)
  · exact .inl htwin
  · exact .inr hmet

/-- The second reading cannot move over the word. -/
theorem stuck {l : Unit → Reading α} : Concur E E.Met x (Reading.advance >>= l) :=
  fun _ _ _ _ _ _ h _ hy => (not_moved h hy).elim

theorem raise_left {l : Reading Node} (hP : ∀ r r', P r r' → E.Either r r') (f : ParseFault) :
    Concur E P (raise f) l := by
  intro r r' b s b' s' h hx _
  rw [raise_strict (hP r r' h).strict.1] at hx
  cases hx

theorem raise (f : ParseFault) : Concur E E.Either (raise f) (raise f) :=
  raise_left (fun _ _ h => h) f

theorem discard (hx : Concur E P x y) : Concur E P (discard x) (discard y) := by
  rw [discard_eq, discard_eq]
  exact hx.bind fun _ => .pure ()

theorem note {t : Token} {name : String} {k l : Reading β} (hk : Concur E (E.At t) k l) :
    Concur E (E.At t) (Reading.note name >>= fun _ => k) (Reading.note name >>= fun _ => l) :=
  fun _ _ _ _ _ _ h hx hy => hk ⟨h.1.note name, by rw [Reader.current_note, h.2]⟩ hx hy

theorem consumePunctuator (q : Punctuator) :
    Concur E E.Either (consumePunctuator q) (consumePunctuator q) := by
  unfold Reading.consumePunctuator
  refine .either (.current fun t => ?_) (.current_met ?_)
  · split
    next ht =>
      refine .next ?_ (pure true).twin
      simp_all [Token.isPunctuator, Token.isEndOfLine]
    · exact (pure false).here
  · simp only [Token.isPunctuator, E.last_kind, E.word_kind]
    exact (pure false).met

theorem consumeKeyword (q : Keyword) :
    Concur E E.Either (consumeKeyword q) (consumeKeyword q) := by
  unfold Reading.consumeKeyword
  refine .either (.current fun t => ?_) (.current_met ?_)
  · split
    next ht =>
      refine .next ?_ (pure true).twin
      simp_all [Token.isKeyword, Token.isEndOfLine]
    · exact (pure false).here
  · rw [if_neg (by simp [Token.isKeyword, E.last_kind])]
    split
    · exact .stuck
    · exact (pure false).met

theorem consumeLineEnd : Concur E E.Either consumeLineEnd consumeLineEnd := by
  unfold Reading.consumeLineEnd
  refine .either (.current fun t => ?_) (.current_met ?_)
  · split
    · exact advance.standing
    · exact (pure ()).here
  · simp only [Token.isEndOfLine, E.last_kind, E.word_kind]
    exact (pure ()).met

theorem expectPunctuator (q : Punctuator) :
    Concur E E.Either (expectPunctuator q) (expectPunctuator q) := by
  unfold Reading.expectPunctuator
  refine .bind (consumePunctuator q) fun b => ?_
  split
  · exact (raise _).discard
  · exact .pure ()

theorem expectKeyword (q : Keyword) :
    Concur E E.Either (expectKeyword q) (expectKeyword q) := by
  unfold Reading.expectKeyword
  refine .bind (consumeKeyword q) fun b => ?_
  split
  · exact (raise _).discard
  · exact .pure ()

theorem extentFrom (start : Position) :
    Concur E E.Either (extentFrom start) (extentFrom start) :=
  .previous (fun _ _ h => h) fun _ => .pure _

theorem expectLineBodyEnd (q : Keyword) :
    Concur E E.Either (expectLineBodyEnd q) (expectLineBodyEnd q) := by
  unfold Reading.expectLineBodyEnd
  refine .either (.current fun t => ?_) (.current_met ?_)
  · split
    · exact (pure ()).here
    · refine .here (.bind (consumeKeyword q) fun b => ?_)
      split
      · exact (raise _).discard
      · exact .pure ()
  -- The end of the source ends the body; the word does not, and cannot be moved over.
  · have hword : E.word.isTerminator = false := by
      simp [Token.isTerminator, Token.isEndOfLine, Token.isEndOfFile, E.word_kind]
    simp only [hword, Bool.false_eq_true, if_false]
    intro r r' b s b' s' h _ hy
    obtain ⟨c, t, hc, hy⟩ := bind_eq_ok.1 hy
    unfold Reading.consumeKeyword at hc
    rw [current_bind] at hc
    split at hc
    · exact (not_moved h hc).elim
    · cases hc
      rw [discard_eq] at hy
      obtain ⟨_, _, hraise, _⟩ := bind_eq_ok.1 hy
      rw [raise_strict h.strict'] at hraise
      cases hraise

theorem identifier : Concur E E.Either identifier identifier := by
  unfold Reading.identifier
  refine .either (.current fun t => ?_) (.current_met ?_)
  · split
    next ht =>
      have ht' : t.isEndOfLine = false := by simp_all [Token.isIdentifier, Token.isEndOfLine]
      exact .note (.next ht' (pure _).twin)
    · exact (raise _).here
  · simp only [Token.isIdentifier, E.last_kind, E.word_kind]
    exact (raise _).met

theorem literal {t : Token} (ht : t.isLiteral = true) :
    Concur E (E.At t) literal literal := by
  unfold Reading.literal
  refine .current_at (.next ?_ (pure _).twin)
  cases hk : t.kind <;> simp_all [Token.isLiteral, Token.isValueLiteral, Token.isEndOfLine]

theorem numberBehindPoint {t : Token} {k l : Bool → Reading β}
    (hk : ∀ b, Concur E (E.At t) (k b) (l b)) :
    Concur E (E.At t) (Reading.numberBehindPoint >>= k) (Reading.numberBehindPoint >>= l) := by
  intro r r' b s b' s' h hx hy
  obtain ⟨c, u, hc, hk'⟩ := bind_eq_ok.1 hx
  obtain ⟨c', u', hc', hl'⟩ := bind_eq_ok.1 hy
  obtain rfl := numberBehindPoint_ok hc
  obtain rfl := numberBehindPoint_ok hc'
  suffices hcc : c' = c by
    rw [hcc] at hl'
    exact hk c h hk' hl'
  obtain ⟨ts, h₇, h₈, _⟩ := h.1.ahead
  unfold Reading.numberBehindPoint at hc hc'
  rw [h.1.current] at hc'
  split at hc
  next hdot =>
    rw [if_pos hdot] at hc'
    rw [bind_apply] at hc hc'
    unfold peek at hc hc'
    cases ts with
    | nil =>
      simp only [h₇, h₈, List.nil_append, E.last_kind, E.word_kind] at hc hc'
      cases hc
      cases hc'
      rfl
    | cons u ts =>
      simp only [h₇, h₈, List.cons_append] at hc hc'
      cases hc
      cases hc'
      rfl
  next hdot =>
    rw [if_neg hdot] at hc'
    cases hc
    cases hc'
    rfl

theorem detachedFraction {t : Token} (ht : t.isEndOfLine = false) :
    Concur E (E.At t) detachedFraction detachedFraction := by
  unfold Reading.detachedFraction
  refine .current_at (.next ht (.current fun u => ?_))
  exact .bind advance.standing fun _ => .pure _

theorem importStatement (start : Position) :
    Concur E E.Twin (importStatement start) (importStatement start) := by
  unfold Reading.importStatement
  refine .current fun t => ?_
  split
  · exact (raise _).here
  next ht =>
    have ht : t.kind = .string := by simpa using ht
    refine .next (by simp [Token.isEndOfLine, ht]) (.current fun u => ?_)
    split
    · exact (pure _).here
    · exact (raise _).here

/-- An operand that may be missing, behind an operator. -/
theorem orEmpty {x : Reading (Option Node)} {k : Node → Reading α} (hx : Concur E E.Twin x x)
    (hnone : Tries x) (hk : ∀ a, Concur E E.Either (k a) (k a)) :
    Concur E E.Twin
      (x >>= fun o => match o with
        | some e => Pure.pure e >>= k
        | none => Reading.emptyHere >>= k)
      (x >>= fun o => match o with
        | some e => Pure.pure e >>= k
        | none => Reading.emptyHere >>= k) := by
  intro r r' b s b' s' h hxk hyl
  obtain ⟨o, t, hxt, hkt⟩ := bind_eq_ok.1 hxk
  obtain ⟨o', t', hyt, hlt⟩ := bind_eq_ok.1 hyl
  obtain ⟨rfl, ht⟩ := hx h hxt hyt
  cases o' with
  | some e => exact hk e ht hkt hlt
  | none =>
    obtain rfl := hnone _ _ hxt
    obtain rfl := hnone _ _ hyt
    have : Concur E E.Twin (Reading.emptyHere >>= k) (Reading.emptyHere >>= k) :=
      .bind (.current fun u => (pure _).here) hk
    exact this h hkt hlt

end Concur

theorem righthand_tries (n : Nat) : Tries (righthand n) := by
  cases n with
  | zero => exact .exhausted
  | succ n =>
    rw [righthand]
    refine .current fun t => ?_
    split
    · exact .of_finds (.bind fun _ => .some _)
    · exact .of_finds (.bind fun _ => .bind fun _ => .bind fun _ => .some _)
    · exact .pure none

theorem primary_tries (n : Nat) : Tries (primary n) := by
  cases n with
  | zero => exact .exhausted
  | succ n =>
    rw [primary_eq]
    refine .current fun t => ?_
    split
    · refine .of_finds (.bind fun _ => .bind fun _ => ?_)
      split
      · exact .some _
      · exact .pure _
    · split
      · refine .numberBehindPoint fun b => ?_
        split
        · exact .of_finds (.some _)
        · exact .pure none
      · exact .of_finds (.bind fun _ => .some _)
      · exact .of_finds (.bind fun _ => .bind fun _ => .bind fun _ => .some _)
      · exact .of_finds (.bind fun _ => .bind fun _ => .bind fun _ => .bind fun _ => .some _)
      · exact .pure none

/-- A missing operand leaves everything where it is. -/
theorem operand_tries (n : Nat) : Tries (operand n) := by
  cases n with
  | zero => exact .exhausted
  | succ n =>
    rw [operand]
    exact .bind (primary_tries n) (fun _ => .pure _) (righthand_tries n)

/-- A missing expression leaves everything where it is. -/
theorem subExpression_tries (n bound : Nat) : Tries (subExpression n bound) := by
  cases n with
  | zero => exact .exhausted
  | succ n =>
    rw [subExpression]
    refine .current fun t => ?_
    split
    · exact .of_finds (.bind fun _ => .some _)
    · exact .bind (operand_tries n) (fun _ => .some _) (.pure none)

/-- The productions under a bound give the same in front of either ending, where they succeed. -/
structure Agreed (E : Ending) (n : Nat) : Prop where
  subExpression : ∀ bound, Concur E E.Either (subExpression n bound) (subExpression n bound)
  expression : Concur E E.Either (expression n) (expression n)
  expectedExpression : Concur E E.Either (expectedExpression n) (expectedExpression n)
  operand : Concur E E.Either (operand n) (operand n)
  unaryExpression : ∀ {t} o, t.isEndOfLine = false →
    Concur E (E.At t) (unaryExpression n o) (unaryExpression n o)
  binaryTail : ∀ a bound, Concur E E.Either (binaryTail n a bound) (binaryTail n a bound)
  primary : Concur E E.Either (primary n) (primary n)
  righthand : Concur E E.Either (righthand n) (righthand n)
  suffixes : ∀ a, Concur E E.Either (suffixes n a) (suffixes n a)
  compoundAssignment : ∀ a o,
    Concur E E.Twin (compoundAssignment n a o) (compoundAssignment n a o)
  callSuffix : ∀ {t} a, t.isEndOfLine = false →
    Concur E (E.At t) (callSuffix n a) (callSuffix n a)
  moreArguments : Concur E E.Either (moreArguments n) (moreArguments n)
  mapFields : Concur E E.Either (mapFields n) (mapFields n)
  listItems : Concur E E.Either (listItems n) (listItems n)
  block : Concur E E.Either (block n) (block n)
  lineBody : Concur E E.Either (lineBody n) (lineBody n)
  statement : ∀ inLine, Concur E E.Twin (statement n inLine) (statement n inLine)
  ifStatement : ∀ start, Concur E E.Twin (ifStatement n start) (ifStatement n start)
  elseIfBlocks : Concur E E.Either (elseIfBlocks n) (elseIfBlocks n)
  elseBlock : Concur E E.Either (elseBlock n) (elseBlock n)
  elseIfLines : Concur E E.Either (elseIfLines n) (elseIfLines n)
  elseLine : Concur E E.Either (elseLine n) (elseLine n)
  whileStatement : ∀ start, Concur E E.Twin (whileStatement n start) (whileStatement n start)
  forStatement : ∀ start, Concur E E.Twin (forStatement n start) (forStatement n start)
  functionDeclaration : ∀ start,
    Concur E E.Twin (functionDeclaration n start) (functionDeclaration n start)
  parameters : Concur E E.Either (parameters n) (parameters n)
  constructBody : ∀ k, Concur E E.Either (constructBody n k) (constructBody n k)
  returnStatement : ∀ start inLine,
    Concur E E.Twin (returnStatement n start inLine) (returnStatement n start inLine)
  assignmentOrCall : Concur E E.Twin (assignmentOrCall n) (assignmentOrCall n)
  statementTail : ∀ t a, Concur E E.Either (statementTail n t a) (statementTail n t a)

namespace Agreed

variable {n : Nat}

theorem subExpression_succ (h : Agreed E n) (bound : Nat) :
    Concur E E.Either (Reading.subExpression (n + 1) bound)
      (Reading.subExpression (n + 1) bound) := by
  have plain : Concur E E.Either
      (do
        match ← Reading.operand n with
        | some e => some <$> Reading.binaryTail n e bound
        | none => return none)
      (do
        match ← Reading.operand n with
        | some e => some <$> Reading.binaryTail n e bound
        | none => return none) := by
    refine .bind h.operand fun o => ?_
    cases o with
    | none => exact .pure none
    | some e => exact (h.binaryTail e bound).map
  rw [Reading.subExpression]
  refine .either (.current fun t => ?_) (.current_met ?_)
  · split
    next o ho =>
      refine .bind (h.unaryExpression o ?_) fun e => (h.binaryTail e bound).map
      unfold UnaryOperator.ofToken? at ho
      cases hk : t.kind <;> simp_all [Token.isEndOfLine]
    · exact plain.here
  · rw [E.last_unary, E.word_unary]
    exact plain.met

theorem expectedExpression_succ (h : Agreed E n) :
    Concur E E.Either (Reading.expectedExpression (n + 1))
      (Reading.expectedExpression (n + 1)) := by
  rw [Reading.expectedExpression]
  refine .bind h.expression fun o => ?_
  cases o with
  | none => exact .raise _
  | some e => exact .pure e

theorem operand_succ (h : Agreed E n) :
    Concur E E.Either (Reading.operand (n + 1)) (Reading.operand (n + 1)) := by
  rw [Reading.operand]
  refine .bind h.primary fun o => ?_
  cases o with
  | none => exact h.righthand
  | some e => exact .pure _

theorem unaryExpression_succ (h : Agreed E n) {t : Token} (o : UnaryOperator)
    (ht : t.isEndOfLine = false) :
    Concur E (E.At t) (Reading.unaryExpression (n + 1) o)
      (Reading.unaryExpression (n + 1) o) := by
  rw [Reading.unaryExpression]
  refine .current_at (.next ht (.orEmpty h.operand.twin (operand_tries n) fun a => ?_))
  exact .bind (.extentFrom _) fun e => .pure _

theorem binaryTail_succ (h : Agreed E n) (a : Node) (bound : Nat) :
    Concur E E.Either (Reading.binaryTail (n + 1) a bound)
      (Reading.binaryTail (n + 1) a bound) := by
  rw [Reading.binaryTail]
  refine .either (.current fun t => ?_) (.current_met ?_)
  · cases ho : BinaryOperator.ofToken? t with
    | none => exact (Concur.pure a).here
    | some o =>
      dsimp only
      split
      · exact (Concur.pure a).here
      · refine .next ?_ (.orEmpty (h.subExpression _).twin (subExpression_tries n _) fun c => ?_)
        · unfold BinaryOperator.ofToken? at ho
          cases hk : t.kind <;> simp_all [Token.isEndOfLine]
        · exact .bind (.extentFrom _) fun e => h.binaryTail _ bound
  · rw [E.last_binary, E.word_binary]
    exact (Concur.pure a).met

theorem primary_succ (h : Agreed E n) :
    Concur E E.Either (Reading.primary (n + 1)) (Reading.primary (n + 1)) := by
  rw [primary_eq]
  refine .either (.current fun t => ?_) (.current_met ?_)
  · split
    next hl =>
      refine .bind (.literal hl) fun e => ?_
      have close : ∀ u : Token, Concur E E.Either
          (if t.kind != .nil && u.isPunctuator .dot then some <$> Reading.suffixes n e
            else Pure.pure (some e))
          (if t.kind != .nil && u.isPunctuator .dot then some <$> Reading.suffixes n e
            else Pure.pure (some e)) := by
        intro u
        split
        · exact (h.suffixes e).map
        · exact .pure _
      refine .either (.current fun u => (close u).here) (.current_met ?_)
      rw [E.last_isPunctuator, E.word_isPunctuator, Bool.and_false]
      exact (Concur.pure _).met
    · split
      next hk =>
        refine .numberBehindPoint fun b => ?_
        split
        · exact (Concur.detachedFraction (by simp [Token.isEndOfLine, hk])).map
        · exact (Concur.pure none).here
      next hk =>
        exact .next (by simp [Token.isEndOfLine, hk]) (h.functionDeclaration _).map
      next hk =>
        refine .next (by simp [Token.isEndOfLine, hk]) (.bind h.mapFields.twin fun fs => ?_)
        exact .bind (.extentFrom _) fun e => (h.suffixes _).map
      next hk =>
        refine .next (by simp [Token.isEndOfLine, hk]) (.bind h.listItems.twin fun ns => ?_)
        exact .bind (.expectPunctuator _) fun _ => .bind (.extentFrom _) fun e => (h.suffixes _).map
      · exact (Concur.pure none).here
  · simp only [Token.isLiteral, Token.isValueLiteral, E.last_kind, E.word_kind]
    obtain h | h | h | h := E.closes <;> rw [h] <;> exact (Concur.pure none).met

theorem righthand_succ (h : Agreed E n) :
    Concur E E.Either (Reading.righthand (n + 1)) (Reading.righthand (n + 1)) := by
  rw [Reading.righthand]
  refine .either (.current fun t => ?_) (.current_met ?_)
  · split
    · exact .here (.bind .identifier fun e => (h.suffixes e).map)
    next hk =>
      refine .next (by simp [Token.isEndOfLine, hk]) (.bind h.expectedExpression.twin fun e => ?_)
      exact .bind (.expectPunctuator _) fun _ => (h.suffixes e).map
    · exact (Concur.pure none).here
  · rw [E.last_kind, E.word_kind]
    exact (Concur.pure none).met

theorem suffixes_succ (h : Agreed E n) (a : Node) :
    Concur E E.Either (Reading.suffixes (n + 1) a) (Reading.suffixes (n + 1) a) := by
  rw [Reading.suffixes]
  refine .either (.current fun t => ?_) (.current_met ?_)
  · split
    next q hk =>
      have ht : t.isEndOfLine = false := by simp [Token.isEndOfLine, hk]
      split
      · exact .next ht (.bind (h.compoundAssignment a _) fun e => h.suffixes e)
      · split
        · refine .next ht (.bind h.expectedExpression.twin fun c => ?_)
          refine .bind (.expectPunctuator _) fun _ => .bind (.extentFrom _) fun e => ?_
          exact h.suffixes _
        · refine .next ht (.bind Concur.identifier.twin fun c => ?_)
          exact .bind (.extentFrom _) fun e => h.suffixes _
        · exact .bind (h.callSuffix a ht) fun e => h.suffixes e
        · exact (Concur.pure a).here
    · exact (Concur.pure a).here
  · rw [E.last_kind, E.word_kind]
    exact (Concur.pure a).met

theorem compoundAssignment_succ (h : Agreed E n) (a : Node) (o : BinaryOperator) :
    Concur E E.Twin (Reading.compoundAssignment (n + 1) a o)
      (Reading.compoundAssignment (n + 1) a o) := by
  rw [Reading.compoundAssignment]
  refine .current fun t => .standing ?_
  refine .orEmpty (h.subExpression 0).twin (subExpression_tries n 0) fun c => ?_
  exact .previous (fun _ _ h => h) fun u => .pure _

theorem callRemainder_concur (a : Node) (cs : List Node) :
    Concur E E.Either (callRemainder a cs) (callRemainder a cs) :=
  .bind (.expectPunctuator _) fun _ => .bind (.extentFrom _) fun _ => .pure _

theorem callSuffix_succ (h : Agreed E n) {t : Token} (a : Node) (ht : t.isEndOfLine = false) :
    Concur E (E.At t) (Reading.callSuffix (n + 1) a) (Reading.callSuffix (n + 1) a) := by
  rw [callSuffix_eq]
  refine .previous (fun _ _ h => .inl h.1) fun u => .current_at ?_
  split
  · exact (Concur.raise _).here
  · refine .next ht (.bind h.expression.twin fun o => ?_)
    cases o with
    | none => exact callRemainder_concur a []
    | some e => exact .bind h.moreArguments.map (callRemainder_concur a)

theorem moreArguments_succ (h : Agreed E n) :
    Concur E E.Either (Reading.moreArguments (n + 1)) (Reading.moreArguments (n + 1)) := by
  rw [Reading.moreArguments]
  refine .bind (.consumePunctuator _) fun b => ?_
  split
  · exact .bind h.expectedExpression fun e => h.moreArguments.map
  · exact .pure []

theorem isSeparator_ending : isSeparator E.last = false ∧ isSeparator E.word = false := by
  simp [isSeparator, Token.isPunctuator, Token.isEndOfLine, E.last_kind, E.word_kind]

theorem fieldsRemainder_concur (h : Agreed E n) (entry : List Field) :
    Concur E E.Either (fieldsRemainder n entry) (fieldsRemainder n entry) := by
  unfold fieldsRemainder
  refine .bind (.consumePunctuator _) fun b => ?_
  split
  · exact .pure _
  · refine .either (.current fun t => ?_) (.current_met ?_)
    · split
      · exact .bind Concur.advance.standing fun _ => h.mapFields.map
      · exact .bind (Concur.raise _).discard.here fun _ => .pure _
    · rw [isSeparator_ending.1, isSeparator_ending.2]
      exact .bind (Concur.raise _).discard.met fun _ => .pure _

theorem mapFields_succ (h : Agreed E n) :
    Concur E E.Either (Reading.mapFields (n + 1)) (Reading.mapFields (n + 1)) := by
  rw [mapFields_eq]
  refine .either (.current fun t => ?_) (.current_met ?_)
  · dsimp only
    split
    next hk =>
      have hk : t.kind = .string := by simpa using hk
      refine .next (by simp [Token.isEndOfLine, hk]) (.bind (Concur.expectPunctuator _).twin ?_)
      exact fun _ => .bind h.expectedExpression fun e => h.fieldsRemainder_concur _
    · exact (h.fieldsRemainder_concur []).here
  · simp only [E.last_kind, E.word_kind]
    exact (h.fieldsRemainder_concur []).met

theorem listItems_succ (h : Agreed E n) :
    Concur E E.Either (Reading.listItems (n + 1)) (Reading.listItems (n + 1)) := by
  rw [Reading.listItems]
  refine .bind h.expression fun o => .either (.current fun t => ?_) (.current_met ?_)
  · split
    · exact .bind Concur.advance.standing fun _ => h.listItems.map
    · exact (Concur.pure _).here
  · rw [isSeparator_ending.1, isSeparator_ending.2]
    exact (Concur.pure _).met

theorem block_succ (h : Agreed E n) :
    Concur E E.Either (Reading.block (n + 1)) (Reading.block (n + 1)) := by
  rw [Reading.block]
  refine .either (.current fun t => ?_) (.current_met ?_)
  · split
    · exact (Concur.pure []).here
    · refine .standing (.bind (h.statement false) fun o => ?_)
      exact .bind .consumeLineEnd fun _ => h.block.map
  · rw [E.last_endsBlock, E.word_endsBlock]
    exact (Concur.pure []).met

theorem lineBody_succ (h : Agreed E n) :
    Concur E E.Either (Reading.lineBody (n + 1)) (Reading.lineBody (n + 1)) := by
  rw [Reading.lineBody]
  refine .either (.current fun t => ?_) (.current_met ?_)
  · split
    · exact (Concur.pure []).here
    · exact .standing (.bind (h.statement _) fun o => h.lineBody.map)
  · rw [E.last_endsLineBody, E.word_endsLineBody, Bool.or_true, Bool.or_true]
    exact (Concur.pure []).met

theorem statement_succ (h : Agreed E n) (inLine : Bool) :
    Concur E E.Twin (Reading.statement (n + 1) inLine) (Reading.statement (n + 1) inLine) := by
  rw [Reading.statement]
  refine .current fun t => ?_
  have word : ∀ {k : Keyword} {x : Reading (Option Node)}, t.kind = .keyword k →
      Concur E E.Twin x x →
      Concur E (E.At t) (Reading.advance >>= fun _ => x) (Reading.advance >>= fun _ => x) :=
    fun hk hx => .next (by simp [Token.isEndOfLine, hk]) hx
  split
  · exact .bind Concur.advance.standing fun _ => .pure none
  next hk => exact word hk (h.ifStatement _).map
  next hk => exact word hk (h.returnStatement _ _).map
  next hk => exact word hk (h.functionDeclaration _).map
  next hk => exact word hk (h.whileStatement _).map
  next hk => exact word hk (h.forStatement _).map
  next hk => exact word hk (Concur.pure _).twin
  next hk => exact word hk (Concur.pure _).twin
  next hk => exact word hk (Concur.pure _).twin
  next hk => exact word hk (Concur.importStatement _).map
  · exact h.assignmentOrCall.map.standing

theorem conditionalLine_concur (h : Agreed E n) (start : Position) (condition : Node) :
    Concur E E.Either (conditionalLine n start condition) (conditionalLine n start condition) := by
  refine .bind h.lineBody fun body => .bind (.extentFrom _) fun e => ?_
  refine .bind .consumeLineEnd fun _ => .bind h.elseIfLines fun more => ?_
  refine .bind h.elseLine fun last => .bind (.consumeKeyword _) fun b => ?_
  dsimp only
  split
  · exact .bind .consumeLineEnd fun _ => .bind (.extentFrom _) fun _ => .pure _
  · exact .bind (.extentFrom _) fun _ => .pure _

theorem ifStatement_succ (h : Agreed E n) (start : Position) :
    Concur E E.Twin (Reading.ifStatement (n + 1) start) (Reading.ifStatement (n + 1) start) := by
  rw [ifStatement_eq]
  refine .bind h.expectedExpression.twin fun c => .bind (.expectKeyword _) fun _ => ?_
  refine .either (.current fun t => ?_) (.current_met ?_)
  · split
    · refine .here (.bind h.block fun body => .bind (.extentFrom _) fun e => ?_)
      refine .bind h.elseIfBlocks fun more => .bind h.elseBlock fun last => ?_
      exact .bind (.expectKeyword _) fun _ => .bind (.extentFrom _) fun _ => .pure _
    · exact (h.conditionalLine_concur start c).here
  · rw [if_neg (by simp [Token.isEndOfLine, E.last_kind]),
      if_neg (by simp [Token.isEndOfLine, E.word_kind])]
    exact (h.conditionalLine_concur start c).met

theorem elseIfBlocks_succ (h : Agreed E n) :
    Concur E E.Either (Reading.elseIfBlocks (n + 1)) (Reading.elseIfBlocks (n + 1)) := by
  rw [Reading.elseIfBlocks]
  refine .bind (.consumeKeyword _) fun b => ?_
  split
  · refine .previous (fun _ _ h => h) fun t => .bind h.expectedExpression fun c => ?_
    refine .bind (.expectKeyword _) fun _ => .bind h.block fun body => ?_
    exact .bind (.extentFrom _) fun e => h.elseIfBlocks.map
  · exact .pure []

theorem elseBlock_succ (h : Agreed E n) :
    Concur E E.Either (Reading.elseBlock (n + 1)) (Reading.elseBlock (n + 1)) := by
  rw [Reading.elseBlock]
  refine .bind (.consumeKeyword _) fun b => ?_
  split
  · refine .previous (fun _ _ h => h) fun t => .bind h.block fun body => ?_
    exact .bind (.extentFrom _) fun e => .pure _
  · exact .pure []

theorem elseIfLines_succ (h : Agreed E n) :
    Concur E E.Either (Reading.elseIfLines (n + 1)) (Reading.elseIfLines (n + 1)) := by
  rw [Reading.elseIfLines]
  refine .bind (.consumeKeyword _) fun b => ?_
  split
  · refine .previous (fun _ _ h => h) fun t => .bind h.expectedExpression fun c => ?_
    refine .bind (.expectKeyword _) fun _ => .bind h.lineBody fun body => ?_
    exact .bind (.extentFrom _) fun e => .bind .consumeLineEnd fun _ => h.elseIfLines.map
  · exact .pure []

theorem elseLine_succ (h : Agreed E n) :
    Concur E E.Either (Reading.elseLine (n + 1)) (Reading.elseLine (n + 1)) := by
  rw [Reading.elseLine]
  refine .bind (.consumeKeyword _) fun b => ?_
  split
  · refine .previous (fun _ _ h => h) fun t => .bind h.lineBody fun body => ?_
    exact .bind (.extentFrom _) fun e => .bind .consumeLineEnd fun _ => .pure _
  · exact .pure []

theorem whileStatement_succ (h : Agreed E n) (start : Position) :
    Concur E E.Twin (Reading.whileStatement (n + 1) start)
      (Reading.whileStatement (n + 1) start) := by
  rw [Reading.whileStatement]
  refine .bind h.expectedExpression.twin fun c => .bind (h.constructBody _) fun body => ?_
  exact .bind (.extentFrom _) fun e => .pure _

theorem forStatement_succ (h : Agreed E n) (start : Position) :
    Concur E E.Twin (Reading.forStatement (n + 1) start) (Reading.forStatement (n + 1) start) := by
  rw [Reading.forStatement]
  refine .bind (Concur.consumePunctuator _).discard.twin fun _ => .bind .identifier fun v => ?_
  refine .bind (.expectKeyword _) fun _ => .bind h.expectedExpression fun c => ?_
  refine .bind (Concur.consumePunctuator _).discard fun _ => ?_
  exact .bind (h.constructBody _) fun body => .bind (.extentFrom _) fun e => .pure _

theorem functionDeclaration_succ (h : Agreed E n) (start : Position) :
    Concur E E.Twin (Reading.functionDeclaration (n + 1) start)
      (Reading.functionDeclaration (n + 1) start) := by
  have body : ∀ (name : Option String) (ps : Except Node (List Parameter)), Concur E E.Either
      (functionBody n start name ps) (functionBody n start name ps) := by
    intro name ps
    cases ps with
    | error a => exact .pure a
    | ok ps => exact .bind (h.constructBody _) fun body => .bind (.extentFrom _) fun e => .pure _
  have header : ∀ name : Option String, Concur E E.Either (functionRemainder n start name)
      (functionRemainder n start name) := by
    intro name
    unfold functionRemainder
    refine .bind (.expectPunctuator _) fun _ => .bind (.consumePunctuator _) fun b => ?_
    dsimp only
    split
    · exact body name (.ok [])
    · exact .bind h.parameters (body name)
  rw [functionDeclaration_eq]
  refine .current fun t => ?_
  dsimp only
  split
  · exact .here (.bind Concur.identifier.discard fun _ => header _)
  · exact (header none).here

theorem parameters_succ (h : Agreed E n) :
    Concur E E.Either (Reading.parameters (n + 1)) (Reading.parameters (n + 1)) := by
  rw [parameters_eq]
  refine .either (.current fun t => ?_) (.current_met ?_)
  · split
    · exact (Concur.raise _).here.map
    next ht =>
      have ht' : t.isEndOfLine = false := by
        cases hk : t.kind <;> simp_all [Token.isIdentifier, Token.isEndOfLine]
      refine .note (.next ht' (.bind (Concur.consumePunctuator _).twin fun b => ?_))
      have rest : ∀ d : Option Node, Concur E E.Either (parametersRemainder n t d)
          (parametersRemainder n t d) := by
        intro d
        unfold parametersRemainder
        refine .bind (.extentFrom _) fun e => .bind (.consumePunctuator _) fun b => ?_
        split
        · refine .bind h.parameters fun ps => ?_
          cases ps <;> exact .pure _
        · exact .bind (.expectPunctuator _) fun _ => .pure _
      dsimp only
      split
      · exact .bind h.expectedExpression.map rest
      · exact rest none
  · rw [if_pos (by simp [Token.isIdentifier, E.last_kind]),
      if_pos (by simp [Token.isIdentifier, E.word_kind])]
    exact (Concur.raise _).met.map

theorem constructBody_succ (h : Agreed E n) (k : Keyword) :
    Concur E E.Either (Reading.constructBody (n + 1) k) (Reading.constructBody (n + 1) k) := by
  have line : Concur E E.Either
      (do
        let body ← Reading.lineBody n
        Reading.expectLineBodyEnd k
        return body)
      (do
        let body ← Reading.lineBody n
        Reading.expectLineBodyEnd k
        return body) :=
    .bind h.lineBody fun body => .bind (.expectLineBodyEnd _) fun _ => .pure _
  rw [Reading.constructBody]
  refine .either (.current fun t => ?_) (.current_met ?_)
  · split
    · exact .here (.bind h.block fun body => .bind (.expectKeyword _) fun _ => .pure _)
    · exact line.here
  · rw [if_neg (by simp [Token.isEndOfLine, E.last_kind]),
      if_neg (by simp [Token.isEndOfLine, E.word_kind])]
    exact line.met

theorem returnStatement_succ (h : Agreed E n) (start : Position) (inLine : Bool) :
    Concur E E.Twin (Reading.returnStatement (n + 1) start inLine)
      (Reading.returnStatement (n + 1) start inLine) := by
  rw [Reading.returnStatement]
  refine .bind h.expression.twin fun o => .bind (.extentFrom _) fun e => ?_
  dsimp only
  split
  · exact .bind .consumeLineEnd fun _ => .pure _
  · exact .pure _

theorem assignmentOrCall_succ (h : Agreed E n) :
    Concur E E.Twin (Reading.assignmentOrCall (n + 1)) (Reading.assignmentOrCall (n + 1)) := by
  rw [Reading.assignmentOrCall]
  refine .current fun t => ?_
  have opened : Concur E E.Either
      (do
        let e ← Reading.expectedExpression n
        Reading.statementTail n t e)
      (do
        let e ← Reading.expectedExpression n
        Reading.statementTail n t e) :=
    .bind h.expectedExpression fun e => h.statementTail t e
  split
  · exact .here (.bind .identifier fun e => h.statementTail t e)
  next hk =>
    refine .next (by simp [Token.isEndOfLine, hk]) (.bind h.expectedExpression.twin fun e => ?_)
    exact .bind (.expectPunctuator _) fun _ => h.statementTail t e
  · exact opened.here
  · exact opened.here
  · split
    · exact opened.here
    · exact (Concur.raise _).here

theorem targetRemainder_concur (h : Agreed E n) (t : Token) (suffixed : Bool) (e : Node) :
    Concur E E.Either (targetRemainder n t suffixed e) (targetRemainder n t suffixed e) := by
  have leaf : Concur E E.Either
      (if (t.isValueLiteral && !suffixed) || isStatementNode e then Pure.pure e
        else do return Node.callStatement (← Reading.extentFrom t.start) e)
      (if (t.isValueLiteral && !suffixed) || isStatementNode e then Pure.pure e
        else do return Node.callStatement (← Reading.extentFrom t.start) e) := by
    split
    · exact .pure _
    · exact .bind (.extentFrom _) fun _ => .pure _
  unfold targetRemainder
  refine .either (.current fun u => ?_) (.current_met ?_)
  · split
    · exact leaf.here
    · refine .here (.bind (.expectPunctuator _) fun _ => .bind h.expectedExpression fun v => ?_)
      exact .bind (.extentFrom _) fun _ => .pure _
  · rw [E.last_endsLineBody, E.word_endsLineBody, Bool.or_true, Bool.or_true]
    exact leaf.met

theorem statementTail_succ (h : Agreed E n) (t : Token) (a : Node) :
    Concur E E.Either (Reading.statementTail (n + 1) t a) (Reading.statementTail (n + 1) t a) := by
  rw [statementTail_eq]
  refine .either (.current fun u => ?_) (.current_met ?_)
  · split
    · exact (h.binaryTail a 0).here
    · refine .current_at ?_
      dsimp only
      split
      · exact .here (.bind (h.suffixes a) fun e => h.targetRemainder_concur t _ e)
      · exact (h.targetRemainder_concur t _ a).here
  · rw [E.last_binary, E.word_binary]
    simp only [Option.isSome_none, Bool.false_eq_true, if_false]
    refine .current_met ?_
    simp only [isSuffix, E.last_kind, E.word_kind, Bool.false_eq_true, if_false]
    exact (h.targetRemainder_concur t false a).met

theorem zero : Agreed E 0 := by
  have none : ∀ {α : Type} {x : Reading α} {P : Reader → Reader → Prop}, x = exhausted →
      Concur E P x x := by
    intro α x P hx r r' a s a' s' _ h
    rw [hx] at h
    cases h
  constructor <;> intros <;> exact none rfl

theorem succ (h : Agreed E n) : Agreed E (n + 1) where
  subExpression := h.subExpression_succ
  expression := by
    rw [Reading.expression]
    exact h.subExpression 0
  expectedExpression := h.expectedExpression_succ
  operand := h.operand_succ
  unaryExpression := h.unaryExpression_succ
  binaryTail := h.binaryTail_succ
  primary := h.primary_succ
  righthand := h.righthand_succ
  suffixes := h.suffixes_succ
  compoundAssignment := h.compoundAssignment_succ
  callSuffix := h.callSuffix_succ
  moreArguments := h.moreArguments_succ
  mapFields := h.mapFields_succ
  listItems := h.listItems_succ
  block := h.block_succ
  lineBody := h.lineBody_succ
  statement := h.statement_succ
  ifStatement := h.ifStatement_succ
  elseIfBlocks := h.elseIfBlocks_succ
  elseBlock := h.elseBlock_succ
  elseIfLines := h.elseIfLines_succ
  elseLine := h.elseLine_succ
  whileStatement := h.whileStatement_succ
  forStatement := h.forStatement_succ
  functionDeclaration := h.functionDeclaration_succ
  parameters := h.parameters_succ
  constructBody := h.constructBody_succ
  returnStatement := h.returnStatement_succ
  assignmentOrCall := h.assignmentOrCall_succ
  statementTail := h.statementTail_succ

end Agreed

/-- The productions give the same in front of either ending, where they succeed. -/
theorem agreed (E : Ending) (n : Nat) : Agreed E n := by
  induction n with
  | zero => exact .zero
  | succ n ih => exact ih.succ

end Reading

end LineScript
