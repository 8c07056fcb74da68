import LineScript.Proofs.Grammar.Climbing

/-!
# Expressions in parentheses

The same tokens are read twice as an expression: in front of the end of a source, and somewhere else
in front of the end of a source or of a closing parenthesis. Neither of the two goes on with an
expression, but a missing operand is put where it is missing, so the trees are the same but for
their positions. Main statement: what the first reading accepts up to the end of the source the
second accepts up to its own end. Functions are left out, because a body on the line of its header
goes on behind a closing parenthesis.
-/

namespace LineScript

/-- The same by what a function makes of it, such as a tree without its positions. -/
def Same {α β : Type} (f : α → β) (a b : α) : Prop := f b = f a

/-- A field without its positions. -/
def Field.erase (f : Field) : Field := f.relocate fun _ => .origin

section

variable {a b c d : Node} {e e' : Extent}

theorem same_option {o o' : Option Node} (h : Same (Option.map Node.erase) o o') :
    o = none ∧ o' = none ∨ ∃ a b, o = some a ∧ o' = some b ∧ Same Node.erase a b := by
  cases o <;> cases o' <;> simp_all [Same]

theorem same_toList {o o' : Option Node} (h : Same (Option.map Node.erase) o o') :
    Same (List.map Node.erase) o.toList o'.toList := by
  obtain ⟨rfl, rfl⟩ | ⟨a, b, rfl, rfl, hab⟩ := same_option h
  · rfl
  · exact congrArg (fun c => [c]) hab

theorem same_cons {α β : Type} {f : α → β} {x y : α} {xs ys : List α} (h : Same f x y)
    (hs : Same (List.map f) xs ys) : Same (List.map f) (x :: xs) (y :: ys) := by
  simp_all [Same]

theorem same_append {α β : Type} {f : α → β} {xs ys us vs : List α}
    (h : Same (List.map f) xs ys) (hs : Same (List.map f) us vs) :
    Same (List.map f) (xs ++ us) (ys ++ vs) := by
  simp_all [Same]

theorem same_assignment (hab : Same Node.erase a b) (hcd : Same Node.erase c d) :
    Same Node.erase (.assignment e a c) (.assignment e' b d) := by
  simp_all [Same, Node.erase, Node.relocate, Extent.relocate]

theorem same_index (hab : Same Node.erase a b) (hcd : Same Node.erase c d) :
    Same Node.erase (.index e a c) (.index e' b d) := by
  simp_all [Same, Node.erase, Node.relocate, Extent.relocate]

theorem same_member (hab : Same Node.erase a b) (hcd : Same Node.erase c d) :
    Same Node.erase (.member e a c) (.member e' b d) := by
  simp_all [Same, Node.erase, Node.relocate, Extent.relocate]

theorem same_binary (o : BinaryOperator) (hab : Same Node.erase a b) (hcd : Same Node.erase c d) :
    Same Node.erase (.binary e o a c) (.binary e' o b d) := by
  simp_all [Same, Node.erase, Node.relocate, Extent.relocate]

theorem same_binaryNode (o : BinaryOperator) (hab : Same Node.erase a b)
    (hcd : Same Node.erase c d) :
    Same Node.erase (Reading.binaryNode e o a c) (Reading.binaryNode e' o b d) := by
  unfold Reading.binaryNode
  split <;> simp_all [Same, Node.erase, Node.relocate, Extent.relocate]

theorem same_unaryNode (o : UnaryOperator) (hab : Same Node.erase a b) :
    Same Node.erase (Reading.unaryNode e o a) (Reading.unaryNode e' o b) := by
  cases o <;> simp_all [Same, Node.erase, Reading.unaryNode, Node.relocate, Extent.relocate]

theorem same_call {cs ds : List Node} (hab : Same Node.erase a b)
    (hcs : Same (List.map Node.erase) cs ds) :
    Same Node.erase (.call e a cs) (.call e' b ds) := by
  simp only [Same, Node.erase, Node.relocate, Node.relocateAll_eq_map, Extent.relocate] at *
  rw [hab]
  exact congrArg _ hcs

theorem same_listLiteral {cs ds : List Node} (hcs : Same (List.map Node.erase) cs ds) :
    Same Node.erase (.listLiteral e cs) (.listLiteral e' ds) := by
  simp only [Same, Node.erase, Node.relocate, Node.relocateAll_eq_map, Extent.relocate]
  exact congrArg _ hcs

theorem same_mapLiteral {fs gs : List Field} (hfs : Same (List.map Field.erase) fs gs) :
    Same Node.erase (.mapLiteral e fs) (.mapLiteral e' gs) := by
  simp only [Same, Node.erase, Node.relocate, Node.relocateFields_eq_map, Extent.relocate]
  exact congrArg _ hfs

theorem same_field {key : String} (hcd : Same Node.erase c d) :
    Same (List.map Field.erase) [.mk e key c] [.mk e' key d] := by
  simp_all [Same, Node.erase, Field.erase, Field.relocate, Extent.relocate]

end

/-- A token that ends an expression and can follow nothing but an expression. -/
def Token.EndsExpression (t : Token) : Prop :=
  t.kind = .endOfFile ∨ t.kind = .punctuator .parenClose

namespace Token.EndsExpression

variable {t : Token}

theorem unary (h : t.EndsExpression) : UnaryOperator.ofToken? t = none := by
  obtain h | h := h <;> simp [UnaryOperator.ofToken?, h]

theorem binary (h : t.EndsExpression) : BinaryOperator.ofToken? t = none := by
  obtain h | h := h <;> simp [BinaryOperator.ofToken?, h, BinaryOperator.ofPunctuator?]

theorem isLiteral (h : t.EndsExpression) : t.isLiteral = false := by
  obtain h | h := h <;> simp [Token.isLiteral, Token.isValueLiteral, h]

theorem isSeparator (h : t.EndsExpression) : Reading.isSeparator t = false := by
  obtain h | h := h <;> simp [Reading.isSeparator, Token.isPunctuator, Token.isEndOfLine, h]

theorem isPunctuator (h : t.EndsExpression) {q : Punctuator} (hq : q ≠ .parenClose) :
    t.isPunctuator q = false := by
  obtain h | h := h <;> simp [Token.isPunctuator, h, hq.symm]

end Token.EndsExpression

/-- An expression at two places: in front of the end of a source, and in front of a mark. -/
structure Copy where
  place : Placement
  last : Token
  mark : Token
  more : List Token
  last_kind : last.kind = .endOfFile
  mark_ends : mark.EndsExpression

namespace Copy

variable (C : Copy)

theorem last_ends : C.last.EndsExpression := .inl C.last_kind

/-- Two readings have the same tokens ahead up to the end of the expression. -/
structure Beside (front : List Token) (r r' : Reader) : Prop where
  first : r.Ahead (front ++ [C.last])
  second : r'.Ahead (front.map (Token.relocate C.place) ++ C.mark :: C.more)
  line : r'.previous.line = C.place.line r.previous.line
  plain : ∀ t ∈ front, t.isEndOfFile = false ∧ t.isKeyword .functionWord = false

/-- Two readings are at the same place in the expression, or both at its end. -/
def Anywhere (r r' : Reader) : Prop := ∃ front, C.Beside front r r'

/-- Two readings are at the same token of the expression. -/
def At (t : Token) (r r' : Reader) : Prop := ∃ front, C.Beside (t :: front) r r'

variable {C} {t : Token} {front : List Token} {r r' : Reader}

theorem At.anywhere (h : C.At t r r') : C.Anywhere r r' := h.imp' _ fun _ h => h

theorem Beside.step (h : C.Beside (t :: front) r r') :
    ∃ s s', r.step = .ok s ∧ r'.step = .ok s' ∧ C.Beside front s s' := by
  obtain ⟨previous, errors, names, rfl⟩ := Reading.ahead_eq h.first
  obtain ⟨previous', errors', names', rfl⟩ := Reading.ahead_eq h.second
  have hplain : ∀ u ∈ front, u.isEndOfFile = false ∧ u.isKeyword .functionWord = false :=
    fun u hu => h.plain u (List.mem_cons_of_mem t hu)
  cases front with
  | nil => exact ⟨_, _, rfl, rfl, ⟨rfl, rfl, rfl⟩, ⟨rfl, rfl, rfl⟩, by simp, hplain⟩
  | cons u front => exact ⟨_, _, rfl, rfl, ⟨rfl, rfl, rfl⟩, ⟨rfl, rfl, rfl⟩, by simp, hplain⟩

theorem Beside.note (h : C.Beside front r r') (name : String) :
    C.Beside front (r.note name) (r'.note name) := by
  obtain ⟨⟨h₁, h₂, h₃⟩, ⟨h₄, h₅, h₆⟩, h₇, h₈⟩ := h
  unfold Reader.note
  split <;> split <;> exact ⟨⟨h₁, h₂, h₃⟩, ⟨h₄, h₅, h₆⟩, h₇, h₈⟩

end Copy

namespace Reading

variable {α β : Type} {C : Copy} {P : Reader → Reader → Prop} {t : Token}

theorem numberBehindPoint_ahead {r : Reader} {v u : Token} {ts : List Token}
    (h : r.Ahead (v :: u :: ts)) (hv : v.isPunctuator .dot = true) :
    numberBehindPoint r = .ok (u.kind == .number) r := by
  obtain ⟨previous, errors, names, rfl⟩ := ahead_eq h
  simp only [numberBehindPoint, hv, if_true]
  rfl

/-- Reads the number behind a point. -/
def numberBehind (start : Position) : Reading Node := do
  let t ← current
  let raw := "0." ++ t.value
  advance
  return .literal ⟨start, t.stop⟩ (.number (numberOf raw)) raw

theorem fraction_eq {r r₁ : Reader} (h : r.step = .ok r₁) :
    (some <$> detachedFraction) r = (some <$> numberBehind r.current.start) r₁ := by
  rw [map_eq_pure_bind, map_eq_pure_bind, bind_apply, bind_apply]
  unfold detachedFraction
  rw [current_bind, bind_apply, advance_of_step h]
  rfl

/-- The second reading repeats what the first one reads. -/
def Repeats (C : Copy) (P : Reader → Reader → Prop) (V : α → α → Prop) (x y : Reading α) : Prop :=
  ∀ ⦃r r' a s⦄, P r r' → x r = .ok a s → ∃ b s', y r' = .ok b s' ∧ V a b ∧ C.Anywhere s s'

namespace Repeats

variable {V : α → α → Prop} {W : β → β → Prop} {x y : Reading α}

theorem here (h : Repeats C C.Anywhere V x y) : Repeats C (C.At t) V x y :=
  fun _ _ _ _ hP hx => h hP.anywhere hx

theorem ending (h : Repeats C C.Anywhere V x y) : Repeats C (C.Beside []) V x y :=
  fun _ _ _ _ hP hx => h ⟨[], hP⟩ hx

theorem pure {a b : α} (h : V a b) : Repeats C C.Anywhere V (pure a) (pure b) := by
  intro r r' c s hP hx
  cases hx
  exact ⟨b, r', rfl, h, hP⟩

theorem bind {k l : α → Reading β} (hx : Repeats C P V x y)
    (hk : ∀ a b, V a b → Repeats C C.Anywhere W (k a) (l b)) :
    Repeats C P W (x >>= k) (y >>= l) := by
  intro r r' c s hP h
  obtain ⟨a, t, hxt, hkt⟩ := bind_eq_ok.1 h
  obtain ⟨b, t', hyt, hab, ht⟩ := hx hP hxt
  obtain ⟨d, s', hl, hcd, hs⟩ := hk a b hab ht hkt
  exact ⟨d, s', bind_eq_ok.2 ⟨b, t', hyt, hl⟩, hcd, hs⟩

theorem map {f g : α → β} (hx : Repeats C P V x y) (hf : ∀ a b, V a b → W (f a) (g b)) :
    Repeats C P W (f <$> x) (g <$> y) := by
  rw [map_eq_pure_bind, map_eq_pure_bind]
  exact hx.bind fun a b hab => .pure (hf a b hab)

/-- Looking at the current token, inside the expression or at its end. -/
theorem current {k l : Token → Reading β}
    (hin : ∀ t, t.isEndOfFile = false → t.isKeyword .functionWord = false →
      Repeats C (C.At t) W (k t) (l (t.relocate C.place)))
    (hend : Repeats C (C.Beside []) W (k C.last) (l C.mark)) :
    Repeats C C.Anywhere W (Reading.current >>= k) (Reading.current >>= l) := by
  rintro r r' c s ⟨front, h⟩ hx
  rw [current_bind] at hx ⊢
  cases front with
  | nil =>
    rw [h.first.current] at hx
    rw [h.second.current]
    exact hend h hx
  | cons t front =>
    rw [h.first.current] at hx
    rw [h.second.current]
    obtain ⟨hlast, hword⟩ := h.plain t (by simp)
    exact hin t hlast hword ⟨front, h⟩ hx

theorem current_at {k l : Token → Reading β}
    (hk : Repeats C (C.At t) W (k t) (l (t.relocate C.place))) :
    Repeats C (C.At t) W (Reading.current >>= k) (Reading.current >>= l) := by
  rintro r r' c s ⟨front, h⟩ hx
  rw [current_bind] at hx ⊢
  rw [h.first.current] at hx
  rw [h.second.current]
  exact hk ⟨front, h⟩ hx

/-- Looking at the token behind, of which only the line is told. -/
theorem previous {k l : Token → Reading β} (hP : ∀ r r', P r r' → C.Anywhere r r')
    (hk : ∀ u u' : Token, u'.line = C.place.line u.line → Repeats C P W (k u) (l u')) :
    Repeats C P W (Reading.previous >>= k) (Reading.previous >>= l) := by
  intro r r' c s h hx
  obtain ⟨front, hb⟩ := hP r r' h
  exact hk r.previous r'.previous hb.line h hx

theorem next {k l : Reading β} (hk : Repeats C C.Anywhere W k l) :
    Repeats C (C.At t) W (Reading.advance >>= fun _ => k) (Reading.advance >>= fun _ => l) := by
  rintro r r' c s ⟨front, h⟩ hx
  obtain ⟨u, u', hu, hu', hb⟩ := h.step
  rw [bind_apply, advance_of_step hu] at hx
  rw [bind_apply, advance_of_step hu']
  exact hk ⟨front, hb⟩ hx

theorem note {name : String} {k l : Reading β} (hk : Repeats C (C.At t) W k l) :
    Repeats C (C.At t) W (Reading.note name >>= fun _ => k) (Reading.note name >>= fun _ => l) :=
  fun _ _ _ _ ⟨front, h⟩ hx => hk ⟨front, h.note name⟩ hx

/-- A strict reading does not go on behind a fault. -/
theorem raise {V : Node → Node → Prop} {y : Reading Node} (f : ParseFault) :
    Repeats C C.Anywhere V (Reading.raise f) y := by
  rintro r r' c s ⟨front, h⟩ hx
  rw [raise_strict h.first.strict] at hx
  cases hx

theorem discard (hx : Repeats C P V x y) :
    Repeats C P (fun _ _ => True) (discard x) (discard y) := by
  rw [discard_eq, discard_eq]
  exact hx.bind fun _ _ _ => .pure trivial

theorem extentFrom (start start' : Position) :
    Repeats C C.Anywhere (fun _ _ => True) (extentFrom start) (extentFrom start') :=
  .previous (fun _ _ h => h) fun _ _ _ => .pure trivial

theorem emptyHere : Repeats C C.Anywhere (Same Node.erase) emptyHere emptyHere :=
  .current (fun _ _ _ => here (.pure rfl)) (ending (.pure rfl))

theorem consumePunctuator {q : Punctuator} (hq : q ≠ .parenClose) :
    Repeats C C.Anywhere Eq (consumePunctuator q) (consumePunctuator q) := by
  unfold Reading.consumePunctuator
  refine .current (fun t _ _ => ?_) ?_
  · rw [Token.isPunctuator_relocate]
    split
    · exact .next (.pure rfl)
    · exact (pure rfl).here
  · rw [C.last_ends.isPunctuator hq, C.mark_ends.isPunctuator hq]
    exact (pure rfl).ending

theorem expectPunctuator (q : Punctuator) :
    Repeats C C.Anywhere (fun _ _ => True) (expectPunctuator q) (expectPunctuator q) := by
  have moved : Repeats C C.Anywhere (fun _ _ => True)
      (if !true then Functor.discard (Reading.raise (.unexpectedValue q.text)) else Pure.pure ())
      (if !true then Functor.discard (Reading.raise (.unexpectedValue q.text)) else Pure.pure ()) :=
    .pure trivial
  unfold Reading.expectPunctuator Reading.consumePunctuator
  simp only [bind_assoc]
  refine .current (fun t _ _ => ?_) ?_
  · rw [Token.isPunctuator_relocate]
    split
    · simp only [bind_assoc, pure_bind]
      exact .next moved
    · simp only [pure_bind]
      exact (discard (raise (V := fun _ _ => True) _)).here
  -- a parenthesis that is expected in front of the end of the source is missing there
  · have hlast : C.last.isPunctuator q = false := by simp [Token.isPunctuator, C.last_kind]
    rw [hlast]
    simp only [Bool.false_eq_true, if_false, pure_bind, Bool.not_false, if_true]
    rintro r r' c s h hx
    rw [discard_eq] at hx
    obtain ⟨_, _, hraise, _⟩ := bind_eq_ok.1 hx
    rw [raise_strict h.first.strict] at hraise
    cases hraise

theorem identifier : Repeats C C.Anywhere (Same Node.erase) identifier identifier := by
  unfold Reading.identifier
  refine .current (fun t _ _ => ?_) ?_
  · rw [Token.isIdentifier_relocate]
    split
    · exact .note (.next (.pure rfl))
    · exact (raise _).here
  · rw [if_neg (by simp [Token.isIdentifier, C.last_kind])]
    rintro r r' c s h hx
    rw [raise_strict h.first.strict] at hx
    cases hx

theorem literal : Repeats C (C.At t) (Same Node.erase) literal literal := by
  unfold Reading.literal
  exact .current_at (.next (.pure rfl))

/-- A point with a number behind it is a literal at both places, or at none. -/
theorem fraction (ht : t.isPunctuator .dot = true) :
    Repeats C (C.At t) (Same (Option.map Node.erase))
      (do if ← numberBehindPoint then some <$> detachedFraction else return none)
      (do if ← numberBehindPoint then some <$> detachedFraction else return none) := by
  have ht' : (t.relocate C.place).isPunctuator .dot = true := ht
  rintro r r' c s ⟨front, h⟩ hx
  rw [bind_apply] at hx ⊢
  cases front with
  | nil =>
    have hmark : (C.mark.kind == TokenKind.number) = false := by
      obtain hk | hk := C.mark_ends <;> simp [hk]
    rw [numberBehindPoint_ahead h.first ht, C.last_kind] at hx
    rw [numberBehindPoint_ahead h.second ht', hmark]
    cases hx
    exact ⟨none, r', rfl, rfl, [t], h⟩
  | cons u front =>
    rw [numberBehindPoint_ahead h.first ht] at hx
    rw [numberBehindPoint_ahead h.second ht', Token.kind_relocate]
    cases hu : u.kind == TokenKind.number with
    | false =>
      rw [hu] at hx
      cases hx
      exact ⟨none, r', rfl, rfl, t :: u :: front, h⟩
    | true =>
      rw [hu] at hx
      obtain ⟨r₁, r₁', hr₁, hr₁', h₁⟩ := h.step
      have number : Repeats C (C.At u) (Same Node.erase) (numberBehind r.current.start)
          (numberBehind r'.current.start) := .current_at (.next (.pure rfl))
      have found : Repeats C (C.At u) (Same (Option.map Node.erase))
          (some <$> numberBehind r.current.start) (some <$> numberBehind r'.current.start) :=
        number.map fun _ _ hab => congrArg some hab
      obtain ⟨b, s', hb, hcb, hs⟩ := found ⟨front, h₁⟩ ((fraction_eq hr₁).symm.trans hx)
      exact ⟨b, s', (fraction_eq hr₁').trans hb, hcb, hs⟩

/-- An operand that may be missing, followed by the same for whatever stands there. -/
theorem orEmpty {x y : Reading (Option Node)} {k l : Node → Reading β}
    (hx : Repeats C P (Same (Option.map Node.erase)) x y)
    (hk : ∀ a b, Same Node.erase a b → Repeats C C.Anywhere W (k a) (l b)) :
    Repeats C P W
      (x >>= fun o => match o with
        | some e => Pure.pure e >>= k
        | none => Reading.emptyHere >>= k)
      (y >>= fun o => match o with
        | some e => Pure.pure e >>= l
        | none => Reading.emptyHere >>= l) := by
  refine hx.bind fun a b hab => ?_
  obtain ⟨rfl, rfl⟩ | ⟨c, d, rfl, rfl, hcd⟩ := same_option hab
  · exact emptyHere.bind hk
  · exact hk c d hcd

theorem found {x y : Reading Node} (hx : Repeats C P (Same Node.erase) x y) :
    Repeats C P (Same (Option.map Node.erase)) (some <$> x) (some <$> y) :=
  hx.map fun _ _ hab => congrArg some hab

end Repeats

/-- The productions of expressions repeat under a bound what they read. -/
structure Repeated (C : Copy) (n : Nat) : Prop where
  subExpression : ∀ bound, Repeats C C.Anywhere (Same (Option.map Node.erase))
    (subExpression n bound) (subExpression n bound)
  expression : Repeats C C.Anywhere (Same (Option.map Node.erase)) (expression n) (expression n)
  expectedExpression : Repeats C C.Anywhere (Same Node.erase) (expectedExpression n)
    (expectedExpression n)
  operand : Repeats C C.Anywhere (Same (Option.map Node.erase)) (operand n) (operand n)
  unaryExpression : ∀ {t} o, Repeats C (C.At t) (Same Node.erase) (unaryExpression n o)
    (unaryExpression n o)
  binaryTail : ∀ {a b} bound, Same Node.erase a b →
    Repeats C C.Anywhere (Same Node.erase) (binaryTail n a bound) (binaryTail n b bound)
  primary : Repeats C C.Anywhere (Same (Option.map Node.erase)) (primary n) (primary n)
  righthand : Repeats C C.Anywhere (Same (Option.map Node.erase)) (righthand n) (righthand n)
  suffixes : ∀ {a b}, Same Node.erase a b →
    Repeats C C.Anywhere (Same Node.erase) (suffixes n a) (suffixes n b)
  compoundAssignment : ∀ {a b} o, Same Node.erase a b → Repeats C C.Anywhere (Same Node.erase)
    (compoundAssignment n a o) (compoundAssignment n b o)
  callSuffix : ∀ {t a b}, Same Node.erase a b →
    Repeats C (C.At t) (Same Node.erase) (callSuffix n a) (callSuffix n b)
  moreArguments : Repeats C C.Anywhere (Same (List.map Node.erase)) (moreArguments n)
    (moreArguments n)
  mapFields : Repeats C C.Anywhere (Same (List.map Field.erase)) (mapFields n) (mapFields n)
  listItems : Repeats C C.Anywhere (Same (List.map Node.erase)) (listItems n) (listItems n)

namespace Repeated

variable {n : Nat} {a b : Node}

theorem subExpression_succ (h : Repeated C n) (bound : Nat) :
    Repeats C C.Anywhere (Same (Option.map Node.erase)) (Reading.subExpression (n + 1) bound)
      (Reading.subExpression (n + 1) bound) := by
  have plain : Repeats C C.Anywhere (Same (Option.map Node.erase))
      (do
        match ← Reading.operand n with
        | some e => some <$> Reading.binaryTail n e bound
        | none => return none)
      (do
        match ← Reading.operand n with
        | some e => some <$> Reading.binaryTail n e bound
        | none => return none) := by
    refine .bind h.operand fun o o' ho => ?_
    obtain ⟨rfl, rfl⟩ | ⟨c, d, rfl, rfl, hcd⟩ := same_option ho
    · exact .pure rfl
    · exact (h.binaryTail bound hcd).found
  rw [Reading.subExpression]
  refine .current (fun t _ _ => ?_) ?_
  · rw [Token.unaryOperator_relocate]
    split
    · exact .bind (h.unaryExpression _) fun c d hcd => (h.binaryTail bound hcd).found
    · exact plain.here
  · rw [C.last_ends.unary, C.mark_ends.unary]
    exact plain.ending

theorem expectedExpression_succ (h : Repeated C n) :
    Repeats C C.Anywhere (Same Node.erase) (Reading.expectedExpression (n + 1))
      (Reading.expectedExpression (n + 1)) := by
  rw [Reading.expectedExpression]
  refine .bind h.expression fun o o' ho => ?_
  obtain ⟨rfl, rfl⟩ | ⟨c, d, rfl, rfl, hcd⟩ := same_option ho
  · exact .raise _
  · exact .pure hcd

theorem operand_succ (h : Repeated C n) :
    Repeats C C.Anywhere (Same (Option.map Node.erase)) (Reading.operand (n + 1))
      (Reading.operand (n + 1)) := by
  rw [Reading.operand]
  refine .bind h.primary fun o o' ho => ?_
  obtain ⟨rfl, rfl⟩ | ⟨c, d, rfl, rfl, hcd⟩ := same_option ho
  · exact h.righthand
  · exact .pure ho

theorem unaryExpression_succ (h : Repeated C n) (o : UnaryOperator) :
    Repeats C (C.At t) (Same Node.erase) (Reading.unaryExpression (n + 1) o)
      (Reading.unaryExpression (n + 1) o) := by
  rw [Reading.unaryExpression]
  refine .current_at (.next (.orEmpty h.operand fun c d hcd => ?_))
  exact .bind (.extentFrom _ _) fun e e' _ => .pure (same_unaryNode o hcd)

theorem binaryTail_succ (h : Repeated C n) (bound : Nat) (hab : Same Node.erase a b) :
    Repeats C C.Anywhere (Same Node.erase) (Reading.binaryTail (n + 1) a bound)
      (Reading.binaryTail (n + 1) b bound) := by
  rw [Reading.binaryTail, Reading.binaryTail]
  refine .current (fun t _ _ => ?_) ?_
  · rw [Token.binaryOperator_relocate]
    split
    · exact .here (.pure hab)
    · split
      · exact .here (.pure hab)
      · refine .next (.orEmpty (h.subExpression _) fun c d hcd => ?_)
        refine .bind (.extentFrom _ _) fun e e' _ => h.binaryTail bound ?_
        exact same_binaryNode _ hab hcd
  · rw [C.last_ends.binary, C.mark_ends.binary]
    exact .ending (.pure hab)

theorem primary_succ (h : Repeated C n) :
    Repeats C C.Anywhere (Same (Option.map Node.erase)) (Reading.primary (n + 1))
      (Reading.primary (n + 1)) := by
  rw [primary_eq]
  refine .current (fun t _ hword => ?_) ?_
  · rw [Token.isLiteral_relocate]
    split
    · refine .bind .literal fun c d hcd => .current (fun u _ _ => ?_) ?_
      · rw [Token.kind_relocate, Token.isPunctuator_relocate]
        split
        · exact (h.suffixes hcd).found.here
        · exact .here (.pure (congrArg some hcd))
      · have hdot : Punctuator.dot ≠ .parenClose := by decide
        rw [C.last_ends.isPunctuator hdot, C.mark_ends.isPunctuator hdot, Bool.and_false,
          Bool.and_false]
        exact .ending (.pure (congrArg some hcd))
    · rw [Token.kind_relocate]
      split
      next hk => exact .fraction (by simp [Token.isPunctuator, hk])
      next hk => simp [Token.isKeyword, hk] at hword
      · refine .next (.bind h.mapFields fun fs gs hfs => .bind (.extentFrom _ _) fun e e' _ => ?_)
        exact (h.suffixes (same_mapLiteral hfs)).found
      · refine .next (.bind h.listItems fun cs ds hcs => ?_)
        refine .bind (.expectPunctuator _) fun _ _ _ => .bind (.extentFrom _ _) fun e e' _ => ?_
        exact (h.suffixes (same_listLiteral hcs)).found
      · exact .here (.pure rfl)
  · rw [C.last_ends.isLiteral, C.mark_ends.isLiteral, C.last_kind]
    obtain hk | hk := C.mark_ends <;> rw [hk] <;> exact .ending (.pure rfl)

theorem righthand_succ (h : Repeated C n) :
    Repeats C C.Anywhere (Same (Option.map Node.erase)) (Reading.righthand (n + 1))
      (Reading.righthand (n + 1)) := by
  rw [Reading.righthand]
  refine .current (fun t _ _ => ?_) ?_
  · rw [Token.kind_relocate]
    split
    · exact .here (.bind .identifier fun c d hcd => (h.suffixes hcd).found)
    · refine .next (.bind h.expectedExpression fun c d hcd => ?_)
      exact .bind (.expectPunctuator _) fun _ _ _ => (h.suffixes hcd).found
    · exact .here (.pure rfl)
  · rw [C.last_kind]
    obtain hk | hk := C.mark_ends <;> rw [hk] <;> exact .ending (.pure rfl)

theorem suffixes_succ (h : Repeated C n) (hab : Same Node.erase a b) :
    Repeats C C.Anywhere (Same Node.erase) (Reading.suffixes (n + 1) a)
      (Reading.suffixes (n + 1) b) := by
  rw [Reading.suffixes, Reading.suffixes]
  refine .current (fun t _ _ => ?_) ?_
  · rw [Token.kind_relocate]
    split
    next q hk =>
      split
      · exact .next (.bind (h.compoundAssignment _ hab) fun c d hcd => h.suffixes hcd)
      · split
        · refine .next (.bind h.expectedExpression fun c d hcd => ?_)
          refine .bind (.expectPunctuator _) fun _ _ _ => .bind (.extentFrom _ _) fun e e' _ => ?_
          exact h.suffixes (same_index hab hcd)
        · refine .next (.bind .identifier fun c d hcd => .bind (.extentFrom _ _) fun e e' _ => ?_)
          exact h.suffixes (same_member hab hcd)
        · exact .bind (h.callSuffix hab) fun c d hcd => h.suffixes hcd
        · exact .here (.pure hab)
    · exact .here (.pure hab)
  · rw [C.last_kind]
    obtain hk | hk := C.mark_ends <;> rw [hk] <;> exact .ending (.pure hab)

theorem compoundAssignment_succ (h : Repeated C n) (o : BinaryOperator)
    (hab : Same Node.erase a b) :
    Repeats C C.Anywhere (Same Node.erase) (Reading.compoundAssignment (n + 1) a o)
      (Reading.compoundAssignment (n + 1) b o) := by
  have value : ∀ start start' : Position, Repeats C C.Anywhere (Same Node.erase)
      (do
        let value ← match ← Reading.subExpression n 0 with
          | some e => pure e
          | none => Reading.emptyHere
        let stop := (← Reading.previous).stop
        let result := Node.binary ⟨start, stop⟩ o a value
        return .assignment ⟨a.start, stop⟩ a result)
      (do
        let value ← match ← Reading.subExpression n 0 with
          | some e => pure e
          | none => Reading.emptyHere
        let stop := (← Reading.previous).stop
        let result := Node.binary ⟨start', stop⟩ o b value
        return .assignment ⟨b.start, stop⟩ b result) := by
    intro start start'
    refine .orEmpty (h.subExpression 0) fun c d hcd => .previous (fun _ _ h => h) fun u u' _ => ?_
    exact .pure (same_assignment hab (same_binary o hab hcd))
  rw [Reading.compoundAssignment, Reading.compoundAssignment]
  exact .current (fun t _ _ => (value _ _).here) (value _ _).ending

theorem callRemainder_repeats {cs ds : List Node} (hab : Same Node.erase a b)
    (hcs : Same (List.map Node.erase) cs ds) :
    Repeats C C.Anywhere (Same Node.erase) (callRemainder a cs) (callRemainder b ds) :=
  .bind (.expectPunctuator _) fun _ _ _ =>
    .bind (.extentFrom _ _) fun _ _ _ => .pure (same_call hab hcs)

theorem callSuffix_succ (h : Repeated C n) (hab : Same Node.erase a b) :
    Repeats C (C.At t) (Same Node.erase) (Reading.callSuffix (n + 1) a)
      (Reading.callSuffix (n + 1) b) := by
  rw [callSuffix_eq, callSuffix_eq]
  refine .previous (fun _ _ h => h.anywhere) fun u u' hline => .current_at ?_
  have hsplit : ((t.relocate C.place).line != u'.line) = (t.line != u.line) := by
    rw [hline, Token.line_relocate, bne, bne, C.place.line_injective.beq_eq]
  rw [hsplit]
  split
  · exact (Repeats.raise _).here
  · refine .next (.bind h.expression fun o o' ho => ?_)
    obtain ⟨rfl, rfl⟩ | ⟨c, d, rfl, rfl, hcd⟩ := same_option ho
    · exact callRemainder_repeats hab rfl
    · refine .bind (h.moreArguments.map (W := Same (List.map Node.erase)) ?_)
        fun _ _ hcs => callRemainder_repeats hab hcs
      exact fun cs ds hcs => same_cons hcd hcs

theorem moreArguments_succ (h : Repeated C n) :
    Repeats C C.Anywhere (Same (List.map Node.erase)) (Reading.moreArguments (n + 1))
      (Reading.moreArguments (n + 1)) := by
  rw [Reading.moreArguments]
  refine .bind (.consumePunctuator (by decide)) fun p q hpq => ?_
  subst hpq
  split
  · exact .bind h.expectedExpression fun c d hcd => h.moreArguments.map fun _ _ => same_cons hcd
  · exact .pure rfl

theorem fieldsRemainder_repeats (h : Repeated C n) {fs gs : List Field}
    (hfs : Same (List.map Field.erase) fs gs) :
    Repeats C C.Anywhere (Same (List.map Field.erase)) (fieldsRemainder n fs)
      (fieldsRemainder n gs) := by
  unfold fieldsRemainder
  refine .bind (.consumePunctuator (by decide)) fun p q hpq => ?_
  subst hpq
  split
  · exact .pure hfs
  · have missing : Repeats C C.Anywhere (Same (List.map Field.erase))
        (do
          discard (Reading.raise (.unexpectedValue Punctuator.braceClose.text))
          return fs)
        (do
          discard (Reading.raise (.unexpectedValue Punctuator.braceClose.text))
          return gs) :=
      .bind (Repeats.raise (V := fun _ _ => True) _).discard fun _ _ _ => .pure hfs
    refine .current (fun t _ _ => ?_) ?_
    · rw [Token.isSeparator_relocate]
      split
      · exact .next (h.mapFields.map fun _ _ => same_append hfs)
      · exact missing.here
    · rw [C.last_ends.isSeparator, C.mark_ends.isSeparator]
      exact missing.ending

theorem mapFields_succ (h : Repeated C n) :
    Repeats C C.Anywhere (Same (List.map Field.erase)) (Reading.mapFields (n + 1))
      (Reading.mapFields (n + 1)) := by
  rw [mapFields_eq]
  refine .current (fun t _ _ => ?_) ?_
  · rw [Token.kind_relocate]
    dsimp only
    split
    · refine .next (.bind (.expectPunctuator _) fun _ _ _ => ?_)
      exact .bind h.expectedExpression fun c d hcd => h.fieldsRemainder_repeats (same_field hcd)
    · exact (h.fieldsRemainder_repeats rfl).here
  · have hmark : (C.mark.kind == TokenKind.string) = false := by
      obtain hk | hk := C.mark_ends <;> simp [hk]
    rw [C.last_kind, hmark]
    exact (h.fieldsRemainder_repeats rfl).ending

theorem listItems_succ (h : Repeated C n) :
    Repeats C C.Anywhere (Same (List.map Node.erase)) (Reading.listItems (n + 1))
      (Reading.listItems (n + 1)) := by
  rw [Reading.listItems]
  refine .bind h.expression fun o o' ho => .current (fun t _ _ => ?_) ?_
  · rw [Token.isSeparator_relocate]
    split
    · exact .next (h.listItems.map fun _ _ => same_append (same_toList ho))
    · exact .here (.pure (same_toList ho))
  · rw [C.last_ends.isSeparator, C.mark_ends.isSeparator]
    exact .ending (.pure (same_toList ho))

theorem zero : Repeated C 0 := by
  have none : ∀ {α : Type} {V : α → α → Prop} {x y : Reading α} {P : Reader → Reader → Prop},
      x = exhausted → Repeats C P V x y := by
    intro α V x y P hx r r' a s _ h
    rw [hx] at h
    cases h
  constructor <;> intros <;> exact none rfl

theorem succ (h : Repeated C n) : Repeated C (n + 1) where
  subExpression := h.subExpression_succ
  expression := by
    rw [Reading.expression]
    exact h.subExpression 0
  expectedExpression := h.expectedExpression_succ
  operand := h.operand_succ
  unaryExpression := h.unaryExpression_succ
  binaryTail := h.binaryTail_succ
  primary := h.primary_succ
  righthand := h.righthand_succ
  suffixes := h.suffixes_succ
  compoundAssignment := h.compoundAssignment_succ
  callSuffix := h.callSuffix_succ
  moreArguments := h.moreArguments_succ
  mapFields := h.mapFields_succ
  listItems := h.listItems_succ

end Repeated

/-- The productions of expressions repeat what they read. -/
theorem repeated (C : Copy) (n : Nat) : Repeated C n := by
  induction n with
  | zero => exact .zero
  | succ n ih => exact ih.succ

/-- No operand begins at the end of an expression. -/
theorem operand_of_ends {n : Nat} {r s : Reader} {o : Option Node}
    (hr : r.current.EndsExpression) (h : operand n r = .ok o s) : o = none := by
  obtain _ | _ | n := n
  · cases h
  · cases h
  have hprimary : primary (n + 1) r = .ok none r := by
    rw [primary, current_bind, hr.isLiteral]
    obtain hk | hk := hr <;> rw [hk] <;> rfl
  have hrighthand : righthand (n + 1) r = .ok none r := by
    rw [righthand, current_bind]
    obtain hk | hk := hr <;> rw [hk] <;> rfl
  rw [operand, bind_apply, hprimary] at h
  simp only [hrighthand] at h
  cases h
  rfl

/-- No expression begins at the end of an expression. -/
theorem expression_of_ends {n : Nat} {r s : Reader} {o : Option Node}
    (hr : r.current.EndsExpression) (h : expression n r = .ok o s) : o = none := by
  obtain _ | _ | n := n
  · cases h
  · cases h
  rw [expression, subExpression, current_bind, hr.unary] at h
  obtain ⟨o', t, ho', h⟩ := bind_eq_ok.1 h
  obtain rfl := operand_of_ends hr ho'
  cases h
  rfl

/-- An expression that is accepted up to the end of a source is accepted up to the mark at the
other place, with the same tree but for positions. -/
theorem expression_repeated {n : Nat} {front : List Token} {r r' s : Reader} {e : Node}
    (h : C.Beside front r r') (hread : expression n r = .ok (some e) s)
    (hs : s.current.isEndOfFile = true) :
    ∃ e' s', Gives expression r' (some e') s' ∧ e'.erase = e.erase ∧
      s'.Ahead (C.mark :: C.more) := by
  obtain ⟨o, s', hread', ho, behind, hbehind⟩ := (repeated C n).expression ⟨front, h⟩ hread
  obtain ⟨he, -⟩ | ⟨_, e', he, rfl, hsame⟩ := same_option ho
  · cases he
  cases he
  cases behind with
  | nil => exact ⟨e', s', .expression hread', hsame, hbehind.second⟩
  | cons t behind =>
    have ht := (hbehind.plain t (by simp)).1
    rw [hbehind.first.current, ht] at hs
    cases hs

end Reading

end LineScript
