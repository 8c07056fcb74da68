import LineScript.Proofs.Grammar.OneLine
import LineScript.Proofs.Token.FirstLine

/-!
# Reading on after an error, within a line

A lenient reading passes over what it cannot read up to the end of a statement, in whichever of the
nested readings the error is met, and all readings around it go on there. On a line without reserved
words, lists and maps none of them moves over the line break: what is read of the line begins on it,
every error is on it, and the statements behind it are read from their first token on.
-/

namespace LineScript

/-- A reserved word. -/
def Token.isReserved (t : Token) : Bool :=
  match t.kind with
  | .keyword _ => true
  | _ => false

theorem Token.kind_of_not_isReserved {t : Token} (h : t.isReserved = false) (k : Keyword) :
    t.kind ≠ .keyword k := by
  intro hk
  simp [isReserved, hk] at h

/-- A line that is read leniently, and what is behind it. -/
structure BrokenLine where
  number : Nat
  /-- The line break. -/
  stop : Token
  first : Token
  behind : List Token
  stop_eol : stop.isEndOfLine = true
  stop_line : stop.line = number

namespace BrokenLine

variable {L : BrokenLine}

/-- A token of the line that is no reserved word and opens no list and no map. -/
structure Plain (L : BrokenLine) (t : Token) : Prop extends t.Stands L.number where
  keyword : ∀ k, t.kind ≠ .keyword k

/-- A lenient reading stands on the line, and what it recorded is on the line. -/
structure Inside (L : BrokenLine) (r : Reader) : Prop where
  lenient : r.lenient = true
  unstopped : r.stop = none
  errors : ∀ e ∈ r.errors, e.line = L.number
  ahead : ∃ us, r.current :: r.rest = us ++ L.stop :: L.first :: L.behind ∧ ∀ u ∈ us, L.Plain u

/-- A lenient reading stands behind the line, and what it recorded is on the line. -/
structure Behind (L : BrokenLine) (r : Reader) : Prop where
  lenient : r.lenient = true
  unstopped : r.stop = none
  errors : ∀ e ∈ r.errors, e.line = L.number
  current : r.current = L.first
  rest : r.rest = L.behind

theorem stop_kind (L : BrokenLine) : L.stop.kind = .endOfLine := by
  simpa [Token.isEndOfLine] using L.stop_eol

theorem stop_plain (L : BrokenLine) : L.Plain L.stop where
  line := L.stop_line
  list := by simp [L.stop_kind]
  map := by simp [L.stop_kind]
  source := by simp [L.stop_kind]
  keyword := by simp [L.stop_kind]

theorem Inside.current {r : Reader} (h : L.Inside r) : L.Plain r.current := by
  obtain ⟨us, hus, hall⟩ := h.ahead
  cases us with
  | nil =>
    obtain ⟨hc, _⟩ := List.cons.inj hus
    exact hc ▸ L.stop_plain
  | cons u us =>
    obtain ⟨rfl, _⟩ := List.cons.inj hus
    exact hall _ List.mem_cons_self

/-- A step leads along the line, or over the line break if the reading stands in front of it. -/
theorem Inside.step_cases {r s : Reader} (h : L.Inside r) (hs : r.step = .ok s) :
    L.Inside s ∨ r.current.isEndOfLine = true ∧ L.Behind s := by
  obtain ⟨us, hus, hall⟩ := h.ahead
  cases us with
  | nil =>
    obtain ⟨hc, hrest⟩ := List.cons.inj hus
    rw [Reader.step, hrest] at hs
    cases hs
    exact .inr ⟨by rw [hc, L.stop_eol], h.lenient, h.unstopped, h.errors, rfl, rfl⟩
  | cons u us =>
    obtain ⟨_, hrest⟩ := List.cons.inj hus
    obtain ⟨t, rest, hr, rfl⟩ | ⟨hr, _, _⟩ := Reader.step_ok hs
    · refine .inl ⟨h.lenient, h.unstopped, h.errors, us, ?_,
        fun v hv => hall v (List.mem_cons_of_mem u hv)⟩
      rw [← List.append_eq, ← hrest, hr]
    · rw [hr] at hrest
      simp at hrest

theorem Inside.step {r s : Reader} (h : L.Inside r) (hc : r.current.isEndOfLine = false)
    (hs : r.step = .ok s) : L.Inside s := by
  obtain hs | ⟨heol, _⟩ := h.step_cases hs
  · exact hs
  · rw [hc] at heol
    cases heol

theorem Inside.note {r : Reader} (h : L.Inside r) (name : String) : L.Inside (r.note name) := by
  obtain ⟨h₁, h₂, h₃, h₄⟩ := h
  unfold Reader.note
  split <;> exact ⟨h₁, h₂, h₃, h₄⟩

/-- What is passed over ends at the line break at the latest. -/
theorem lineEnd_ahead {us : List Token} {current : Token} {rest : List Token} (previous : Token)
    (h : current :: rest = us ++ L.stop :: L.first :: L.behind) :
    ∃ vs, vs <:+ us ∧ (Reader.lineEnd current previous rest).1 ::
      (Reader.lineEnd current previous rest).2.2 = vs ++ L.stop :: L.first :: L.behind := by
  induction us generalizing current previous rest with
  | nil =>
    obtain ⟨rfl, rfl⟩ := List.cons.inj h
    refine ⟨[], List.suffix_rfl, ?_⟩
    rw [Reader.lineEnd, if_pos (by simp [Token.isTerminator, L.stop_eol])]
    rfl
  | cons u us ih =>
    obtain ⟨rfl, hrest⟩ := List.cons.inj h
    cases rest with
    | nil => simp at hrest
    | cons t rest =>
      rw [Reader.lineEnd]
      split
      · exact ⟨current :: us, List.suffix_rfl, by rw [hrest]; rfl⟩
      · obtain ⟨vs, hvs, heq⟩ := ih current hrest
        exact ⟨vs, hvs.trans (List.suffix_cons _ _), heq⟩

/-- An error is recorded on the line, and the reading goes on within the line. -/
theorem Inside.raise {r : Reader} (h : L.Inside r) (f : ParseFault) :
    L.Inside { r.skipLine with errors := r.errors ++ [.ofToken f r.current] } := by
  obtain ⟨us, hus, hall⟩ := h.ahead
  obtain ⟨vs, hvs, hahead⟩ := lineEnd_ahead r.previous hus
  refine ⟨h.lenient, h.unstopped, ?_, vs, hahead, fun v hv => hall v (hvs.subset hv)⟩
  intro e he
  obtain he | he := List.mem_append.1 he
  · exact h.errors e he
  · obtain rfl := List.mem_singleton.1 he
    exact h.current.line

/-- A node and all nodes in it begin on the line. -/
def Holds (L : BrokenLine) (n : Node) : Prop := n.Everywhere fun m => m.line = L.number

/-- What is read in one place, if anything is, begins on the line. -/
def Holds? (L : BrokenLine) (o : Option Node) : Prop := ∀ a ∈ o, L.Holds a

theorem Holds.some {n : Node} (h : L.Holds n) : L.Holds? (some n) := by
  intro a ha
  obtain rfl : n = a := by simpa using ha
  exact h

theorem holds_none : L.Holds? none := by simp [Holds?]

theorem Holds.line {n : Node} (h : L.Holds n) : n.line = L.number := by
  cases h
  assumption

theorem Holds.of {n : Node} (hline : n.line = L.number) (hs : n.statements = [])
    (ho : ∀ c ∈ n.operands, L.Holds c) : L.Holds n :=
  .mk hline ho (by simp [hs])

theorem Holds.leaf {n : Node} (hline : n.line = L.number) (ho : n.operands = [])
    (hs : n.statements = []) : L.Holds n :=
  .of hline hs (by simp [ho])

end BrokenLine

namespace Reading

variable {α β : Type} {L : BrokenLine} {P : Token → Prop} {V : α → Prop} {W : β → Prop}

/-- At a token for which `P` holds, a lenient reading stays on the line, and `V` holds of what it
gives. -/
def Keeps (L : BrokenLine) (P : Token → Prop) (V : α → Prop) (x : Reading α) : Prop :=
  ∀ ⦃r s a⦄, L.Inside r → P r.current → x r = .ok a s → L.Inside s ∧ V a

namespace Keeps

variable {x : Reading α} {k : α → Reading β}

theorem weaken {Q : Token → Prop} (h : Keeps L Q V x) (hPQ : ∀ t, P t → Q t) : Keeps L P V x :=
  fun _ _ _ hr hP hx => h hr (hPQ _ hP) hx

theorem any {t : Token} (h : Keeps L anyToken V x) : Keeps L (· = t) V x :=
  h.weaken fun _ _ => trivial

theorem pure {a : α} (ha : V a) : Keeps L P V (pure a) := by
  intro r s b hr _ h
  cases h
  exact ⟨hr, ha⟩

theorem bind (hx : Keeps L P V x) (hk : ∀ a, V a → Keeps L anyToken W (k a)) :
    Keeps L P W (x >>= k) := by
  intro r s b hr hP h
  obtain ⟨a, t, hxt, hks⟩ := bind_eq_ok.1 h
  obtain ⟨ht, ha⟩ := hx hr hP hxt
  exact hk a ha ht trivial hks

theorem map {f : α → β} (hx : Keeps L P V x) (hf : ∀ a, V a → W (f a)) : Keeps L P W (f <$> x) := by
  rw [map_eq_pure_bind]
  exact .bind hx fun a ha => .pure (hf a ha)

theorem current {k : Token → Reading β} (hk : ∀ t, P t → L.Plain t → Keeps L (· = t) W (k t)) :
    Keeps L P W (Reading.current >>= k) :=
  fun r _ _ hr hP h => hk r.current hP hr.current hr rfl h

theorem previous {k : Token → Reading β} (hk : ∀ t, Keeps L P W (k t)) :
    Keeps L P W (Reading.previous >>= k) :=
  fun r _ _ hr hP h => hk r.previous hr hP h

theorem extentFrom {start : Position} {k : Extent → Reading β} (hstart : start.line = L.number)
    (hk : ∀ e : Extent, e.start.line = L.number → Keeps L P W (k e)) :
    Keeps L P W (Reading.extentFrom start >>= k) := by
  unfold Reading.extentFrom
  rw [bind_assoc]
  refine .previous fun t => ?_
  rw [pure_bind]
  exact hk _ hstart

theorem note {name : String} {k : Reading β} (hk : Keeps L P W k) :
    Keeps L P W (Reading.note name >>= fun _ => k) :=
  fun _ _ _ hr hP h => hk (hr.note name) (by rwa [Reader.current_note]) h

theorem raise (f : ParseFault) : Keeps L P L.Holds (raise f) := by
  intro r s a hr _ h
  rw [raise_lenient hr.lenient] at h
  cases h
  exact ⟨hr.raise f, .leaf hr.current.line rfl rfl⟩

theorem next {t : Token} {k : Reading β} (ht : t.isEndOfLine = false) (hk : Keeps L anyToken W k) :
    Keeps L (· = t) W (Reading.advance >>= fun _ => k) := by
  intro r s a hr hP h
  obtain ⟨_, u, hu, hku⟩ := bind_eq_ok.1 h
  exact hk (hr.step (hP ▸ ht) (advance_ok hu)) trivial hku

theorem discard (hx : Keeps L P V x) : Keeps L P (fun _ => True) (discard x) := by
  rw [discard_eq]
  exact .bind hx fun _ _ => .pure trivial

theorem exhausted : Keeps L P V (exhausted : Reading α) := by
  intro r s a _ _ h
  cases h

theorem consumePunctuator (q : Punctuator) :
    Keeps L anyToken (fun _ => True) (consumePunctuator q) := by
  unfold Reading.consumePunctuator
  refine .current fun t _ _ => ?_
  split
  next ht =>
    have hk : t.kind = .punctuator q := by simpa [Token.isPunctuator] using ht
    exact .next (Fits.not_eol_of_kind hk (by simp)) (.pure trivial)
  · exact .pure trivial

theorem expectPunctuator (q : Punctuator) :
    Keeps L anyToken (fun _ => True) (expectPunctuator q) := by
  unfold Reading.expectPunctuator
  refine .bind (.consumePunctuator q) fun b _ => ?_
  split
  · exact (Keeps.raise _).discard
  · exact .pure trivial

theorem identifier : Keeps L anyToken L.Holds identifier := by
  unfold Reading.identifier
  refine .current fun t _ ht => ?_
  split
  next hname =>
    have hk : t.kind = .identifier := by simpa [Token.isIdentifier] using hname
    exact .note (.next (Fits.not_eol_of_kind hk (by simp)) (.pure (.leaf ht.line rfl rfl)))
  · exact .raise _

theorem literal {t : Token} (ht : t.isEndOfLine = false) : Keeps L (· = t) L.Holds literal := by
  unfold Reading.literal
  refine .current fun u hu hplain => ?_
  subst hu
  exact .next ht (.pure (.leaf hplain.line rfl rfl))

theorem emptyHere : Keeps L P L.Holds emptyHere :=
  .current fun _ _ ht => .pure (.leaf ht.line rfl rfl)

/-- A missing operand is replaced by an empty one. -/
theorem orEmpty {x : Reading (Option Node)} {k : Node → Reading β}
    (hx : Keeps L P L.Holds? x)
    (hk : ∀ a, L.Holds a → Keeps L anyToken W (k a)) :
    Keeps L P W (do
      match ← x with
      | some e => do
        let a ← Pure.pure e
        k a
      | none => do
        let a ← Reading.emptyHere
        k a) := by
  refine .bind hx fun o ho => ?_
  cases o with
  | none => exact .bind .emptyHere hk
  | some e =>
    dsimp only
    rw [pure_bind]
    exact hk e (ho e rfl)

theorem some {x : Reading Node} (hx : Keeps L P L.Holds x) :
    Keeps L P L.Holds? (Option.some <$> x) :=
  .map hx fun _ ha => ha.some

/-- A point with a number behind it. -/
theorem fraction {t : Token} (hk : t.kind = .punctuator .dot) :
    Keeps L (· = t) L.Holds? (do
      if ← numberBehindPoint then Option.some <$> detachedFraction else return none) := by
  intro r s a hr ht h
  have hc : r.current.isEndOfLine = false := Fits.not_eol_of_kind (ht ▸ hk) (by simp)
  obtain ⟨b, r₁, hb, h₁⟩ := bind_eq_ok.1 h
  obtain rfl := numberBehindPoint_ok hb
  cases b with
  | false =>
    cases h₁
    exact ⟨hr, BrokenLine.holds_none⟩
  | true =>
    simp only [if_true, map_eq_pure_bind] at h₁
    obtain ⟨e, r₂, he, h₂⟩ := bind_eq_ok.1 h₁
    cases h₂
    obtain ⟨r₃, hpoint, hnumber, hs, hstart, ho, hstatements⟩ := detachedFraction_ok hc hb he
    have hline : e.line = L.number := (congrArg Position.line hstart).trans hr.current.line
    exact ⟨(hr.step hc hpoint).step hnumber hs, (BrokenLine.Holds.leaf hline ho hstatements).some⟩

end Keeps

/-- Expressions under a bound are read within the line. -/
structure Contained (L : BrokenLine) (n : Nat) : Prop where
  subExpression : ∀ bound, Keeps L anyToken L.Holds? (subExpression n bound)
  expression : Keeps L anyToken L.Holds? (expression n)
  expectedExpression : Keeps L anyToken L.Holds (expectedExpression n)
  operand : Keeps L anyToken L.Holds? (operand n)
  unaryExpression : ∀ {t} o, t.isEndOfLine = false → Keeps L (· = t) L.Holds (unaryExpression n o)
  binaryTail : ∀ {a} bound, L.Holds a → Keeps L anyToken L.Holds (binaryTail n a bound)
  primary : Keeps L anyToken L.Holds? (primary n)
  righthand : Keeps L anyToken L.Holds? (righthand n)
  suffixes : ∀ {a}, L.Holds a → Keeps L anyToken L.Holds (suffixes n a)
  compoundAssignment : ∀ {a} o, L.Holds a → Keeps L anyToken L.Holds (compoundAssignment n a o)
  callSuffix : ∀ {t a}, t.isEndOfLine = false → L.Holds a → Keeps L (· = t) L.Holds (callSuffix n a)
  moreArguments : Keeps L anyToken (fun as => ∀ a ∈ as, L.Holds a) (moreArguments n)

namespace Contained

open BrokenLine (Holds holds_none)
open Fits (not_eol_of_kind not_eol_of_unary not_eol_of_binary not_eol_of_literal)

variable {n : Nat}

theorem subExpression_succ (h : Contained L n) (bound : Nat) :
    Keeps L anyToken L.Holds? (Reading.subExpression (n + 1) bound) := by
  rw [Reading.subExpression]
  refine .current fun t _ _ => ?_
  split
  next o ho =>
    exact .bind (h.unaryExpression o (not_eol_of_unary ho)) fun e he => (h.binaryTail bound he).some
  · refine .bind h.operand.any fun o ho => ?_
    cases o with
    | none => exact .pure holds_none
    | some e => exact (h.binaryTail bound (ho e rfl)).some

theorem expectedExpression_succ (h : Contained L n) :
    Keeps L anyToken L.Holds (Reading.expectedExpression (n + 1)) := by
  rw [Reading.expectedExpression]
  refine .bind h.expression fun o ho => ?_
  cases o with
  | none => exact .raise _
  | some e => exact .pure (ho e rfl)

theorem operand_succ (h : Contained L n) : Keeps L anyToken L.Holds? (Reading.operand (n + 1)) := by
  rw [Reading.operand]
  refine .bind h.primary fun o ho => ?_
  cases o with
  | none => exact h.righthand
  | some e => exact .pure ho

theorem unaryNode_holds {e : Extent} {a : Node} (o : UnaryOperator) (he : e.start.line = L.number)
    (ha : L.Holds a) : L.Holds (unaryNode e o a) := by
  cases o <;> exact .of he rfl (by simpa [unaryNode, Node.operands] using ha)

theorem binaryNode_holds {e : Extent} {a b : Node} (o : BinaryOperator)
    (he : e.start.line = L.number) (ha : L.Holds a) (hb : L.Holds b) :
    L.Holds (binaryNode e o a b) := by
  unfold binaryNode
  split <;> exact .of he rfl (by simpa [Node.operands] using ⟨ha, hb⟩)

theorem unaryExpression_succ (h : Contained L n) {t : Token} (o : UnaryOperator)
    (ht : t.isEndOfLine = false) : Keeps L (· = t) L.Holds (Reading.unaryExpression (n + 1) o) := by
  rw [Reading.unaryExpression]
  refine .current fun u hu hplain => ?_
  subst hu
  refine .next ht (.orEmpty h.operand fun a ha => .extentFrom hplain.line fun e he => .pure ?_)
  exact unaryNode_holds o he ha

theorem binaryTail_succ (h : Contained L n) {a : Node} (bound : Nat) (ha : L.Holds a) :
    Keeps L anyToken L.Holds (Reading.binaryTail (n + 1) a bound) := by
  rw [Reading.binaryTail]
  refine .current fun t _ _ => ?_
  split
  · exact .pure ha
  next o ho =>
    split
    · exact .pure ha
    · refine .next (not_eol_of_binary ho) (.orEmpty (h.subExpression _) fun c hc => ?_)
      exact .extentFrom ha.line fun e he => h.binaryTail _ (binaryNode_holds o he ha hc)

theorem primary_succ (h : Contained L n) : Keeps L anyToken L.Holds? (Reading.primary (n + 1)) := by
  rw [primary_eq]
  refine .current fun t _ hplain => ?_
  split
  next ht =>
    refine .bind (.literal (not_eol_of_literal ht)) fun e he => .current fun u _ _ => ?_
    split
    · exact (h.suffixes he).any.some
    · exact .pure he.some
  · split
    next hk => exact .fraction hk
    next hk => exact absurd hk (hplain.keyword _)
    next hk => exact absurd hk hplain.map
    next hk => exact absurd hk hplain.list
    · exact .pure holds_none

theorem righthand_succ (h : Contained L n) :
    Keeps L anyToken L.Holds? (Reading.righthand (n + 1)) := by
  rw [Reading.righthand]
  refine .current fun t _ _ => ?_
  split
  · exact .any (.bind .identifier fun e he => (h.suffixes he).some)
  next hk =>
    refine .next (not_eol_of_kind hk (by simp)) (.bind h.expectedExpression fun e he => ?_)
    exact .bind (.expectPunctuator _) fun _ _ => (h.suffixes he).some
  · exact .pure holds_none

theorem suffixes_succ (h : Contained L n) {a : Node} (ha : L.Holds a) :
    Keeps L anyToken L.Holds (Reading.suffixes (n + 1) a) := by
  rw [Reading.suffixes]
  refine .current fun t _ hplain => ?_
  split
  next q hk =>
    have ht := not_eol_of_kind hk (by simp)
    split
    · exact .next ht (.bind (h.compoundAssignment _ ha) fun e he => h.suffixes he)
    · split
      · exact absurd hk hplain.list
      · refine .next ht (.bind .identifier fun name hname => .extentFrom ha.line fun e he => ?_)
        exact h.suffixes (.of he rfl (by simpa [Node.operands] using ⟨ha, hname⟩))
      · exact .bind (h.callSuffix ht ha) fun e he => h.suffixes he
      · exact .pure ha
  · exact .pure ha

theorem compoundAssignment_succ (h : Contained L n) {a : Node} (o : BinaryOperator)
    (ha : L.Holds a) : Keeps L anyToken L.Holds (Reading.compoundAssignment (n + 1) a o) := by
  rw [Reading.compoundAssignment]
  refine .current fun t _ hplain => .any (.orEmpty (h.subExpression 0) fun c hc => ?_)
  refine .previous fun u => .pure ?_
  have hresult : L.Holds (.binary ⟨t.start, u.stop⟩ o a c) :=
    .of hplain.line rfl (by simpa [Node.operands] using ⟨ha, hc⟩)
  exact .of ha.line rfl (by simpa [Node.operands] using ⟨ha, hresult⟩)

theorem callRemainder_keeps {a : Node} {cs : List Node} (ha : L.Holds a)
    (hcs : ∀ c ∈ cs, L.Holds c) : Keeps L anyToken L.Holds (callRemainder a cs) :=
  .bind (.expectPunctuator _) fun _ _ => .extentFrom ha.line fun e he =>
    .pure (.of he rfl (by simpa [Node.operands] using ⟨ha, hcs⟩))

theorem callSuffix_succ (h : Contained L n) {t : Token} {a : Node} (ht : t.isEndOfLine = false)
    (ha : L.Holds a) : Keeps L (· = t) L.Holds (Reading.callSuffix (n + 1) a) := by
  rw [callSuffix_eq]
  refine .previous fun u => .current fun v hv _ => ?_
  subst hv
  split
  · exact .raise _
  · refine .next ht (.bind h.expression fun o ho => ?_)
    cases o with
    | none => exact callRemainder_keeps ha (by simp)
    | some e =>
      exact .bind (.map h.moreArguments fun cs hcs => List.forall_mem_cons.2 ⟨ho e rfl, hcs⟩)
        fun _ hcs => callRemainder_keeps ha hcs

theorem moreArguments_succ (h : Contained L n) :
    Keeps L anyToken (fun as => ∀ a ∈ as, L.Holds a) (Reading.moreArguments (n + 1)) := by
  rw [Reading.moreArguments]
  refine .bind (.consumePunctuator _) fun b _ => ?_
  split
  · exact .bind h.expectedExpression fun e he =>
      .map h.moreArguments fun cs hcs => List.forall_mem_cons.2 ⟨he, hcs⟩
  · exact .pure (by simp)

theorem zero : Contained L 0 := by
  constructor
  all_goals
    intros
    exact .exhausted

theorem succ (h : Contained L n) : Contained L (n + 1) where
  subExpression := h.subExpression_succ
  expression := by
    rw [Reading.expression]
    exact h.subExpression 0
  expectedExpression := h.expectedExpression_succ
  operand := h.operand_succ
  unaryExpression o ht := h.unaryExpression_succ o ht
  binaryTail bound ha := h.binaryTail_succ bound ha
  primary := h.primary_succ
  righthand := h.righthand_succ
  suffixes ha := h.suffixes_succ ha
  compoundAssignment o ha := h.compoundAssignment_succ o ha
  callSuffix ht ha := h.callSuffix_succ ht ha
  moreArguments := h.moreArguments_succ

end Contained

/-- Expressions are read within the line. -/
theorem contained (L : BrokenLine) (n : Nat) : Contained L n := by
  induction n with
  | zero => exact .zero
  | succ n ih => exact ih.succ

theorem targetRemainder_keeps (n : Nat) {t : Token} {e : Node} (suffixed : Bool)
    (ht : t.line = L.number) (he : L.Holds e) :
    Keeps L anyToken L.Holds (targetRemainder n t suffixed e) := by
  unfold targetRemainder
  refine .current fun u _ _ => ?_
  split
  · split
    · exact .any (.pure he)
    · refine .any (.extentFrom ht fun x hx => .pure ?_)
      exact .of hx rfl (by simpa [Node.operands] using he)
  · refine .any (.bind (.expectPunctuator _) fun _ _ => ?_)
    exact .bind (contained L n).expectedExpression fun v hv => .extentFrom ht fun x hx =>
      .pure (.of hx rfl (by simpa [Node.operands] using ⟨he, hv⟩))

theorem statementTail_keeps (n : Nat) {t : Token} {a : Node} (ht : t.line = L.number)
    (ha : L.Holds a) : Keeps L anyToken L.Holds (statementTail n t a) := by
  cases n with
  | zero => exact .exhausted
  | succ n =>
    rw [statementTail_eq]
    refine .current fun u _ _ => ?_
    split
    · exact ((contained L n).binaryTail 0 ha).any
    · refine .any (.current fun v _ _ => ?_)
      dsimp only
      split
      · exact .any (.bind ((contained L n).suffixes ha) fun e he =>
          targetRemainder_keeps n _ ht he)
      · exact (targetRemainder_keeps n _ ht ha).any

theorem assignmentOrCall_keeps (n : Nat) : Keeps L anyToken L.Holds (assignmentOrCall n) := by
  cases n with
  | zero => exact .exhausted
  | succ n =>
    rw [assignmentOrCall]
    refine .current fun t _ hplain => ?_
    have tail : ∀ a, L.Holds a → Keeps L anyToken L.Holds (statementTail n t a) := fun a ha =>
      statementTail_keeps n hplain.line ha
    split
    · exact .any (.bind .identifier tail)
    next hk =>
      refine .next (Fits.not_eol_of_kind hk (by simp))
        (.bind (contained L n).expectedExpression fun e he => ?_)
      exact .bind (.expectPunctuator _) fun _ _ => tail e he
    next hk => exact absurd hk hplain.list
    next hk => exact absurd hk hplain.map
    · split
      · exact .any (.bind (contained L n).expectedExpression tail)
      · exact .raise _

/-- A statement on the line is read within the line. -/
theorem statement_keeps (n : Nat) (inLine : Bool) :
    Keeps L (·.isEndOfLine = false) L.Holds? (statement n inLine) := by
  cases n with
  | zero => exact .exhausted
  | succ n =>
    rw [statement]
    refine .current fun t ht hplain => ?_
    split
    next hk => simp [Token.isEndOfLine, hk] at ht
    all_goals first
      | exact (assignmentOrCall_keeps n).any.some
      | next hk => exact absurd hk (hplain.keyword _)

/-- Moving over the end of a line leads along the line or behind it. -/
theorem consumeLineEnd_inside {r s : Reader} {u : Unit} (hr : L.Inside r)
    (h : consumeLineEnd r = .ok u s) : L.Inside s ∨ L.Behind s := by
  cases heol : r.current.isEndOfLine with
  | true => exact (hr.step_cases (consumeLineEnd_ok heol h)).imp_right And.right
  | false =>
    rw [consumeLineEnd_of_not heol] at h
    cases h
    exact .inl hr

/-- The statements of a line are read within it, and those behind it from behind the line break
on. -/
theorem block_inside {n : Nat} {r s : Reader} {body : List Node} (hr : L.Inside r)
    (h : block n r = .ok body s) :
    ∃ N more m r', body = N ++ more ∧ (∀ a ∈ N, L.Holds a) ∧ L.Behind r' ∧
      block m r' = .ok more s := by
  induction n generalizing r body with
  | zero => cases h
  | succ n ih =>
    have onward : ∀ {r₁ more}, L.Inside r₁ ∨ L.Behind r₁ → block n r₁ = .ok more s →
        ∃ N more' m r', more = N ++ more' ∧ (∀ a ∈ N, L.Holds a) ∧ L.Behind r' ∧
          block m r' = .ok more' s := by
      intro r₁ more hr₁ h₁
      obtain hr₁ | hr₁ := hr₁
      · exact ih hr₁ h₁
      · exact ⟨[], more, n, r₁, rfl, by simp, hr₁, h₁⟩
    cases heol : r.current.isEndOfLine with
    | true =>
      obtain ⟨r₁, hstep⟩ := block_emptyLine_step heol h
      obtain hr₁ | ⟨_, hr₁⟩ := hr.step_cases hstep
      · obtain _ | n := n
        · rw [block, current_bind, not_endsBlock_of_isEndOfLine heol] at h
          cases h
        · rw [block_emptyLine_succ n heol hstep] at h
          obtain ⟨_, r₂, hline, h₂⟩ := bind_eq_ok.1 h
          exact onward (consumeLineEnd_inside hr₁ hline) h₂
      · obtain ⟨m, hm⟩ := (block_emptyLine heol hstep).1 ⟨n + 1, h⟩
        exact ⟨[], body, m, r₁, rfl, by simp, hr₁, hm⟩
    | false =>
      have hblock : r.current.endsBlock = false := by
        unfold Token.endsBlock
        split
        next hk => exact absurd hk hr.current.source
        next hk => exact absurd hk (hr.current.keyword _)
        · rfl
      rw [block, current_bind, hblock] at h
      simp only [Bool.false_eq_true, if_false] at h
      obtain ⟨o, r₁, ho, h₁⟩ := bind_eq_ok.1 h
      obtain ⟨_, r₂, hline, h₂⟩ := bind_eq_ok.1 h₁
      rw [map_eq_pure_bind] at h₂
      obtain ⟨more, r₃, hmore, h₃⟩ := bind_eq_ok.1 h₂
      cases h₃
      obtain ⟨hr₁, hholds⟩ := statement_keeps n false hr heol ho
      obtain ⟨N, more', m, r', rfl, hN, hr', hm⟩ := onward (consumeLineEnd_inside hr₁ hline) hmore
      refine ⟨o.toList ++ N, more', m, r', by simp, ?_, hr', hm⟩
      intro a ha
      obtain ha | ha := List.mem_append.1 ha
      · exact hholds a (Option.mem_toList.1 ha)
      · exact hN a ha

end Reading

end LineScript
