import LineScript.Proofs.Grammar.Enclosed
import Mathlib

/-!
# Climbing precedences

Operands with operators between them can be grouped in many ways, of which only one gives every
operator operands that bind as tightly as it asks for. A call reads operators that bind tighter than
a bound, and leaves the first that does not to the call around it. Main statement: the tree that is
read is the one that respects the precedences.
-/

namespace LineScript

namespace BinaryOperator

variable {o p q : BinaryOperator}

/-- The left operand of an operator may be made by another one without parentheses. -/
def AllowsLeft (o p : BinaryOperator) : Prop :=
  if o = .bitXor then o.precedence < p.precedence else o.precedence ≤ p.precedence

/-- The right operand of an operator may be made by another one without parentheses. -/
def AllowsRight (o p : BinaryOperator) : Prop :=
  if o = .bitXor then o.precedence ≤ p.precedence else o.precedence < p.precedence

theorem precedence_pos (o : BinaryOperator) : 0 < o.precedence := by
  cases o <;> decide

theorem rightBound_le (o : BinaryOperator) : o.rightBound ≤ o.precedence := by
  unfold rightBound
  split <;> omega

theorem AllowsLeft.le (h : o.AllowsLeft p) : o.precedence ≤ p.precedence := by
  unfold AllowsLeft at h
  split at h <;> omega

theorem AllowsRight.le (h : o.AllowsRight p) : o.precedence ≤ p.precedence := by
  unfold AllowsRight at h
  split at h <;> omega

theorem AllowsLeft.mono (h : o.AllowsLeft p) (hpq : p.precedence ≤ q.precedence) :
    o.AllowsLeft q := by
  unfold AllowsLeft at h ⊢
  split at h <;> simp_all <;> omega

theorem AllowsRight.mono (h : o.AllowsRight p) (hpq : p.precedence ≤ q.precedence) :
    o.AllowsRight q := by
  unfold AllowsRight at h ⊢
  split at h <;> simp_all <;> omega

/-- Only `^` binds as tightly as `^`. -/
theorem eq_bitXor (h : bitXor.precedence ≤ o.precedence) : o = bitXor := by
  cases o <;> first | rfl | exact absurd h (by decide)

/-- The right operand takes the operators above the bound. -/
theorem allowsRight_of_rightBound (h : o.rightBound < p.precedence) : o.AllowsRight p := by
  have hpos := o.precedence_pos
  unfold AllowsRight
  split
  next ho =>
    subst ho
    have : bitXor.rightBound = bitXor.precedence - 1 := rfl
    omega
  next ho =>
    have : o.rightBound = o.precedence := by
      cases o <;> first | rfl | exact absurd rfl ho
    omega

/-- An operator that is left over by the right operand of another one takes the whole as its left
operand. -/
theorem allowsLeft_of_rightBound (h : p.precedence ≤ o.rightBound) : p.AllowsLeft o := by
  unfold AllowsLeft
  split
  next hp =>
    subst hp
    obtain rfl := eq_bitXor (Nat.le_trans h o.rightBound_le)
    exact absurd h (by decide)
  · exact Nat.le_trans h o.rightBound_le

/-- No operator stands in the right operand of another one that stands in its left operand. -/
theorem not_allowsLeft_of_allowsRight (h : o.AllowsRight p) : ¬ p.AllowsLeft o := by
  intro h'
  by_cases ho : o = bitXor
  · subst ho
    obtain rfl := eq_bitXor h.le
    exact absurd h' (Nat.lt_irrefl _)
  · have hle := h'.le
    unfold AllowsRight at h
    rw [if_neg ho] at h
    omega

end BinaryOperator

/-- Operators between operands, and what each of them is applied to. -/
inductive Grouping (α : Type) where
  | operand (a : α)
  | apply (o : BinaryOperator) (left right : Grouping α)

namespace Grouping

variable {α : Type} {g h : Grouping α} {o p : BinaryOperator}

/-- The operands and operators from left to right. -/
def yield : Grouping α → List (α ⊕ BinaryOperator)
  | operand a => [.inl a]
  | apply o left right => left.yield ++ .inr o :: right.yield

/-- The operator that is applied last. -/
def operator? : Grouping α → Option BinaryOperator
  | operand _ => none
  | apply o _ _ => some o

/-- Every operator is applied to what it allows. -/
def Grouped : Grouping α → Prop
  | operand _ => True
  | apply o left right =>
    (∀ p ∈ left.operator?, o.AllowsLeft p) ∧ (∀ p ∈ right.operator?, o.AllowsRight p) ∧
      left.Grouped ∧ right.Grouped

/-- All operators in a grouping bind at least as tightly as the one that is applied last. -/
theorem Grouped.le_of_mem (hg : g.Grouped) (ho : g.operator? = some o) (hp : .inr p ∈ g.yield) :
    o.precedence ≤ p.precedence := by
  induction g generalizing o with
  | operand a => cases ho
  | apply q left right ihLeft ihRight =>
    obtain ⟨hleft, hright, hgl, hgr⟩ := hg
    cases ho
    rcases List.mem_append.1 hp with hp | hp
    · cases hl : left.operator? with
      | none => cases left <;> simp_all [operator?, yield]
      | some l => exact Nat.le_trans (hleft l hl).le (ihLeft hgl hl hp)
    · rcases List.mem_cons.1 hp with hp | hp
      · cases hp
        exact Nat.le_refl _
      · cases hr : right.operator? with
        | none => cases right <;> simp_all [operator?, yield]
        | some r => exact Nat.le_trans (hright r hr).le (ihRight hgr hr hp)

theorem exists_operator_of_mem (hp : .inr p ∈ g.yield) : ∃ o, g.operator? = some o := by
  cases g with
  | operand a => simp [yield] at hp
  | apply o left right => exact ⟨o, rfl⟩

theorem Grouped.allowsLeft {left right : Grouping α} (hg : (apply o left right).Grouped)
    (hp : .inr p ∈ left.yield) : o.AllowsLeft p := by
  obtain ⟨q, hq⟩ := exists_operator_of_mem hp
  exact (hg.1 q hq).mono (hg.2.2.1.le_of_mem hq hp)

theorem Grouped.allowsRight {left right : Grouping α} (hg : (apply o left right).Grouped)
    (hp : .inr p ∈ right.yield) : o.AllowsRight p := by
  obtain ⟨q, hq⟩ := exists_operator_of_mem hp
  exact (hg.2.1 q hq).mono (hg.2.2.2.le_of_mem hq hp)

/-- The operator that is applied last cannot stand further to the left in another grouping of the
same operands and operators. -/
theorem Grouped.not_before {left right left' right' : Grouping α} {x : α ⊕ BinaryOperator}
    {between : List (α ⊕ BinaryOperator)} (hg : (apply o left right).Grouped)
    (hh : (apply p left' right').Grouped) (hleft : left'.yield = left.yield ++ x :: between)
    (hright : .inr o :: right.yield = x :: between ++ .inr p :: right'.yield) : False := by
  obtain ⟨rfl, hbehind⟩ := List.cons.inj hright
  have hp : o.AllowsRight p := hg.allowsRight (by rw [hbehind]; simp)
  have ho : p.AllowsLeft o := hh.allowsLeft (by rw [hleft]; simp)
  exact BinaryOperator.not_allowsLeft_of_allowsRight hp ho

/-- Operands and operators can be grouped in one way only. -/
theorem Grouped.unique (hg : g.Grouped) (hh : h.Grouped) (hyield : g.yield = h.yield) : g = h := by
  induction g generalizing h with
  | operand a =>
    cases h with
    | operand b => simpa [yield] using hyield
    | apply p left' right' =>
      obtain ⟨q, hq⟩ := exists_operator_of_mem (g := operand a) (p := p)
        (by rw [hyield]; simp [yield])
      cases hq
  | apply o left right ihLeft ihRight =>
    cases h with
    | operand b =>
      obtain ⟨q, hq⟩ := exists_operator_of_mem (g := operand b) (p := o)
        (by rw [← hyield]; simp [yield])
      cases hq
    | apply p left' right' =>
      -- the two last operators stand at the same place, or one of them in front of the other
      obtain ⟨between, hleft, hright⟩ | ⟨between, hleft, hright⟩ :=
        List.append_eq_append_iff.1 hyield
      · cases between with
        | nil =>
          obtain ⟨ho, hr⟩ := List.cons.inj hright
          cases ho
          rw [ihLeft hg.2.2.1 hh.2.2.1 (by simpa using hleft.symm),
            ihRight hg.2.2.2 hh.2.2.2 hr]
        | cons x between => exact (hg.not_before hh hleft hright).elim
      · cases between with
        | nil =>
          obtain ⟨ho, hr⟩ := List.cons.inj hright
          cases ho
          rw [ihLeft hg.2.2.1 hh.2.2.1 (by simpa using hleft),
            ihRight hg.2.2.2 hh.2.2.2 hr.symm]
        | cons x between => exact (hh.not_before hg hleft hright).elim

end Grouping

/-- The tokens of a name, a literal or an expression in parentheses, and its node. -/
inductive IsOperand : List Token → Node → Prop where
  | name {t : Token} (ht : t.kind = .identifier) : IsOperand [t] (.identifier t.extent t.value)
  | literal {t : Token} (ht : t.isLiteral = true) :
      IsOperand [t] (.literal t.extent (Reading.literalOf t).1 (Reading.literalOf t).2)
  | fraction {point t : Token} (hpoint : point.kind = .punctuator .dot) (ht : t.kind = .number) :
      IsOperand [point, t]
        (.literal ⟨point.start, t.stop⟩ (.number (Reading.numberOf ("0." ++ t.value)))
          ("0." ++ t.value))
  | group {l u : Token} {inside : List Token} {e : Node} (hl : l.kind = .punctuator .parenOpen)
      (hu : u.kind = .punctuator .parenClose) (he : Reading.Encloses l inside u e) :
      IsOperand (l :: inside ++ [u]) e

/-- An operand as it is written. -/
structure Operand where
  tokens : List Token
  node : Node
  written : IsOperand tokens node

/-- An operator as it is written, with the operand behind it. -/
structure Link where
  token : Token
  operator : BinaryOperator
  operand : Operand
  written : BinaryOperator.ofToken? token = some operator

/-- Operands with operators between them. -/
structure Chain where
  first : Operand
  links : List Link

namespace Chain

/-- The tokens of operators with the operands behind them. -/
def linkTokens (links : List Link) : List Token :=
  links.flatMap fun k => k.token :: k.operand.tokens

/-- Operators with the operands behind them. -/
def linkYield (links : List Link) : List (Operand ⊕ BinaryOperator) :=
  links.flatMap fun k => [.inr k.operator, .inl k.operand]

/-- The tokens of a chain. -/
def tokens (c : Chain) : List Token := c.first.tokens ++ linkTokens c.links

/-- The operands and operators of a chain from left to right. -/
def yield (c : Chain) : List (Operand ⊕ BinaryOperator) := .inl c.first :: linkYield c.links

end Chain

/-- A node is built as a grouping says, with the nodes of logical operators apart from others. -/
inductive Grouping.Builds : Grouping Operand → Node → Prop where
  | operand (a : Operand) : Builds (.operand a) a.node
  | logical {o : BinaryOperator} {left right : Grouping Operand} {l r : Node} (e : Extent)
      (ho : o = .and ∨ o = .or) (hl : left.Builds l) (hr : right.Builds r) :
      Builds (.apply o left right) (.logical e o l r)
  | binary {o : BinaryOperator} {left right : Grouping Operand} {l r : Node} (e : Extent)
      (ho : ¬ (o = .and ∨ o = .or)) (hl : left.Builds l) (hr : right.Builds r) :
      Builds (.apply o left right) (.binary e o l r)

theorem Grouping.Builds.apply {o : BinaryOperator} {left right : Grouping Operand} {l r : Node}
    (e : Extent) (hl : left.Builds l) (hr : right.Builds r) :
    (Grouping.apply o left right).Builds (Reading.binaryNode e o l r) := by
  unfold Reading.binaryNode
  cases ho : o.isLogical with
  | true => exact .logical e (by cases o <;> simp_all [BinaryOperator.isLogical]) hl hr
  | false => exact .binary e (by cases o <;> simp_all [BinaryOperator.isLogical]) hl hr

/-- A token that does not continue what is in front of it, neither as an operator nor otherwise. -/
structure Token.Closes (u : Token) : Prop where
  operator : BinaryOperator.ofToken? u = none
  suffix : Reading.isSuffix u = false

namespace Reading

open Reader (Ahead)

theorem isSuffix_of_operator {t : Token} {o : BinaryOperator}
    (h : BinaryOperator.ofToken? t = some o) : isSuffix t = false := by
  unfold BinaryOperator.ofToken? at h
  unfold isSuffix
  cases hk : t.kind with
  | punctuator p =>
    rw [hk] at h
    cases p <;> first | rfl | cases h
  | _ => rfl

/-- Nothing is read behind an operand that nothing continues. -/
theorem suffixes_of_not {r : Reader} (h : isSuffix r.current = false) (n : Nat) (e : Node) :
    suffixes (n + 1) e r = .ok e r := by
  rw [suffixes, current_bind]
  unfold isSuffix at h
  cases hk : r.current.kind with
  | punctuator p =>
    rw [hk] at h
    cases p <;> first | rfl | cases h
  | _ => rfl

/-- Nothing is read behind an operand that no operator is behind. -/
theorem binaryTail_of_not {r : Reader} (h : BinaryOperator.ofToken? r.current = none) (n : Nat)
    (e : Node) (bound : Nat) : binaryTail (n + 1) e bound r = .ok e r := by
  rw [binaryTail, current_bind, h]
  rfl

/-- An expression that begins with an operand goes on with the operators behind it. -/
theorem subExpression_operand {n : Nat} {r s : Reader} {e : Node} (bound : Nat)
    (hunary : UnaryOperator.ofToken? r.current = none) (h : operand n r = .ok (some e) s) :
    subExpression (n + 1) bound r = (some <$> binaryTail n e bound) s := by
  rw [subExpression, current_bind, hunary]
  simp only
  rw [bind_apply, h]

/-- The tokens behind an operand: an operator of the chain or what is behind the chain. -/
theorem isSuffix_linkTokens {links : List Link} {u v : Token} {more tail : List Token}
    (hu : u.Closes) (h : Chain.linkTokens links ++ u :: more = v :: tail) :
    isSuffix v = false := by
  cases links with
  | nil =>
    cases h
    exact hu.suffix
  | cons k links =>
    cases h
    exact isSuffix_of_operator k.written

section

variable {lenient : Bool} {t u previous : Token} {rest : List Token} {stop : Option LexError}
  {errors : List ParseError} {names : List String}

theorem operand_name (n : Nat) (ht : t.kind = .identifier) (hu : isSuffix u = false) :
    operand (n + 3) ⟨lenient, t, previous, u :: rest, stop, errors, names⟩ =
      .ok (some (.identifier t.extent t.value))
        ⟨lenient, u, t, rest, stop, errors, noted names t.value⟩ := by
  have hprimary : primary (n + 2) ⟨lenient, t, previous, u :: rest, stop, errors, names⟩ =
      .ok none ⟨lenient, t, previous, u :: rest, stop, errors, names⟩ := by
    rw [primary, current_bind]
    simp only [Token.isLiteral, Token.isValueLiteral, ht]
    rfl
  rw [operand, bind_apply, hprimary]
  simp only [righthand]
  rw [current_bind]
  simp only [ht]
  rw [bind_apply, identifier_name ht]
  simp only [map_eq_pure_bind]
  rw [bind_apply, suffixes_of_not hu]
  rfl

theorem operand_literal (n : Nat) (ht : t.isLiteral = true) (hu : u.isPunctuator .dot = false) :
    operand (n + 2) ⟨lenient, t, previous, u :: rest, stop, errors, names⟩ =
      .ok (some (.literal t.extent (literalOf t).1 (literalOf t).2))
        ⟨lenient, u, t, rest, stop, errors, names⟩ := by
  have hprimary : primary (n + 1) ⟨lenient, t, previous, u :: rest, stop, errors, names⟩ =
      .ok (some (.literal t.extent (literalOf t).1 (literalOf t).2))
        ⟨lenient, u, t, rest, stop, errors, names⟩ := by
    rw [primary, current_bind]
    simp only [ht, if_true, literal]
    rw [bind_apply, current_bind, bind_apply, advance_cons]
    change (current >>= _) _ = _
    rw [current_bind]
    simp only [hu, Bool.and_false, Bool.false_eq_true, if_false]
    rfl
  rw [operand, bind_apply, hprimary]
  rfl

theorem operand_fraction (n : Nat) {w : Token} (ht : t.kind = .punctuator .dot)
    (hw : w.kind = .number) :
    operand (n + 2) ⟨lenient, t, previous, w :: u :: rest, stop, errors, names⟩ =
      .ok (some (.literal ⟨t.start, w.stop⟩ (.number (numberOf ("0." ++ w.value)))
          ("0." ++ w.value)))
        ⟨lenient, u, w, rest, stop, errors, names⟩ := by
  have hprimary : primary (n + 1) ⟨lenient, t, previous, w :: u :: rest, stop, errors, names⟩ =
      .ok (some (.literal ⟨t.start, w.stop⟩ (.number (numberOf ("0." ++ w.value)))
          ("0." ++ w.value)))
        ⟨lenient, u, w, rest, stop, errors, names⟩ := by
    rw [primary, current_bind]
    simp only [Token.isLiteral, Token.isValueLiteral, ht]
    rw [if_neg (by decide), bind_apply]
    simp only [peek, hw]
    rfl
  rw [operand, bind_apply, hprimary]
  rfl

/-- An expression in parentheses is the expression between them. -/
theorem operand_group {n : Nat} {e : Node} {v w : Token} {more : List Token} {s : Reader}
    (ht : t.kind = .punctuator .parenOpen) (hv : v.kind = .punctuator .parenClose)
    (hu : isSuffix u = false)
    (he : expectedExpression (n + 1) ⟨lenient, w, t, rest, stop, errors, names⟩ = .ok e s)
    (hs : s.current :: s.rest = v :: u :: more) :
    operand (n + 3) ⟨lenient, t, previous, w :: rest, stop, errors, names⟩ =
      .ok (some e) ⟨s.lenient, u, v, more, s.stop, s.errors, s.names⟩ := by
  have hprimary : primary (n + 2) ⟨lenient, t, previous, w :: rest, stop, errors, names⟩ =
      .ok none ⟨lenient, t, previous, w :: rest, stop, errors, names⟩ := by
    rw [primary, current_bind]
    simp only [Token.isLiteral, Token.isValueLiteral, ht]
    rfl
  obtain ⟨slenient, scurrent, sprevious, srest, sstop, serrors, snames⟩ := s
  cases hs
  rw [operand, bind_apply, hprimary]
  simp only [righthand]
  rw [current_bind]
  simp only [ht]
  rw [bind_apply, advance_cons]
  simp only
  rw [bind_apply, he]
  simp only
  rw [bind_apply, expectPunctuator_met hv]
  simp only [map_eq_pure_bind]
  rw [bind_apply, suffixes_of_not hu]
  rfl

end

theorem isPunctuator_dot_of_not_suffix {u : Token} (hu : isSuffix u = false) :
    u.isPunctuator .dot = false := by
  cases hd : u.isPunctuator .dot with
  | false => rfl
  | true =>
    have hk : u.kind = .punctuator .dot := by simpa [Token.isPunctuator] using hd
    simp [isSuffix, hk] at hu

theorem ahead_eq {r : Reader} {t : Token} {ts : List Token} (h : r.Ahead (t :: ts)) :
    ∃ previous errors names, r = ⟨false, t, previous, ts, none, errors, names⟩ := by
  obtain ⟨lenient, current, previous, rest, stop, errors, names⟩ := r
  obtain ⟨rfl, rfl, htokens⟩ := h
  cases htokens
  exact ⟨previous, errors, names, rfl⟩

variable {r : Reader} {ts more : List Token} {a : Node} {u : Token}

/-- An operand that nothing continues is read as such. -/
theorem operand_gives (h : IsOperand ts a) (hu : isSuffix u = false)
    (hr : r.Ahead (ts ++ u :: more)) :
    UnaryOperator.ofToken? r.current = none ∧
      ∃ s, Gives operand r (some a) s ∧ s.Ahead (u :: more) := by
  have hdot := isPunctuator_dot_of_not_suffix hu
  cases h with
  | @name t ht =>
    obtain ⟨previous, errors, names, rfl⟩ := ahead_eq hr
    refine ⟨by simp [UnaryOperator.ofToken?, ht],
      ⟨false, u, t, more, none, errors, noted names t.value⟩, ⟨3, fun m hm => ?_⟩, rfl, rfl, rfl⟩
    obtain ⟨m, rfl⟩ : ∃ k, m = k + 3 := ⟨m - 3, by omega⟩
    exact operand_name m ht hu
  | @literal t ht =>
    obtain ⟨previous, errors, names, rfl⟩ := ahead_eq hr
    refine ⟨?_, ⟨false, u, t, more, none, errors, names⟩, ⟨2, fun m hm => ?_⟩, rfl, rfl, rfl⟩
    · unfold UnaryOperator.ofToken?
      cases hk : t.kind <;> simp_all [Token.isLiteral, Token.isValueLiteral]
    · obtain ⟨m, rfl⟩ : ∃ k, m = k + 2 := ⟨m - 2, by omega⟩
      exact operand_literal m ht hdot
  | @fraction point t hpoint ht =>
    obtain ⟨previous, errors, names, rfl⟩ := ahead_eq hr
    refine ⟨by simp [UnaryOperator.ofToken?, hpoint],
      ⟨false, u, t, more, none, errors, names⟩, ⟨2, fun m hm => ?_⟩, rfl, rfl, rfl⟩
    obtain ⟨m, rfl⟩ : ∃ k, m = k + 2 := ⟨m - 2, by omega⟩
    exact operand_fraction m hpoint ht
  | @group l v inside e hl hv he =>
    have hvdot : v.isPunctuator .dot = false := by simp [Token.isPunctuator, hv]
    obtain ⟨previous, errors, names, rfl⟩ := ahead_eq hr
    obtain ⟨w, tail, htail⟩ : ∃ w tail, inside ++ v :: u :: more = w :: tail := by
      cases inside <;> exact ⟨_, _, rfl⟩
    have htokens : inside ++ [v] ++ u :: more = w :: tail := by simpa using htail
    obtain ⟨s, hs, hahead⟩ := he.gives hvdot
      (r := ⟨false, w, l, tail, none, errors, names⟩) ⟨rfl, rfl, htail.symm⟩ rfl
    obtain ⟨n, hn⟩ := hs.expectedExpression
    refine ⟨by simp [UnaryOperator.ofToken?, hl],
      ⟨s.lenient, u, v, more, s.stop, s.errors, s.names⟩, ⟨n + 3, fun m hm => ?_⟩, hahead.strict,
      hahead.stop, rfl⟩
    obtain ⟨m, rfl⟩ : ∃ k, m = k + 3 := ⟨m - 3, by omega⟩
    simp only [List.append_eq, htokens]
    exact operand_group hl hv hu (hn (m + 1) (by omega)) hahead.tokens

/-- An expression that was read with a bound: which grouping it is of which operators, and which
operators were left. -/
structure Climbs (bound : Nat) (before : List (Operand ⊕ BinaryOperator)) (links : List Link)
    (g : Grouping Operand) (e : Node) (left : List Link) : Prop where
  builds : g.Builds e
  grouped : g.Grouped
  above : ∀ o ∈ g.operator?, bound < o.precedence
  yield : g.yield ++ Chain.linkYield left = before ++ Chain.linkYield links
  shorter : left.length ≤ links.length
  stops : ∀ k ∈ left.head?, k.operator.precedence ≤ bound

/-- What a tail of operators makes of an operand that was read. -/
abbrev TailClimbs (u : Token) (more : List Token) (links : List Link) : Prop :=
  ∀ (bound : Nat) (r : Reader) (e : Node) (g : Grouping Operand), u.Closes →
    r.Ahead (Chain.linkTokens links ++ u :: more) → g.Builds e → g.Grouped →
    (∀ o ∈ g.operator?, bound < o.precedence) →
    (∀ o ∈ g.operator?, ∀ k ∈ links.head?, k.operator.precedence ≤ o.rightBound) →
    ∃ g' e' s left, Gives (binaryTail · e bound) r e' s ∧
      s.Ahead (Chain.linkTokens left ++ u :: more) ∧ Climbs bound g.yield links g' e' left

/-- An operand with the operators behind it, given what becomes of those. -/
theorem subExpression_gives (bound : Nat) {links : List Link} (htail : TailClimbs u more links)
    (hu : u.Closes) {first : Operand}
    (hr : r.Ahead (first.tokens ++ Chain.linkTokens links ++ u :: more)) :
    ∃ g e s left, Gives (subExpression · bound) r (some e) s ∧
      s.Ahead (Chain.linkTokens left ++ u :: more) ∧ Climbs bound [.inl first] links g e left := by
  obtain ⟨v, tail, hv⟩ : ∃ v tail, Chain.linkTokens links ++ u :: more = v :: tail := by
    cases hl : Chain.linkTokens links <;> exact ⟨_, _, rfl⟩
  rw [List.append_assoc, hv] at hr
  obtain ⟨hunary, s, ⟨n, hn⟩, hs⟩ := operand_gives first.written (isSuffix_linkTokens hu hv) hr
  rw [← hv] at hs
  obtain ⟨g, e, s', left, ⟨m, hm⟩, hs', hclimbs⟩ := htail bound s first.node (.operand first) hu hs
    (.operand first) trivial (by simp [Grouping.operator?]) (by simp [Grouping.operator?])
  refine ⟨g, e, s', left, ⟨max n m + 1, fun k hk => ?_⟩, hs', hclimbs⟩
  obtain ⟨k, rfl⟩ : ∃ j, k = j + 1 := ⟨k - 1, by omega⟩
  dsimp only at hm ⊢
  rw [subExpression_operand bound hunary (hn k (by omega)), map_eq_pure_bind, bind_apply,
    hm k (by omega)]
  rfl

/-- An operator above the bound is read with its right operand. -/
theorem binaryTail_operator {n bound : Nat} {o : BinaryOperator} {e e' : Node} {r₁ s : Reader}
    (ho : BinaryOperator.ofToken? r.current = some o) (hbound : ¬ o.precedence ≤ bound)
    (hstep : r.step = .ok r₁) (hright : subExpression n o.rightBound r₁ = .ok (some e') s) :
    binaryTail (n + 1) e bound r =
      binaryTail n (binaryNode ⟨e.start, s.previous.stop⟩ o e e') bound s := by
  rw [binaryTail, current_bind, ho]
  simp only [if_neg hbound]
  rw [bind_apply, advance_of_step hstep]
  simp only
  rw [bind_apply, hright]
  rfl

/-- Operators that bind tighter than the bound are read with their right operands, up to the first
that does not. -/
theorem binaryTail_gives (links : List Link) : TailClimbs u more links := by
  induction hlength : links.length using Nat.strongRecOn generalizing links with
  | ind length ih =>
    intro bound r e g hu hr hbuilds hgrouped habove hleft
    cases links with
    | nil =>
      refine ⟨g, e, r, [], ⟨1, fun m hm => ?_⟩, hr, hbuilds, hgrouped, habove, rfl, by simp,
        by simp⟩
      obtain ⟨m, rfl⟩ : ∃ j, m = j + 1 := ⟨m - 1, by omega⟩
      refine binaryTail_of_not ?_ m e bound
      rw [hr.current, hu.operator]
    | cons k links =>
      have ho : BinaryOperator.ofToken? r.current = some k.operator := by
        rw [hr.current, k.written]
      by_cases hbound : k.operator.precedence ≤ bound
      · refine ⟨g, e, r, k :: links, ⟨1, fun m hm => ?_⟩, hr, hbuilds, hgrouped, habove, rfl,
          Nat.le_refl _, by simpa using hbound⟩
        obtain ⟨m, rfl⟩ : ∃ j, m = j + 1 := ⟨m - 1, by omega⟩
        dsimp only
        rw [binaryTail, current_bind, ho]
        simp only [if_pos hbound]
        rfl
      -- the right operand takes what binds tighter than the operator, the loop goes on behind it
      obtain ⟨w, tail, hw⟩ : ∃ w tail,
          k.operand.tokens ++ Chain.linkTokens links ++ u :: more = w :: tail := by
        cases hl : k.operand.tokens ++ Chain.linkTokens links <;> exact ⟨_, _, rfl⟩
      have htokens : Chain.linkTokens (k :: links) ++ u :: more = k.token :: w :: tail := by
        rw [← hw]
        simp [Chain.linkTokens]
      rw [htokens] at hr
      obtain ⟨r₁, hstep, hr₁⟩ := hr.step
      rw [← hw] at hr₁
      have hshorter : links.length < length := by simp [← hlength]
      obtain ⟨g₂, e₂, s₂, left₂, ⟨n₂, hn₂⟩, hs₂, hright⟩ :=
        subExpression_gives k.operator.rightBound (ih _ hshorter links rfl) hu hr₁
      have hgrouped₂ : (Grouping.apply k.operator g g₂).Grouped := by
        refine ⟨fun p hp => ?_, fun p hp => ?_, hgrouped, hright.grouped⟩
        · exact BinaryOperator.allowsLeft_of_rightBound (hleft p hp k (by simp))
        · exact BinaryOperator.allowsRight_of_rightBound (hright.above p hp)
      obtain ⟨g₃, e₃, s₃, left₃, ⟨n₃, hn₃⟩, hs₃, hwhole⟩ :=
        ih _ (Nat.lt_of_le_of_lt hright.shorter hshorter) left₂ rfl bound s₂ _
          (.apply k.operator g g₂) hu hs₂
          (.apply ⟨e.start, s₂.previous.stop⟩ hbuilds hright.builds) hgrouped₂
          (by simpa [Grouping.operator?] using hbound)
          (by simpa [Grouping.operator?] using hright.stops)
      refine ⟨g₃, e₃, s₃, left₃, ⟨max n₂ n₃ + 1, fun m hm => ?_⟩, hs₃, hwhole.builds,
        hwhole.grouped, hwhole.above, ?_, ?_, hwhole.stops⟩
      · obtain ⟨m, rfl⟩ : ∃ j, m = j + 1 := ⟨m - 1, by omega⟩
        exact (binaryTail_operator ho hbound hstep (hn₂ m (by omega))).trans (hn₃ m (by omega))
      · rw [hwhole.yield, Grouping.yield, List.append_assoc, List.cons_append, hright.yield]
        rfl
      · exact Nat.le_trans hwhole.shorter (Nat.le_trans hright.shorter (Nat.le_succ _))

/-- A chain of operands is read as one expression, grouped as the precedences of its operators
ask for. -/
theorem expression_gives (c : Chain) (hu : u.Closes) (hr : r.Ahead (c.tokens ++ u :: more)) :
    ∃ (g : Grouping Operand) (e : Node) (s : Reader), Gives expression r (some e) s ∧
      s.Ahead (u :: more) ∧ g.Builds e ∧ g.Grouped ∧ g.yield = c.yield := by
  obtain ⟨g, e, s, left, ⟨n, hn⟩, hs, hclimbs⟩ :=
    subExpression_gives 0 (binaryTail_gives c.links) hu hr
  obtain rfl : left = [] := by
    cases left with
    | nil => rfl
    | cons k left =>
      have hle := hclimbs.stops k (by simp)
      have hpos := k.operator.precedence_pos
      omega
  refine ⟨g, e, s, ⟨n + 1, fun m hm => ?_⟩, hs, hclimbs.builds, hclimbs.grouped, ?_⟩
  · obtain ⟨m, rfl⟩ : ∃ j, m = j + 1 := ⟨m - 1, by omega⟩
    exact hn m (by omega)
  · simpa [Chain.linkYield, Chain.yield] using hclimbs.yield

/-- A name with an expression assigned to it is a statement. -/
theorem statement_assignment {x sign : Token} (hx : x.kind = .identifier)
    (hsign : sign.kind = .punctuator .assign) (hts : ts ≠ []) (hr : r.Ahead (x :: sign :: ts)) :
    ∃ r₁ : Reader, r₁.Ahead ts ∧ ∀ (inLine : Bool) (e : Node) (s : Reader),
      Gives expectedExpression r₁ e s → Gives (statement · inLine) r
        (some (.assignment ⟨x.start, s.previous.stop⟩ (.identifier x.extent x.value) e)) s := by
  obtain ⟨t, ts, rfl⟩ := List.exists_cons_of_ne_nil hts
  obtain ⟨previous, errors, names, rfl⟩ := ahead_eq hr
  refine ⟨⟨false, t, sign, ts, none, errors, noted names x.value⟩, ⟨rfl, rfl, rfl⟩, ?_⟩
  intro inLine e s ⟨n, hn⟩
  refine ⟨n + 3, fun m hm => ?_⟩
  obtain ⟨m, rfl⟩ : ∃ j, m = j + 3 := ⟨m - 3, by omega⟩
  have htail : statementTail (m + 1) x (.identifier x.extent x.value)
      ⟨false, sign, x, t :: ts, none, errors, noted names x.value⟩ =
        .ok (.assignment ⟨x.start, s.previous.stop⟩ (.identifier x.extent x.value) e) s := by
    rw [statementTail, current_bind]
    simp only [BinaryOperator.ofToken?, hsign, BinaryOperator.ofPunctuator?, Option.isSome_none,
      Bool.false_eq_true, if_false]
    rw [current_bind]
    simp only [isSuffix, hsign]
    rw [if_neg (by decide), bind_apply]
    change (current >>= _) _ = _
    rw [current_bind]
    simp only [Token.isTerminator, Token.isEndOfLine, Token.isEndOfFile, Token.endsLineBody, hsign]
    rw [if_neg (by decide), bind_apply, expectPunctuator_met hsign]
    simp only
    rw [bind_apply, hn m (by omega)]
    rfl
  dsimp only
  rw [statement, current_bind]
  simp only [hx, map_eq_pure_bind]
  rw [bind_apply, assignmentOrCall, current_bind]
  simp only [hx]
  rw [bind_apply, identifier_name hx]
  simp only [htail]
  rfl

end Reading

theorem Token.Closes.of_isEndOfFile {u : Token} (h : u.isEndOfFile = true) : u.Closes := by
  have hk : u.kind = .endOfFile := by simpa [Token.isEndOfFile] using h
  exact ⟨by simp [BinaryOperator.ofToken?, hk], by simp [Reading.isSuffix, hk]⟩

theorem IsOperand.ne_nil {ts : List Token} {e : Node} (h : IsOperand ts e) : ts ≠ [] := by
  cases h <;> simp

/-- A chain of operands with operators between them is read as one expression. Its node is built as
the one grouping in which every operator is applied to what it allows, wherever the chain stands,
and an assignment of the chain is accepted with that value. -/
theorem chain_grouping (c : Chain) :
    ∃ g : Grouping Operand, g.Grouped ∧ g.yield = c.yield ∧
      (∀ h : Grouping Operand, h.Grouped → h.yield = c.yield → h = g) ∧
      (∀ (r : Reader) (u : Token) (more : List Token), u.Closes →
        r.Ahead (c.tokens ++ u :: more) →
        ∃ e s, Reading.Gives Reading.expression r (some e) s ∧ s.Ahead (u :: more) ∧ g.Builds e) ∧
      ∀ (tabWidth : Nat) (source : String) (x sign last : Token), x.kind = .identifier →
        sign.kind = .punctuator .assign → last.isEndOfFile = true →
        TokenStream.ofSource ⟨false, tabWidth⟩ source =
          ⟨x :: sign :: c.tokens ++ [last], none, []⟩ →
        ∃ out extent e, parse ⟨false, tabWidth⟩ source = .ok out ∧
          out.chunk.statements = [.assignment extent (.identifier x.extent x.value) e] ∧
          g.Builds e := by
  obtain ⟨t, ts, htokens⟩ : ∃ t ts, c.tokens = t :: ts := by
    obtain ⟨t, ts, hfirst⟩ := List.exists_cons_of_ne_nil c.first.written.ne_nil
    exact ⟨t, _, by rw [Chain.tokens, hfirst, List.cons_append]⟩
  -- the chain in front of the end of a source fixes the grouping
  let last : Token := { Reader.placeholder with kind := .endOfFile }
  have hahead : Reader.Ahead (c.tokens ++ [last])
      ⟨false, t, Reader.placeholder, ts ++ [last], none, [], []⟩ := ⟨rfl, rfl, by simp [htokens]⟩
  obtain ⟨g, _, _, -, -, -, hgrouped, hyield⟩ :=
    Reading.expression_gives c (.of_isEndOfFile rfl) hahead
  have unique : ∀ h : Grouping Operand, h.Grouped → h.yield = c.yield → h = g :=
    fun h hh hy => hh.unique hgrouped (hy.trans hyield.symm)
  have reads : ∀ (r : Reader) (u : Token) (more : List Token), u.Closes →
      r.Ahead (c.tokens ++ u :: more) → ∃ e s, Reading.Gives Reading.expression r (some e) s ∧
        s.Ahead (u :: more) ∧ g.Builds e := by
    intro r u more hu hr
    obtain ⟨h, e, s, hgives, hs, hbuilds, hh, hy⟩ := Reading.expression_gives c hu hr
    rw [unique h hh hy] at hbuilds
    exact ⟨e, s, hgives, hs, hbuilds⟩
  refine ⟨g, hgrouped, hyield, unique, reads, ?_⟩
  intro tabWidth source x sign last hx hsign hlast hsource
  have hclosed : x.endsBlock = false := by simp [Token.endsBlock, hx]
  obtain ⟨r₁, hr₁, hstatement⟩ := Reading.statement_assignment hx hsign
    (show c.tokens ++ [last] ≠ [] by simp)
    (r := Reader.ofFirst x (sign :: c.tokens ++ [last])) ⟨rfl, rfl, rfl⟩
  obtain ⟨e, s, hgives, hs, hbuilds⟩ := reads r₁ last [] (.of_isEndOfFile hlast) hr₁
  obtain ⟨n, hn⟩ := hstatement false e s hgives.expectedExpression
  have hend : s.current.isEndOfFile = true := by
    rw [hs.current]
    exact hlast
  obtain ⟨out, hout, hstatements⟩ := (parse_strict_ok hsource).2
    ⟨_, s, Reading.block_last hclosed (hn (n + 1) (Nat.le_succ n)) hend, hend⟩
  exact ⟨out, _, e, hout, hstatements, hbuilds⟩

/-- A token of one character on the first line. -/
def glyph (kind : TokenKind) (value : String) (column : Nat) : Token :=
  ⟨kind, value, ⟨column - 1, column⟩, ⟨⟨1, column⟩, ⟨1, column + 1⟩⟩⟩

/-- The chain `a + b ^ (c)`, behind `x = `. -/
def sumOfPower : Chain where
  first := ⟨[glyph .identifier "a" 5], _, .name rfl⟩
  links := [
    ⟨glyph (.punctuator .plus) "+" 7, .add, ⟨[glyph .identifier "b" 9], _, .name rfl⟩, rfl⟩,
    ⟨glyph (.punctuator .caret) "^" 11, .bitXor,
      ⟨glyph (.punctuator .parenOpen) "(" 13 :: [glyph .identifier "c" 14] ++
          [glyph (.punctuator .parenClose) ")" 15],
        .identifier ⟨⟨1, 14⟩, ⟨1, 15⟩⟩ "c",
        .group rfl rfl ⟨9, [Reader.placeholder], by simp,
          ⟨false, glyph .identifier "c" 14, glyph (.punctuator .parenOpen) "(" 13,
            [glyph (.punctuator .parenClose) ")" 15, Reader.placeholder], none, [], []⟩, _,
          ⟨rfl, rfl, rfl⟩, rfl, rfl, ⟨rfl, rfl, rfl⟩⟩⟩, rfl⟩]

theorem chain_grouping_sumOfPower :
    ∃ out extent e₁ e₂ a b c, parse ⟨false, 1⟩ "x = a + b ^ (c)" = .ok out ∧
      out.chunk.statements = [.assignment extent (.identifier ⟨⟨1, 1⟩, ⟨1, 2⟩⟩ "x")
        (.binary e₁ .add (.identifier a "a")
          (.binary e₂ .bitXor (.identifier b "b") (.identifier c "c")))] := by
  have hsource : TokenStream.ofSource ⟨false, 1⟩ "x = a + b ^ (c)" =
      ⟨glyph .identifier "x" 1 :: glyph (.punctuator .assign) "=" 3 :: sumOfPower.tokens ++
        [⟨.endOfFile, "<eof>", ⟨15, 15⟩, ⟨⟨1, 16⟩, ⟨1, 16⟩⟩⟩], none, []⟩ := by cbv
  obtain ⟨g, -, -, unique, -, hparse⟩ := chain_grouping sumOfPower
  obtain ⟨out, extent, e, hout, hstatements, hbuilds⟩ :=
    hparse 1 _ _ _ _ rfl rfl rfl hsource
  have hg := unique
    (.apply .add (.operand sumOfPower.first)
      (.apply .bitXor (.operand sumOfPower.links[0].operand)
        (.operand sumOfPower.links[1].operand)))
    (by simp [Grouping.Grouped, Grouping.operator?, BinaryOperator.AllowsRight,
      BinaryOperator.precedence]) rfl
  subst hg
  cases hbuilds with
  | logical e₁ ho hl hr => simp at ho
  | binary e₁ ho hl hr =>
    cases hl
    cases hr with
    | logical e₂ ho hl hr => simp at ho
    | binary e₂ ho hl hr =>
      cases hl
      cases hr
      exact ⟨out, extent, e₁, e₂, _, _, _, hout, hstatements⟩

end LineScript
