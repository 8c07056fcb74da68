import LineScript.Proofs.Grammar.Construct
import LineScript.Proofs.Grammar.Guard
import Mathlib

/-!
# The names that a reading takes note of

Names are noted in two places: where a name is read and where a parameter is read. Everything else
that moves over a token knows that the token is no name. So a strict reading notes the names among
the tokens that it moves over, one by one. Every name in a tree was noted before, whether text was
passed over or not. One lemma says both for each production, given that it holds of the productions
it calls.
-/

namespace LineScript

/-- The name of a parameter. -/
def Parameter.name : Parameter → String
  | .mk _ name _ => name

namespace Node

/-- The names that a node has itself: its own, or those of a function and its parameters. The name
of a member is a node of its own. -/
def ownNames : Node → List String
  | .identifier _ name => [name]
  | .function _ name parameters _ => name.toList ++ parameters.map (·.name)
  | _ => []

/-- All names in a tree are among the given ones. -/
def Named (N : List String) (n : Node) : Prop := n.Everywhere fun m => ∀ x ∈ m.ownNames, x ∈ N

variable {N : List String} {n : Node}

/-- A node without names of its own has names among the given ones if its children do. -/
theorem Named.of (hn : n.ownNames = []) (ho : ∀ c ∈ n.operands, c.Named N)
    (hs : ∀ c ∈ n.statements, c.Named N) : n.Named N :=
  .mk (by simp [hn]) ho hs

theorem Named.leaf (hn : n.ownNames = []) (ho : n.operands = []) (hs : n.statements = []) :
    n.Named N :=
  .of hn (by simp [ho]) (by simp [hs])

theorem Named.identifier {e : Extent} {name : String} (h : name ∈ N) :
    (Node.identifier e name).Named N :=
  .mk (by simpa [ownNames] using h) (by simp [operands]) (by simp [statements])

end Node

namespace Reader

open Reading (noted)

/-- The names met, with that of a token if it is one. -/
def recorded (names : List String) (t : Token) : List String :=
  if t.isIdentifier then noted names t.value else names

/-- Reading leads from one place to another. No name is lost or noted twice, and a strict reading
notes the names among the tokens that it moves over and no others. -/
structure Tracks (r s : Reader) : Prop where
  leads : r.Leads s
  grows : r.names ⊆ s.names
  distinct : r.names.Nodup → s.names.Nodup
  taken : r.lenient = false → ∃ taken, r.current :: r.rest = taken ++ s.current :: s.rest ∧
    s.names = taken.foldl recorded r.names

variable {r s t : Reader}

theorem Tracks.refl (r : Reader) : r.Tracks r :=
  ⟨.refl r, List.Subset.refl _, id, fun _ => ⟨[], rfl, rfl⟩⟩

theorem Tracks.trans (hrs : r.Tracks s) (hst : s.Tracks t) : r.Tracks t where
  leads := hrs.leads.trans hst.leads
  grows := List.Subset.trans hrs.grows hst.grows
  distinct h := hst.distinct (hrs.distinct h)
  taken hl := by
    obtain ⟨taken, hr, hs⟩ := hrs.taken hl
    obtain ⟨taken', hs', ht⟩ := hst.taken (hrs.leads.lenient.trans hl)
    refine ⟨taken ++ taken', ?_, ?_⟩
    · rw [hr, hs', List.append_assoc]
    · rw [ht, hs, List.foldl_append]

/-- Moving over a token that is no name. -/
theorem Tracks.of_step (hc : r.current.isIdentifier = false) (hs : r.step = .ok s) :
    r.Tracks s := by
  have hleads := leads_of_step hs
  obtain ⟨t, rest, hrest, rfl⟩ | ⟨hrest, -, rfl⟩ := step_ok hs
  · exact ⟨hleads, List.Subset.refl _, id, fun _ => ⟨[r.current], by simp [hrest],
      by simp [recorded, hc]⟩⟩
  · exact ⟨hleads, List.Subset.refl _, id, fun _ => ⟨[], rfl, rfl⟩⟩

theorem names_note (r : Reader) (name : String) : (r.note name).names = noted r.names name := by
  unfold note noted
  split <;> rfl

theorem mem_noted (names : List String) (name : String) : name ∈ noted names name := by
  unfold noted
  split
  next h => simpa using h
  · simp

theorem subset_noted (names : List String) (name : String) : names ⊆ noted names name := by
  unfold noted
  split
  · exact List.Subset.refl _
  · exact List.subset_append_left _ _

theorem nodup_noted {names : List String} (name : String) (h : names.Nodup) :
    (noted names name).Nodup := by
  unfold noted
  split
  · exact h
  next hmem =>
    refine List.nodup_append.2 ⟨h, by simp, ?_⟩
    rintro a ha b hb rfl
    obtain rfl := List.mem_singleton.1 hb
    exact hmem (by simpa using ha)

/-- Noting a name and moving over it. -/
theorem Tracks.of_note (hr : r.Sound) (hc : r.current.isIdentifier = true)
    (hs : (r.note r.current.value).step = .ok s) : r.Tracks s ∧ r.current.value ∈ s.names := by
  have hleads := (leads_note r r.current.value).trans (leads_of_step hs)
  have hend : r.current.isEndOfFile = false := by
    have hk : r.current.kind = .identifier := by simpa [Token.isIdentifier] using hc
    simp [Token.isEndOfFile, hk]
  have hnames : s.names = noted r.names r.current.value := by
    rw [← names_note]
    obtain ⟨t, rest, -, rfl⟩ | ⟨-, -, rfl⟩ := step_ok hs <;> rfl
  refine ⟨⟨hleads, ?_, ?_, fun _ => ?_⟩, ?_⟩
  · rw [hnames]
    exact subset_noted _ _
  · rw [hnames]
    exact nodup_noted _
  · refine ⟨[r.current], ?_, by simp [recorded, hc, hnames]⟩
    obtain ⟨t, rest, hrest, rfl⟩ | ⟨hrest, hstop, rfl⟩ := step_ok hs
    · rw [rest_note] at hrest
      simp [hrest]
    · rw [rest_note] at hrest
      have hstop' : r.stop = none := by rw [← hstop, (leads_note r _).stop]
      exact absurd hrest (hr.rest_ne_nil hstop' hend)
  · rw [hnames]
    exact mem_noted _ _

theorem Tracks.of_raise (hl : r.lenient = true) (f : ParseFault) :
    r.Tracks { r.skipLine with errors := r.errors ++ [.ofToken f r.current] } :=
  ⟨Reading.leads_raise f, List.Subset.refl _, id, fun hl' => by simp [hl] at hl'⟩

end Reader

namespace Reading

variable {α β : Type} {N : List String} {P : Token → Prop} {H : Prop} {V : α → Prop} {W : β → Prop}

/-- From a token for which `P` holds, a reading takes note of names as it should. If all names that
are noted in the end are among the given ones, `H` gives `V` for what is read. -/
def Registers (N : List String) (P : Token → Prop) (H : Prop) (V : α → Prop) (x : Reading α) :
    Prop :=
  ∀ ⦃r s a⦄, r.Sound → P r.current → x r = .ok a s → r.Tracks s ∧ (s.names ⊆ N → H → V a)

/-- A token that is no name. -/
def Plain (t : Token) : Prop := t.isIdentifier = false

/-- What is read in one place, if anything is, has names among the given ones. -/
abbrev Named? (N : List String) (o : Option Node) : Prop := ∀ a ∈ o, a.Named N

/-- All that is read has names among the given ones. -/
abbrev AllNamed (N : List String) (ns : List Node) : Prop := ∀ a ∈ ns, a.Named N

/-- The conditions and bodies of clauses have names among the given ones. -/
def NamedClauses (N : List String) (ks : List Clause) : Prop :=
  ∀ k ∈ ks, Named? N k.condition ∧ AllNamed N k.body

/-- The names and defaults of parameters, or the unread text in their place, have names among the
given ones. -/
def NamedParameters (N : List String) : Except Node (List Parameter) → Prop
  | .ok ps => ∀ p ∈ ps, p.name ∈ N ∧ Named? N p.default
  | .error a => a.Named N

theorem plain_of_kind {t : Token} {k : TokenKind} (h : t.kind = k) (hk : k ≠ .identifier) :
    Plain t := by
  simp [Plain, Token.isIdentifier, h, hk]

theorem named?_none : Named? N none := fun _ ha => nomatch ha

theorem named?_some {a : Node} (ha : a.Named N) : Named? N (some a) := by
  simpa [Named?] using ha

theorem allNamed_nil : AllNamed N [] := fun _ ha => nomatch ha

theorem allNamed_toList {o : Option Node} (ho : Named? N o) : AllNamed N o.toList :=
  fun a ha => ho a (Option.mem_toList.1 ha)

namespace Registers

variable {x : Reading α} {k : α → Reading β}

theorem weaken {Q : Token → Prop} (h : Registers N Q H V x) (hPQ : ∀ t, P t → Q t) :
    Registers N P H V x :=
  fun _ _ _ hr hP hx => h hr (hPQ _ hP) hx

theorem any (h : Registers N anyToken H V x) : Registers N P H V x := h.weaken fun _ _ => trivial

theorem given {G : Prop} (h : Registers N P H V x) (hGH : G → H) : Registers N P G V x := by
  intro r s a hr hP hx
  obtain ⟨hrs, hV⟩ := h hr hP hx
  exact ⟨hrs, fun hN hG => hV hN (hGH hG)⟩

theorem pure {a : α} (ha : H → V a) : Registers N P H V (pure a) := by
  intro r s b _ _ h
  cases h
  exact ⟨.refl r, fun _ => ha⟩

theorem exhausted : Registers N P H V (Reading.exhausted : Reading α) := by
  intro r s a _ _ h
  cases h

/-- What holds of the first result is known to the second reading. -/
theorem bind (hx : Registers N P H V x) (hk : ∀ a, Registers N anyToken (H ∧ V a) W (k a)) :
    Registers N P H W (x >>= k) := by
  intro r s b hr hP h
  obtain ⟨a, u, hxu, hks⟩ := bind_eq_ok.1 h
  obtain ⟨hru, hV⟩ := hx hr hP hxu
  obtain ⟨hus, hW⟩ := hk a (hr.of_leads hru.leads) trivial hks
  refine ⟨hru.trans hus, fun hN hH => hW hN ⟨hH, hV ?_ hH⟩⟩
  exact List.Subset.trans hus.grows hN

/-- A reading whose result brings no names. -/
theorem seq (hx : Registers N P H (fun _ => True) x) (hk : ∀ a, Registers N anyToken H W (k a)) :
    Registers N P H W (x >>= k) := by
  intro r s b hr hP h
  obtain ⟨a, u, hxu, hks⟩ := bind_eq_ok.1 h
  have hru := (hx hr hP hxu).1
  obtain ⟨hus, hW⟩ := hk a (hr.of_leads hru.leads) trivial hks
  exact ⟨hru.trans hus, hW⟩

theorem map {f : α → β} (hx : Registers N P H V x) (hf : ∀ a, H → V a → W (f a)) :
    Registers N P H W (f <$> x) := by
  rw [map_eq_pure_bind]
  exact .bind hx fun a => .pure fun h => hf a h.1 h.2

/-- A look at the current token, which what follows may go by. -/
theorem current {k : Token → Reading β} (hk : ∀ t, P t → Registers N (· = t) H W (k t)) :
    Registers N P H W (Reading.current >>= k) :=
  fun r _ _ hr hP h => hk r.current hP hr rfl h

theorem previous {k : Token → Reading β} (hk : ∀ t, Registers N P H W (k t)) :
    Registers N P H W (Reading.previous >>= k) :=
  fun r _ _ hr hP h => hk r.previous hr hP h

/-- Moving over a token that is known to be no name. -/
theorem advance (hP : ∀ t, P t → Plain t) : Registers N P H (fun _ => True) Reading.advance :=
  fun r _ _ _ hr h => ⟨.of_step (hP r.current hr) (advance_ok h), fun _ _ => trivial⟩

theorem next {k : Reading β} (hP : ∀ t, P t → Plain t) (hk : Registers N anyToken H W k) :
    Registers N P H W (Reading.advance >>= fun _ => k) :=
  .seq (.advance hP) fun _ => hk

/-- Moving over a name that is noted. -/
theorem note {t : Token} {k : Reading β} (ht : t.isIdentifier = true)
    (hk : Registers N anyToken (H ∧ t.value ∈ N) W k) :
    Registers N (· = t) H W (Reading.note t.value >>= fun _ => Reading.advance >>= fun _ => k) := by
  intro r s b hr hP h
  subst hP
  obtain ⟨_, u, hu, hks⟩ := bind_eq_ok.1 (show (Reading.advance >>= fun _ => k)
    (r.note r.current.value) = .ok b s from h)
  obtain ⟨hru, hmem⟩ := Reader.Tracks.of_note hr ht (advance_ok hu)
  obtain ⟨hus, hW⟩ := hk (hr.of_leads hru.leads) trivial hks
  exact ⟨hru.trans hus, fun hN hH => hW hN ⟨hH, hN (hus.grows hmem)⟩⟩

theorem raise (f : ParseFault) : Registers N P H (Node.Named N) (Reading.raise f) := by
  intro r s a _ _ h
  cases hl : r.lenient with
  | false =>
    rw [raise_strict hl] at h
    cases h
  | true =>
    rw [raise_lenient hl] at h
    cases h
    exact ⟨.of_raise hl f, fun _ _ => .leaf rfl rfl rfl⟩

theorem discard (hx : Registers N P H V x) :
    Registers N P H (fun _ => True) (discard x) := by
  rw [discard_eq]
  exact .bind hx fun _ => .pure fun _ => trivial

theorem extentFrom (start : Position) :
    Registers N P H (fun _ => True) (Reading.extentFrom start) :=
  .previous fun _ => .pure fun _ => trivial

theorem emptyHere : Registers N P H (Node.Named N) Reading.emptyHere :=
  .current fun _ _ => .pure fun _ => .leaf rfl rfl rfl

/-- A token that is moved over if it passes a test, which no name does. -/
theorem test (accepts : Token → Bool) (h : ∀ t, accepts t = true → Plain t) :
    Registers N P H (fun _ => True) (do
      if accepts (← Reading.current) then
        Reading.advance
        return true
      else return false) := by
  refine .current fun t _ => ?_
  split
  next ht => exact .next (fun u hu => hu ▸ h t ht) (.pure fun _ => trivial)
  · exact .pure fun _ => trivial

theorem consumePunctuator (q : Punctuator) :
    Registers N P H (fun _ => True) (Reading.consumePunctuator q) :=
  test (·.isPunctuator q)
    fun _ ht => plain_of_kind (by simpa [Token.isPunctuator] using ht) (by simp)

theorem consumeKeyword (k : Keyword) :
    Registers N P H (fun _ => True) (Reading.consumeKeyword k) :=
  test (·.isKeyword k) fun _ ht => plain_of_kind (by simpa [Token.isKeyword] using ht) (by simp)

theorem consumeLineEnd : Registers N P H (fun _ => True) Reading.consumeLineEnd := by
  unfold Reading.consumeLineEnd
  refine .current fun t _ => ?_
  split
  next ht =>
    have hk : t.kind = .endOfLine := by simpa [Token.isEndOfLine] using ht
    exact .advance fun u hu => plain_of_kind (hu ▸ hk) (by simp)
  · exact .pure fun _ => trivial

theorem expectPunctuator (q : Punctuator) :
    Registers N P H (fun _ => True) (Reading.expectPunctuator q) := by
  unfold Reading.expectPunctuator
  refine .seq (.consumePunctuator q) fun b => ?_
  split
  · exact .discard (.raise _)
  · exact .pure fun _ => trivial

theorem expectKeyword (k : Keyword) :
    Registers N P H (fun _ => True) (Reading.expectKeyword k) := by
  unfold Reading.expectKeyword
  refine .seq (.consumeKeyword k) fun b => ?_
  split
  · exact .discard (.raise _)
  · exact .pure fun _ => trivial

theorem expectLineBodyEnd (k : Keyword) :
    Registers N P H (fun _ => True) (Reading.expectLineBodyEnd k) := by
  unfold Reading.expectLineBodyEnd
  refine .current fun t _ => ?_
  split
  · exact .pure fun _ => trivial
  · refine .seq (.consumeKeyword k) fun b => ?_
    split
    · exact .discard (.raise _)
    · exact .pure fun _ => trivial

theorem identifier : Registers N P H (Node.Named N) Reading.identifier := by
  unfold Reading.identifier
  refine .current fun t _ => ?_
  split
  next ht => exact .note ht (.pure fun h => .identifier h.2)
  · exact .raise _

/-- A name where one is known to stand. -/
theorem name {t : Token} {k : Reading β} (ht : t.isIdentifier = true)
    (hk : Registers N anyToken (H ∧ t.value ∈ N) W k) :
    Registers N (· = t) H W (Functor.discard Reading.identifier >>= fun _ => k) := by
  intro r s b hr hP h
  subst hP
  refine note ht hk hr rfl ?_
  rw [← h, discard_eq]
  unfold Reading.identifier
  simp only [bind_assoc, pure_bind]
  rw [current_bind]
  simp only [ht, if_true, bind_assoc, pure_bind]

theorem literal : Registers N (·.isLiteral = true) H (Node.Named N) Reading.literal := by
  unfold Reading.literal
  refine .current fun t ht => .next (fun u hu => ?_) (.pure fun _ => .leaf rfl rfl rfl)
  rw [hu]
  unfold Plain Token.isIdentifier
  cases hk : t.kind <;> simp_all [Token.isLiteral, Token.isValueLiteral]

/-- Only where a number stands behind a point, both are moved over. -/
theorem fraction : Registers N (·.kind = .punctuator .dot) H (Named? N) (do
    if ← numberBehindPoint then Option.some <$> detachedFraction else return none) := by
  intro r s o hr hdot h
  obtain ⟨b, u, hb, h⟩ := bind_eq_ok.1 h
  obtain rfl := numberBehindPoint_ok hb
  cases b with
  | false =>
    cases h
    exact ⟨.refl _, fun _ _ => named?_none⟩
  | true =>
    obtain ⟨t, rest, hrest, hnumber⟩ := Guarded.kind_of_numberBehindPoint hdot hb
    obtain ⟨e, v, he, h⟩ := bind_eq_ok.1 h
    cases h
    unfold detachedFraction at he
    rw [current_bind] at he
    obtain ⟨_, w, hw, he⟩ := bind_eq_ok.1 he
    have hstep := advance_ok hw
    rw [current_bind] at he
    obtain ⟨_, v', hv, he⟩ := bind_eq_ok.1 he
    cases he
    have hnext : w.current = t := by
      simp only [Reader.step, hrest, Except.ok.injEq] at hstep
      rw [← hstep]
    refine ⟨.trans (.of_step (plain_of_kind hdot (by simp)) hstep)
      (.of_step (plain_of_kind (hnext ▸ hnumber) (by simp)) (advance_ok hv)), fun _ _ => ?_⟩
    exact named?_some (.leaf rfl rfl rfl)

theorem importStatement (start : Position) :
    Registers N P H (Node.Named N) (Reading.importStatement start) := by
  unfold Reading.importStatement
  refine .current fun t _ => ?_
  split
  · exact .raise _
  next ht =>
    have hk : t.kind = .string := by simpa using ht
    refine .next (fun u hu => plain_of_kind (hu ▸ hk) (by simp)) (.current fun u _ => ?_)
    split
    · exact .pure fun _ => .leaf rfl rfl rfl
    · exact .raise _

theorem some {x : Reading Node} (hx : Registers N P H (Node.Named N) x) :
    Registers N P H (Named? N) (Option.some <$> x) :=
  .map hx fun _ _ ha => named?_some ha

/-- An operand that may be missing, followed by a reading that takes whatever stands there. -/
theorem orEmpty {x : Reading (Option Node)} {k : Node → Reading β}
    (hx : Registers N P H (Named? N) x)
    (hk : ∀ a, Registers N anyToken (H ∧ a.Named N) W (k a)) :
    Registers N P H W (x >>= fun o => match o with
      | Option.some e => Pure.pure e >>= k
      | none => Reading.emptyHere >>= k) := by
  refine .bind hx fun o => ?_
  cases o with
  | none => exact .bind .emptyHere fun a => (hk a).given fun h => ⟨h.1.1, h.2⟩
  | some e => exact (hk e).given fun h => ⟨h.1, h.2 e rfl⟩

end Registers

/-- The productions under a bound take note of names as they should, and the trees they give have
names that were noted, if the trees that they are given do. -/
structure Naming (N : List String) (n : Nat) : Prop where
  primary : ∀ {H}, Registers N anyToken H (Named? N) (primary n)
  righthand : ∀ {H}, Registers N anyToken H (Named? N) (righthand n)
  callSuffix : ∀ {H a}, (H → a.Named N) →
    Registers N (·.kind = .punctuator .parenOpen) H (Node.Named N) (callSuffix n a)
  suffixes : ∀ {H a}, (H → a.Named N) → Registers N anyToken H (Node.Named N) (suffixes n a)
  unaryExpression : ∀ {H} o, Registers N Plain H (Node.Named N) (unaryExpression n o)
  binaryTail : ∀ {H a} bound, (H → a.Named N) →
    Registers N anyToken H (Node.Named N) (binaryTail n a bound)
  operand : ∀ {H}, Registers N anyToken H (Named? N) (operand n)
  subExpression : ∀ {H} bound, Registers N anyToken H (Named? N) (subExpression n bound)
  expression : ∀ {H}, Registers N anyToken H (Named? N) (expression n)
  expectedExpression : ∀ {H}, Registers N anyToken H (Node.Named N) (expectedExpression n)
  compoundAssignment : ∀ {H a} o, (H → a.Named N) →
    Registers N anyToken H (Node.Named N) (compoundAssignment n a o)
  moreArguments : ∀ {H}, Registers N anyToken H (AllNamed N) (moreArguments n)
  mapFields : ∀ {H}, Registers N anyToken H (fun fs => ∀ f ∈ fs, f.value.Named N) (mapFields n)
  listItems : ∀ {H}, Registers N anyToken H (AllNamed N) (listItems n)
  statementTail : ∀ {H a} t, (H → a.Named N) →
    Registers N anyToken H (Node.Named N) (statementTail n t a)
  assignmentOrCall : ∀ {H}, Registers N anyToken H (Node.Named N) (assignmentOrCall n)
  statement : ∀ {H} inLine, Registers N anyToken H (Named? N) (statement n inLine)
  block : ∀ {H}, Registers N anyToken H (AllNamed N) (block n)
  lineBody : ∀ {H}, Registers N anyToken H (AllNamed N) (lineBody n)
  constructBody : ∀ {H} k, Registers N anyToken H (AllNamed N) (constructBody n k)
  elseIfBlocks : ∀ {H}, Registers N anyToken H (NamedClauses N) (elseIfBlocks n)
  elseBlock : ∀ {H}, Registers N anyToken H (NamedClauses N) (elseBlock n)
  elseIfLines : ∀ {H}, Registers N anyToken H (NamedClauses N) (elseIfLines n)
  elseLine : ∀ {H}, Registers N anyToken H (NamedClauses N) (elseLine n)
  ifStatement : ∀ {H} start, Registers N anyToken H (Node.Named N) (ifStatement n start)
  whileStatement : ∀ {H} start, Registers N anyToken H (Node.Named N) (whileStatement n start)
  forStatement : ∀ {H} start, Registers N anyToken H (Node.Named N) (forStatement n start)
  functionDeclaration : ∀ {H} start,
    Registers N anyToken H (Node.Named N) (functionDeclaration n start)
  parameters : ∀ {H}, Registers N anyToken H (NamedParameters N) (parameters n)
  returnStatement : ∀ {H} start inLine,
    Registers N anyToken H (Node.Named N) (returnStatement n start inLine)

namespace Naming

variable {n : Nat}

theorem primary_succ (h : Naming N n) :
    Registers N anyToken H (Named? N) (Reading.primary (n + 1)) := by
  rw [primary_eq]
  refine .current fun t _ => ?_
  split
  next hl =>
    refine .bind (Registers.literal.weaken fun u hu => hu ▸ hl) fun e => .current fun u _ => ?_
    split
    · exact (h.suffixes And.right).any.some
    · exact .pure fun he => named?_some he.2
  · split
    next hk => exact Registers.fraction.weaken fun u hu => hu ▸ hk
    next hk =>
      refine .next (fun u hu => plain_of_kind (hu ▸ hk) (by simp)) ?_
      exact (h.functionDeclaration _).some
    next hk =>
      refine .next (fun u hu => plain_of_kind (hu ▸ hk) (by simp)) ?_
      refine .bind h.mapFields fun fs => .seq (.extentFrom _) fun e => (h.suffixes ?_).some
      rintro ⟨-, hfs⟩
      exact .of rfl (by simpa [Node.operands] using hfs) (by simp [Node.statements])
    next hk =>
      refine .next (fun u hu => plain_of_kind (hu ▸ hk) (by simp)) ?_
      refine .bind h.listItems fun ns => .seq (.expectPunctuator _) fun _ => ?_
      refine .seq (.extentFrom _) fun e => (h.suffixes ?_).some
      rintro ⟨-, hns⟩
      exact .of rfl hns (by simp [Node.statements])
    · exact .pure fun _ => named?_none

theorem righthand_succ (h : Naming N n) :
    Registers N anyToken H (Named? N) (Reading.righthand (n + 1)) := by
  rw [Reading.righthand]
  refine .current fun t _ => ?_
  split
  · exact .bind .identifier fun e => (h.suffixes And.right).some
  next hk =>
    refine .next (fun u hu => plain_of_kind (hu ▸ hk) (by simp)) ?_
    refine .bind h.expectedExpression fun e => .seq (.expectPunctuator _) fun _ => ?_
    exact (h.suffixes And.right).some
  · exact .pure fun _ => named?_none

theorem callRemainder_registers {a : Node} {cs : List Node} (ha : H → a.Named N)
    (hcs : H → AllNamed N cs) : Registers N anyToken H (Node.Named N) (callRemainder a cs) := by
  refine .seq (.expectPunctuator _) fun _ => .seq (.extentFrom _) fun _ => .pure fun hH => ?_
  exact .of rfl (List.forall_mem_cons.2 ⟨ha hH, hcs hH⟩) (by simp [Node.statements])

theorem callSuffix_succ (h : Naming N n) {a : Node} (ha : H → a.Named N) :
    Registers N (·.kind = .punctuator .parenOpen) H (Node.Named N)
      (Reading.callSuffix (n + 1) a) := by
  rw [callSuffix_eq]
  refine .previous fun t => .current fun u hu => ?_
  split
  · exact .raise _
  · refine .next (fun w hw => plain_of_kind (hw ▸ hu) (by simp)) ?_
    refine .bind h.expression fun o => ?_
    cases o with
    | none => exact callRemainder_registers (fun hg => ha hg.1) fun _ => allNamed_nil
    | some e =>
      refine .bind (.map (W := AllNamed N) h.moreArguments fun c hg hc => ?_)
        fun c => callRemainder_registers (fun hg => ha hg.1.1) And.right
      exact List.forall_mem_cons.2 ⟨hg.2 e rfl, hc⟩

theorem suffixes_succ (h : Naming N n) {a : Node} (ha : H → a.Named N) :
    Registers N anyToken H (Node.Named N) (Reading.suffixes (n + 1) a) := by
  rw [Reading.suffixes]
  refine .current fun t _ => ?_
  split
  next q hk =>
    have plain : ∀ u, u = t → Plain u := fun u hu => plain_of_kind (hu ▸ hk) (by simp)
    split
    · exact .next plain (.bind (h.compoundAssignment _ ha) fun e => h.suffixes And.right)
    · split
      · refine .next plain (.bind h.expectedExpression fun c => ?_)
        refine .seq (.expectPunctuator _) fun _ => .seq (.extentFrom _) fun e => h.suffixes ?_
        rintro ⟨hH, hc⟩
        exact .of rfl (by simp [Node.operands, ha hH, hc]) (by simp [Node.statements])
      · refine .next plain (.bind .identifier fun c => .seq (.extentFrom _) fun e => h.suffixes ?_)
        rintro ⟨hH, hc⟩
        exact .of rfl (by simp [Node.operands, ha hH, hc]) (by simp [Node.statements])
      · exact .bind ((h.callSuffix ha).weaken fun u hu => hu ▸ hk) fun e => h.suffixes And.right
      · exact .pure ha
  · exact .pure ha

theorem unaryExpression_succ (h : Naming N n) (o : UnaryOperator) :
    Registers N Plain H (Node.Named N) (Reading.unaryExpression (n + 1) o) := by
  rw [Reading.unaryExpression]
  refine .current fun t ht => .next (fun u hu => hu ▸ ht) (.orEmpty h.operand fun a => ?_)
  refine .seq (.extentFrom _) fun e => .pure fun hparts => ?_
  obtain ⟨-, ha⟩ := hparts
  unfold unaryNode
  split <;> exact .of rfl (by simp [Node.operands, ha]) (by simp [Node.statements])

theorem plain_of_binaryOperator {t : Token} {o : BinaryOperator}
    (h : BinaryOperator.ofToken? t = some o) : Plain t := by
  unfold BinaryOperator.ofToken? at h
  unfold Plain Token.isIdentifier
  cases hk : t.kind <;> simp_all

theorem plain_of_unaryOperator {t : Token} {o : UnaryOperator}
    (h : UnaryOperator.ofToken? t = some o) : Plain t := by
  unfold UnaryOperator.ofToken? at h
  unfold Plain Token.isIdentifier
  cases hk : t.kind <;> simp_all

theorem plain_of_isSeparator {t : Token} (h : isSeparator t = true) : Plain t := by
  unfold isSeparator Token.isPunctuator Token.isEndOfLine at h
  unfold Plain Token.isIdentifier
  cases hk : t.kind <;> simp_all

theorem binaryTail_succ (h : Naming N n) {a : Node} (bound : Nat) (ha : H → a.Named N) :
    Registers N anyToken H (Node.Named N) (Reading.binaryTail (n + 1) a bound) := by
  rw [Reading.binaryTail]
  refine .current fun t _ => ?_
  split
  · exact .pure ha
  next o ho =>
    split
    · exact .pure ha
    · refine .next (fun u hu => hu ▸ plain_of_binaryOperator ho) ?_
      refine .orEmpty (h.subExpression _) fun c => .seq (.extentFrom _) fun e => ?_
      refine h.binaryTail bound fun hparts => ?_
      obtain ⟨hH, hc⟩ := hparts
      unfold binaryNode
      split <;> exact .of rfl (by simp [Node.operands, ha hH, hc]) (by simp [Node.statements])

theorem operand_succ (h : Naming N n) :
    Registers N anyToken H (Named? N) (Reading.operand (n + 1)) := by
  rw [Reading.operand]
  refine .bind h.primary fun o => ?_
  cases o with
  | none => exact h.righthand
  | some e => exact .pure And.right

theorem subExpression_succ (h : Naming N n) (bound : Nat) :
    Registers N anyToken H (Named? N) (Reading.subExpression (n + 1) bound) := by
  rw [Reading.subExpression]
  refine .current fun t _ => ?_
  split
  next o ho =>
    refine .bind ((h.unaryExpression o).weaken fun u hu => hu ▸ plain_of_unaryOperator ho)
      fun e => ?_
    exact (h.binaryTail bound And.right).some
  · refine .bind h.operand.any fun o => ?_
    cases o with
    | none => exact .pure And.right
    | some e => exact (h.binaryTail bound fun he => he.2 e rfl).some

theorem expression_succ (h : Naming N n) :
    Registers N anyToken H (Named? N) (Reading.expression (n + 1)) := by
  rw [Reading.expression]
  exact h.subExpression 0

theorem expectedExpression_succ (h : Naming N n) :
    Registers N anyToken H (Node.Named N) (Reading.expectedExpression (n + 1)) := by
  rw [Reading.expectedExpression]
  refine .bind h.expression fun o => ?_
  cases o with
  | none => exact .raise _
  | some e => exact .pure fun he => he.2 e rfl

theorem compoundAssignment_succ (h : Naming N n) {a : Node} (o : BinaryOperator)
    (ha : H → a.Named N) :
    Registers N anyToken H (Node.Named N) (Reading.compoundAssignment (n + 1) a o) := by
  rw [Reading.compoundAssignment]
  refine .current fun t _ => .orEmpty (h.subExpression 0).any fun c => .previous fun u => .pure ?_
  rintro ⟨hH, hc⟩
  have hresult : ∀ e, (Node.binary e o a c).Named N := fun e =>
    .of rfl (by simp [Node.operands, ha hH, hc]) (by simp [Node.statements])
  exact .of rfl (by simp [Node.operands, ha hH, hresult]) (by simp [Node.statements])

theorem moreArguments_succ (h : Naming N n) :
    Registers N anyToken H (AllNamed N) (Reading.moreArguments (n + 1)) := by
  rw [Reading.moreArguments]
  refine .seq (.consumePunctuator _) fun b => ?_
  split
  · refine .bind h.expectedExpression fun e => .map h.moreArguments fun c hg hc => ?_
    exact List.forall_mem_cons.2 ⟨hg.2, hc⟩
  · exact .pure fun _ => allNamed_nil

theorem fieldsRemainder_registers (h : Naming N n) {entry : List Field}
    (hentry : H → ∀ f ∈ entry, f.value.Named N) :
    Registers N anyToken H (fun fs => ∀ f ∈ fs, f.value.Named N) (fieldsRemainder n entry) := by
  unfold fieldsRemainder
  refine .seq (.consumePunctuator _) fun b => ?_
  split
  · exact .pure hentry
  · refine .current fun t _ => ?_
    split
    next hs =>
      refine .next (fun u hu => hu ▸ plain_of_isSeparator hs) (.map h.mapFields ?_)
      exact fun fs hH hfs => List.forall_mem_append.2 ⟨hentry hH, hfs⟩
    · exact .seq (.discard (.raise _)) fun _ => .pure hentry

theorem mapFields_succ (h : Naming N n) :
    Registers N anyToken H (fun fs => ∀ f ∈ fs, f.value.Named N) (Reading.mapFields (n + 1)) := by
  rw [mapFields_eq]
  refine .current fun t _ => ?_
  dsimp only
  split
  next hk =>
    have hk : t.kind = .string := by simpa using hk
    refine .next (fun u hu => plain_of_kind (hu ▸ hk) (by simp)) ?_
    refine .seq (.expectPunctuator _) fun _ => .bind h.expectedExpression fun e => ?_
    exact h.fieldsRemainder_registers fun he => by simpa [Field.value] using he.2
  · exact (h.fieldsRemainder_registers fun _ => by simp).any

theorem listItems_succ (h : Naming N n) :
    Registers N anyToken H (AllNamed N) (Reading.listItems (n + 1)) := by
  rw [Reading.listItems]
  refine .bind h.expression fun o => .current fun t _ => ?_
  split
  next hs =>
    refine .next (fun u hu => hu ▸ plain_of_isSeparator hs) (.map h.listItems ?_)
    exact fun ns hg hns => List.forall_mem_append.2 ⟨allNamed_toList hg.2, hns⟩
  · exact .pure fun hg => allNamed_toList hg.2

theorem targetRemainder_registers (h : Naming N n) {e : Node} (t : Token) (suffixed : Bool)
    (he : H → e.Named N) :
    Registers N anyToken H (Node.Named N) (targetRemainder n t suffixed e) := by
  unfold targetRemainder
  refine .current fun v _ => ?_
  split
  · split
    · exact .pure he
    · refine .seq (.extentFrom _) fun _ => .pure fun hH => ?_
      exact .of rfl (by simp [Node.operands, he hH]) (by simp [Node.statements])
  · refine .seq (.expectPunctuator _) fun _ => .bind h.expectedExpression fun v => ?_
    refine .seq (.extentFrom _) fun _ => .pure fun hparts => ?_
    obtain ⟨hH, hv⟩ := hparts
    exact .of rfl (by simp [Node.operands, he hH, hv]) (by simp [Node.statements])

theorem statementTail_succ (h : Naming N n) {a : Node} (t : Token) (ha : H → a.Named N) :
    Registers N anyToken H (Node.Named N) (Reading.statementTail (n + 1) t a) := by
  rw [statementTail_eq]
  refine .current fun u _ => ?_
  split
  · exact (h.binaryTail 0 ha).any
  · refine .current fun w _ => ?_
    dsimp only
    split
    · exact .bind (h.suffixes ha).any fun e => h.targetRemainder_registers t _ And.right
    · exact (h.targetRemainder_registers t _ ha).any

theorem assignmentOrCall_succ (h : Naming N n) :
    Registers N anyToken H (Node.Named N) (Reading.assignmentOrCall (n + 1)) := by
  rw [Reading.assignmentOrCall]
  refine .current fun t _ => ?_
  have hopened : Registers N (· = t) H (Node.Named N) (do
      let e ← Reading.expectedExpression n
      Reading.statementTail n t e) :=
    .bind h.expectedExpression.any fun e => h.statementTail t And.right
  split
  · exact .bind .identifier fun e => h.statementTail t And.right
  next hk =>
    refine .next (fun u hu => plain_of_kind (hu ▸ hk) (by simp)) ?_
    refine .bind h.expectedExpression fun e => .seq (.expectPunctuator _) fun _ => ?_
    exact h.statementTail t And.right
  · exact hopened
  · exact hopened
  · split
    · exact hopened
    · exact .raise _

theorem statement_succ (h : Naming N n) (inLine : Bool) :
    Registers N anyToken H (Named? N) (Reading.statement (n + 1) inLine) := by
  rw [Reading.statement]
  refine .current fun t _ => ?_
  have next : ∀ {k : TokenKind} {x : Reading (Option Node)}, t.kind = k → k ≠ .identifier →
      Registers N anyToken H (Named? N) x →
      Registers N (· = t) H (Named? N) (Reading.advance >>= fun _ => x) :=
    fun hk hne hx => .next (fun u hu => plain_of_kind (hu ▸ hk) hne) hx
  split
  next hk => exact next hk (by simp) (.pure fun _ => named?_none)
  next hk => exact next hk (by simp) (h.ifStatement _).some
  next hk => exact next hk (by simp) (h.returnStatement _ _).some
  next hk => exact next hk (by simp) (h.functionDeclaration _).some
  next hk => exact next hk (by simp) (h.whileStatement _).some
  next hk => exact next hk (by simp) (h.forStatement _).some
  next hk => exact next hk (by simp) (.pure fun _ => named?_some (.leaf rfl rfl rfl))
  next hk => exact next hk (by simp) (.pure fun _ => named?_some (.leaf rfl rfl rfl))
  next hk => exact next hk (by simp) (.pure fun _ => named?_some (.leaf rfl rfl rfl))
  next hk => exact next hk (by simp) (Registers.importStatement _).some
  · exact h.assignmentOrCall.any.some

theorem block_succ (h : Naming N n) :
    Registers N anyToken H (AllNamed N) (Reading.block (n + 1)) := by
  rw [Reading.block]
  refine .current fun t _ => ?_
  split
  · exact .pure fun _ => allNamed_nil
  · refine .bind (h.statement _).any fun o => .seq .consumeLineEnd fun _ => .map h.block ?_
    exact fun ns hg hns => List.forall_mem_append.2 ⟨allNamed_toList hg.2, hns⟩

theorem lineBody_succ (h : Naming N n) :
    Registers N anyToken H (AllNamed N) (Reading.lineBody (n + 1)) := by
  rw [Reading.lineBody]
  refine .current fun t _ => ?_
  split
  · exact .pure fun _ => allNamed_nil
  · refine .bind (h.statement _).any fun o => .map h.lineBody ?_
    exact fun ns hg hns => List.forall_mem_append.2 ⟨allNamed_toList hg.2, hns⟩

theorem constructBody_succ (h : Naming N n) (k : Keyword) :
    Registers N anyToken H (AllNamed N) (Reading.constructBody (n + 1) k) := by
  rw [Reading.constructBody]
  refine .current fun t _ => ?_
  split
  · exact .bind h.block.any fun s => .seq (.expectKeyword _) fun _ => .pure And.right
  · exact .bind h.lineBody.any fun s => .seq (.expectLineBodyEnd _) fun _ => .pure And.right

theorem elseIfBlocks_succ (h : Naming N n) :
    Registers N anyToken H (NamedClauses N) (Reading.elseIfBlocks (n + 1)) := by
  rw [Reading.elseIfBlocks]
  refine .seq (.consumeKeyword _) fun b => ?_
  split
  · refine .previous fun t => .bind h.expectedExpression fun c => ?_
    refine .seq (.expectKeyword _) fun _ => .bind h.block fun s => ?_
    refine .seq (.extentFrom _) fun e => .map h.elseIfBlocks fun ks hg hks => ?_
    exact List.forall_mem_cons.2 ⟨⟨named?_some hg.1.2, hg.2⟩, hks⟩
  · exact .pure fun _ => by simp [NamedClauses]

theorem elseBlock_succ (h : Naming N n) :
    Registers N anyToken H (NamedClauses N) (Reading.elseBlock (n + 1)) := by
  rw [Reading.elseBlock]
  refine .seq (.consumeKeyword _) fun b => ?_
  split
  · refine .previous fun t => .bind h.block fun s => .seq (.extentFrom _) fun _ => ?_
    refine .pure fun hg => ?_
    exact List.forall_mem_singleton.2 ⟨named?_none, hg.2⟩
  · exact .pure fun _ => by simp [NamedClauses]

theorem elseIfLines_succ (h : Naming N n) :
    Registers N anyToken H (NamedClauses N) (Reading.elseIfLines (n + 1)) := by
  rw [Reading.elseIfLines]
  refine .seq (.consumeKeyword _) fun b => ?_
  split
  · refine .previous fun t => .bind h.expectedExpression fun c => ?_
    refine .seq (.expectKeyword _) fun _ => .bind h.lineBody fun s => ?_
    refine .seq (.extentFrom _) fun e => .seq .consumeLineEnd fun _ => ?_
    refine .map h.elseIfLines fun ks hg hks => ?_
    exact List.forall_mem_cons.2 ⟨⟨named?_some hg.1.2, hg.2⟩, hks⟩
  · exact .pure fun _ => by simp [NamedClauses]

theorem elseLine_succ (h : Naming N n) :
    Registers N anyToken H (NamedClauses N) (Reading.elseLine (n + 1)) := by
  rw [Reading.elseLine]
  refine .seq (.consumeKeyword _) fun b => ?_
  split
  · refine .previous fun t => .bind h.lineBody fun s => .seq (.extentFrom _) fun _ => ?_
    refine .seq .consumeLineEnd fun _ => .pure fun hg => ?_
    exact List.forall_mem_singleton.2 ⟨named?_none, hg.2⟩
  · exact .pure fun _ => by simp [NamedClauses]

/-- The names in a conditional are those in its clauses. -/
theorem conditional {e : Extent} {ks : List Clause} (hks : NamedClauses N ks) :
    (Node.conditional e ks).Named N := by
  refine .of rfl ?_ ?_
  · intro c hc
    obtain ⟨k, hk, hc⟩ := List.mem_flatMap.1 hc
    exact (hks k hk).1 c (Option.mem_toList.1 hc)
  · intro c hc
    obtain ⟨k, hk, hc⟩ := List.mem_flatMap.1 hc
    exact (hks k hk).2 c hc

theorem ifStatement_succ (h : Naming N n) (start : Position) :
    Registers N anyToken H (Node.Named N) (Reading.ifStatement (n + 1) start) := by
  rw [Reading.ifStatement]
  refine .bind h.expectedExpression fun c => .seq (.expectKeyword _) fun _ => ?_
  -- the condition, the first body, the other clauses and the last one, as they come to be known
  have hnode : ∀ {e e' : Extent} {s : List Node} {ks ls : List Clause},
      (((H ∧ c.Named N) ∧ AllNamed N s) ∧ NamedClauses N ks) ∧ NamedClauses N ls →
        (Node.conditional e' (.mk e .ifClause (some c) s :: ks ++ ls)).Named N := by
    rintro e e' s ks ls ⟨⟨⟨⟨-, hc⟩, hs⟩, hks⟩, hls⟩
    refine conditional (List.forall_mem_append.2 ⟨List.forall_mem_cons.2 ⟨?_, hks⟩, hls⟩)
    exact ⟨named?_some hc, hs⟩
  refine .current fun t _ => ?_
  split
  · refine .bind h.block.any fun s => .seq (.extentFrom _) fun e => ?_
    refine .bind h.elseIfBlocks fun ks => .bind h.elseBlock fun ls => ?_
    exact .seq (.expectKeyword _) fun _ => .seq (.extentFrom _) fun _ => .pure hnode
  · refine .bind h.lineBody.any fun s => .seq (.extentFrom _) fun e => ?_
    refine .seq .consumeLineEnd fun _ => .bind h.elseIfLines fun ks => ?_
    refine .bind h.elseLine fun ls => .seq (.consumeKeyword _) fun closed => ?_
    split
    · exact .seq .consumeLineEnd fun _ => .seq (.extentFrom _) fun _ => .pure hnode
    · exact .seq (.extentFrom _) fun _ => .pure hnode

theorem whileStatement_succ (h : Naming N n) (start : Position) :
    Registers N anyToken H (Node.Named N) (Reading.whileStatement (n + 1) start) := by
  rw [Reading.whileStatement]
  refine .bind h.expectedExpression fun c => .bind (h.constructBody _) fun s => ?_
  refine .seq (.extentFrom _) fun _ => .pure fun hparts => ?_
  obtain ⟨⟨-, hc⟩, hs⟩ := hparts
  exact .of rfl (by simp [Node.operands, hc]) hs

theorem forStatement_succ (h : Naming N n) (start : Position) :
    Registers N anyToken H (Node.Named N) (Reading.forStatement (n + 1) start) := by
  rw [Reading.forStatement]
  refine .seq (.discard (.consumePunctuator _)) fun _ => .bind .identifier fun v => ?_
  refine .seq (.expectKeyword _) fun _ => .bind h.expectedExpression fun c => ?_
  refine .seq (.discard (.consumePunctuator _)) fun _ => .bind (h.constructBody _) fun s => ?_
  refine .seq (.extentFrom _) fun _ => .pure fun hparts => ?_
  obtain ⟨⟨⟨-, hv⟩, hc⟩, hs⟩ := hparts
  exact .of rfl (by simp [Node.operands, hv, hc]) hs

theorem functionDeclaration_succ (h : Naming N n) (start : Position) :
    Registers N anyToken H (Node.Named N) (Reading.functionDeclaration (n + 1) start) := by
  rw [functionDeclaration_eq]
  have hbody : ∀ {G : Prop} (name : Option String) (ps : Except Node (List Parameter)),
      (G → (∀ x ∈ name, x ∈ N) ∧ NamedParameters N ps) →
        Registers N anyToken G (Node.Named N) (functionBody n start name ps) := by
    intro G name ps hG
    cases ps with
    | error a => exact .pure fun hg => (hG hg).2
    | ok ps =>
      refine .bind (h.constructBody _) fun s => .seq (.extentFrom _) fun _ => ?_
      refine .pure fun hparts => ?_
      obtain ⟨hg, hs⟩ := hparts
      obtain ⟨hname, hps⟩ := hG hg
      refine .mk ?_ ?_ hs
      · intro x hx
        rcases List.mem_append.1 hx with hx | hx
        · exact hname x (Option.mem_toList.1 hx)
        · obtain ⟨q, hq, rfl⟩ := List.mem_map.1 hx
          exact (hps q hq).1
      · intro c hc
        obtain ⟨q, hq, hc⟩ := List.mem_flatMap.1 hc
        exact (hps q hq).2 c (Option.mem_toList.1 hc)
  have hheader : ∀ {G : Prop} (name : Option String), (G → ∀ x ∈ name, x ∈ N) →
      Registers N anyToken G (Node.Named N) (functionRemainder n start name) := by
    intro G name hname
    unfold functionRemainder
    refine .seq (.expectPunctuator _) fun _ => .seq (.consumePunctuator _) fun b => ?_
    split
    · exact hbody name (.ok []) fun hg => ⟨hname hg, by simp [NamedParameters]⟩
    · exact .bind h.parameters fun ps => hbody name ps fun hg => ⟨hname hg.1, hg.2⟩
  refine .current fun t _ => ?_
  dsimp only
  split
  next ht => exact .name ht (hheader _ fun hg => by simpa using hg.2)
  · exact (hheader _ fun _ => by simp).any

theorem parameters_succ (h : Naming N n) :
    Registers N anyToken H (NamedParameters N) (Reading.parameters (n + 1)) := by
  rw [parameters_eq]
  refine .current fun t _ => ?_
  split
  · exact .map (.raise _) fun a _ ha => ha
  next ht =>
    have hrest : ∀ {G : Prop} (d : Option Node), (G → t.value ∈ N ∧ Named? N d) →
        Registers N anyToken G (NamedParameters N) (parametersRemainder n t d) := by
      intro G d hd
      unfold parametersRemainder
      refine .seq (.extentFrom _) fun e => .seq (.consumePunctuator _) fun b => ?_
      split
      · refine .bind h.parameters fun ps => ?_
        cases ps with
        | error a => exact .pure And.right
        | ok ps => exact .pure fun hg => List.forall_mem_cons.2 ⟨hd hg.1, hg.2⟩
      · refine .seq (.expectPunctuator _) fun _ => .pure fun hg => ?_
        exact List.forall_mem_singleton.2 (hd hg)
    have ht : t.isIdentifier = true := by simpa using ht
    refine .note ht (.seq (.consumePunctuator _) fun b => ?_)
    split
    · exact .bind h.expectedExpression.some fun d => hrest d fun hg => ⟨hg.1.2, hg.2⟩
    · exact hrest none fun hg => ⟨hg.2, named?_none⟩

theorem returnStatement_succ (h : Naming N n) (start : Position) (inLine : Bool) :
    Registers N anyToken H (Node.Named N) (Reading.returnStatement (n + 1) start inLine) := by
  rw [Reading.returnStatement]
  refine .bind h.expression fun o => .seq (.extentFrom _) fun e => ?_
  have hnode : H ∧ Named? N o → (Node.returnStatement e o).Named N := fun hg =>
    .of rfl (allNamed_toList hg.2) (by simp [Node.statements])
  dsimp only
  split
  · exact .seq .consumeLineEnd fun _ => .pure hnode
  · exact .pure hnode

/-- Under the bound zero nothing is read. -/
theorem zero : Naming N 0 := by
  constructor <;> intros <;> exact .exhausted

theorem succ (h : Naming N n) : Naming N (n + 1) where
  primary := fun {_} => h.primary_succ
  righthand := fun {_} => h.righthand_succ
  callSuffix := h.callSuffix_succ
  suffixes := h.suffixes_succ
  unaryExpression := h.unaryExpression_succ
  binaryTail := h.binaryTail_succ
  operand := fun {_} => h.operand_succ
  subExpression := h.subExpression_succ
  expression := fun {_} => h.expression_succ
  expectedExpression := fun {_} => h.expectedExpression_succ
  compoundAssignment := h.compoundAssignment_succ
  moreArguments := fun {_} => h.moreArguments_succ
  mapFields := fun {_} => h.mapFields_succ
  listItems := fun {_} => h.listItems_succ
  statementTail := h.statementTail_succ
  assignmentOrCall := fun {_} => h.assignmentOrCall_succ
  statement := h.statement_succ
  block := fun {_} => h.block_succ
  lineBody := fun {_} => h.lineBody_succ
  constructBody := h.constructBody_succ
  elseIfBlocks := fun {_} => h.elseIfBlocks_succ
  elseBlock := fun {_} => h.elseBlock_succ
  elseIfLines := fun {_} => h.elseIfLines_succ
  elseLine := fun {_} => h.elseLine_succ
  ifStatement := h.ifStatement_succ
  whileStatement := h.whileStatement_succ
  forStatement := h.forStatement_succ
  functionDeclaration := h.functionDeclaration_succ
  parameters := fun {_} => h.parameters_succ
  returnStatement := h.returnStatement_succ

end Naming

/-- The productions take note of names as they should. -/
theorem naming (N : List String) (n : Nat) : Naming N n := by
  induction n with
  | zero => exact .zero
  | succ n ih => exact ih.succ

theorem chunkBody_registers (n : Nat) : Registers N anyToken H (AllNamed N) (chunkBody n) := by
  induction n generalizing H with
  | zero => exact .exhausted
  | succ n ih =>
    rw [chunkBody]
    refine .bind (naming N n).block fun body => .current fun t _ => ?_
    split
    · exact .pure And.right
    · refine .bind (.raise _) fun unread => .bind ih.any fun more => .pure ?_
      rintro ⟨⟨⟨-, hbody⟩, hunread⟩, hmore⟩
      exact List.forall_mem_append.2 ⟨hbody, List.forall_mem_cons.2 ⟨hunread, hmore⟩⟩

theorem outline_registers (n : Nat) :
    Registers N Plain H (fun c => AllNamed N c.2.1) (outline n) := by
  unfold outline
  refine .next (fun t ht => ht) (.current fun t _ => ?_)
  refine .bind (chunkBody_registers n).any fun body => .current fun u _ => .pure ?_
  exact fun hg => hg.2

/-- Noting names one by one leaves each of them where it came first. -/
theorem foldl_noted (values names : List String) :
    values.foldl noted names =
      names ++ (values.filter fun x => !names.contains x).eraseDups := by
  induction values generalizing names with
  | nil => simp
  | cons x values ih =>
    rw [List.foldl_cons, ih]
    by_cases hx : x ∈ names
    · simp [noted, hx]
    · rw [show noted names x = names ++ [x] by simp [noted, hx],
        List.filter_cons_of_pos (by simp [hx]), List.eraseDups_cons, List.filter_filter,
        List.append_assoc, List.singleton_append]
      congr 4
      funext y
      simp [Bool.and_comm, beq_eq_decide]

theorem foldl_recorded (ts : List Token) (names : List String) :
    ts.foldl Reader.recorded names =
      ((ts.filter (·.isIdentifier)).map (·.value)).foldl noted names := by
  induction ts generalizing names with
  | nil => rfl
  | cons t ts ih =>
    rw [List.foldl_cons, ih]
    cases ht : t.isIdentifier with
    | true => simp [ht, Reader.recorded]
    | false => simp [ht, Reader.recorded]

end Reading

/-- A source text that is read is read by its outline. -/
theorem parse_eq_ok {mode : ReadingMode} {source : String} {p : Parsed}
    (h : parse mode source = .ok p) :
    ∃ c s, Reading.outline (nestingBound (TokenStream.ofSource mode source).tokens.length)
        (Reader.ofTokens mode.lenient (TokenStream.ofSource mode source)) = .ok c s ∧
      p.chunk = .chunk ⟨c.1, c.2.2⟩ c.2.1 s.names := by
  cases houtline : Reading.outline (nestingBound (TokenStream.ofSource mode source).tokens.length)
      (Reader.ofTokens mode.lenient (TokenStream.ofSource mode source)) with
  | ok c s =>
    rw [parse_of_outline houtline] at h
    cases h
    exact ⟨c, s, rfl, rfl⟩
  | error e s =>
    simp only [parse, TokenStream.parse, Reading.chunk_apply, houtline] at h
    cases e <;> cases h

/-- Tokens up to the end of the source, which comes once, are all tokens but the last. -/
theorem eq_of_append_end {front taken rest : List Token} {e x : Token}
    (h : front ++ [e] = taken ++ x :: rest) (hfront : ∀ t ∈ front, t.isEndOfFile = false)
    (hx : x.isEndOfFile = true) : taken = front := by
  rcases List.eq_nil_or_concat rest with rfl | ⟨rest', y, rfl⟩
  · exact (List.append_inj_left' h rfl).symm
  · have hfront' : front = taken ++ x :: rest' := by
      have hends : front ++ [e] = (taken ++ x :: rest') ++ [y] := by simpa using h
      exact List.append_inj_left' hends rfl
    have hmem := hfront x (by simp [hfront'])
    rw [hx] at hmem
    cases hmem

/-- A strict reading lists the names among the tokens, each where it comes first. -/
theorem parse_strict_names {tabWidth : Nat} {source : String} {p : Parsed}
    (h : parse ⟨false, tabWidth⟩ source = .ok p) :
    ∃ extent body, p.chunk = .chunk extent body
      (((TokenStream.ofSource ⟨false, tabWidth⟩ source).tokens.filter (·.isIdentifier)).map
        (·.value)).eraseDups := by
  obtain ⟨c, s, houtline, hchunk⟩ := parse_eq_ok h
  obtain ⟨htracks, -⟩ := Reading.outline_registers (N := []) (H := True) _
    (TokenStream.ofSource_sound ⟨false, tabWidth⟩ source) rfl houtline
  obtain ⟨taken, htokens, hnames⟩ := htracks.taken rfl
  obtain ⟨ts, _, e, _, hscans, _, he, hstream⟩ := parse_strict_scans h
  -- the reading ends at the end of the source, which only the last token is
  have htaken : taken = Reader.placeholder :: ts :=
    eq_of_append_end (x := s.current) (by simpa [Reader.ofTokens, hstream] using htokens)
      (List.forall_mem_cons.2 ⟨rfl, hscans.not_end⟩) (Reading.outline_ends houtline)
  have hlast : e.isIdentifier = false := by
    have hk : e.kind = .endOfFile := by simpa [Token.isEndOfFile] using he
    simp [Token.isIdentifier, hk]
  refine ⟨_, _, hchunk.trans (congrArg _ ?_)⟩
  rw [hnames, htaken, Reading.foldl_recorded, Reading.foldl_noted, hstream]
  simp [Reader.ofTokens, hlast, show Reader.placeholder.isIdentifier = false from rfl]

/-- The names listed with the tree of a source text are pairwise distinct and all names in the tree
are among them. A strict reading lists the names among the tokens, each where it comes first. -/
theorem parse_names {mode : ReadingMode} {source : String} {p : Parsed}
    (h : parse mode source = .ok p) :
    ∃ extent body names, p.chunk = .chunk extent body names ∧ names.Nodup ∧ p.chunk.Named names ∧
      (mode.lenient = false → names =
        (((TokenStream.ofSource mode source).tokens.filter (·.isIdentifier)).map
          (·.value)).eraseDups) := by
  obtain ⟨c, s, houtline, hchunk⟩ := parse_eq_ok h
  obtain ⟨htracks, hnamed⟩ := Reading.outline_registers (N := s.names) (H := True) _
    (TokenStream.ofSource_sound mode source) rfl houtline
  refine ⟨_, _, _, hchunk, htracks.distinct List.nodup_nil, ?_, fun hstrict => ?_⟩
  · rw [hchunk]
    exact .of rfl (by simp [Node.operands]) (hnamed (List.Subset.refl _) trivial)
  · obtain ⟨_, tabWidth⟩ := mode
    cases hstrict
    obtain ⟨extent, body, hnames⟩ := parse_strict_names h
    rw [hchunk] at hnames
    exact (Node.chunk.inj hnames).2.2

/-- An assignment of a member to a name. -/
def assignedMember : Node :=
  .chunk ⟨⟨1, 1⟩, ⟨1, 8⟩⟩
    [.assignment ⟨⟨1, 1⟩, ⟨1, 8⟩⟩ (.identifier ⟨⟨1, 1⟩, ⟨1, 2⟩⟩ "b")
      (.member ⟨⟨1, 5⟩, ⟨1, 8⟩⟩ (.identifier ⟨⟨1, 5⟩, ⟨1, 6⟩⟩ "a")
        (.identifier ⟨⟨1, 7⟩, ⟨1, 8⟩⟩ "b"))] ["b", "a"]

theorem parse_names_assignedMember :
    parse ⟨false, 1⟩ "b = a.b" = .ok ⟨assignedMember, []⟩ ∧ assignedMember.Named ["b", "a"] ∧
      (((TokenStream.ofSource ⟨false, 1⟩ "b = a.b").tokens.filter (·.isIdentifier)).map
        (·.value)).eraseDups = ["b", "a"] := by
  have hparse : parse ⟨false, 1⟩ "b = a.b" = .ok ⟨assignedMember, []⟩ := by cbv
  obtain ⟨_, _, names, hchunk, -, hnamed, hnames⟩ := parse_names hparse
  cases hchunk
  exact ⟨hparse, hnamed, (hnames rfl).symm⟩

end LineScript
