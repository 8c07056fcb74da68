import LineScript.Proofs.Grammar.Progress

/-!
# Reading the same tokens at another place

Strict reading of tokens that were put to another place succeeds if and only if reading them at
their first place does, with the same tree at the other place. A statement does not depend on the
token in front of it either, because it moves before it looks back.
-/

namespace LineScript

namespace Reader

/-- The same tokens are ahead, at other places. -/
structure Faces (p : Placement) (r r' : Reader) : Prop where
  strict : r.lenient = false
  strict' : r'.lenient = false
  stop : r.stop = none
  stop' : r'.stop = none
  current : r'.current = r.current.relocate p
  rest : r'.rest = r.rest.map (Token.relocate p)

/-- The same tokens are ahead and behind, at other places. -/
structure Mirrors (p : Placement) (r r' : Reader) : Prop extends Faces p r r' where
  previous : r'.previous = r.previous.relocate p

variable {p : Placement} {r r' s : Reader}

theorem Faces.step (h : Faces p r r') :
    ∃ s s', r.step = .ok s ∧ r'.step = .ok s' ∧ Mirrors p s s' := by
  obtain ⟨h₁, h₂, h₃, h₄, h₅, h₆⟩ := h
  unfold Reader.step
  cases hr : r.rest with
  | nil =>
    simp only [hr, List.map_nil] at h₆
    simp only [h₆, h₃, h₄]
    exact ⟨_, _, rfl, rfl, ⟨h₁, h₂, rfl, rfl, h₅, rfl⟩, h₅⟩
  | cons t rest =>
    simp only [hr, List.map_cons] at h₆
    simp only [h₆]
    exact ⟨_, _, rfl, rfl, ⟨h₁, h₂, h₃, h₄, rfl, rfl⟩, h₅⟩

theorem Faces.note (h : Faces p r r') (name : String) :
    Faces p (r.note name) (r'.note name) := by
  obtain ⟨h₁, h₂, h₃, h₄, h₅, h₆⟩ := h
  unfold Reader.note
  split <;> split <;> exact ⟨h₁, h₂, h₃, h₄, h₅, h₆⟩

theorem previous_note (r : Reader) (name : String) : (r.note name).previous = r.previous := by
  unfold note
  split <;> rfl

theorem Mirrors.note (h : Mirrors p r r') (name : String) :
    Mirrors p (r.note name) (r'.note name) :=
  ⟨h.toFaces.note name, by rw [previous_note, previous_note, h.previous]⟩

end Reader

namespace Reading

open Reader (Faces Mirrors)

variable {α β : Type} {p : Placement}

/-- Both readings succeed, with related results at related places, or both fail. -/
def Matches (V : α → β → Prop) (R : Reader → Reader → Prop) :
    EStateM.Result Interruption Reader α → EStateM.Result Interruption Reader β → Prop
  | .ok a s, .ok b s' => V a b ∧ R s s'
  | .error _ _, .error _ _ => True
  | _, _ => False

theorem Matches.ok {V : α → β → Prop} {R : Reader → Reader → Prop} {a : α} {s : Reader}
    {z : EStateM.Result Interruption Reader β} (h : Matches V R (.ok a s) z) :
    ∃ b s', z = .ok b s' ∧ V a b ∧ R s s' := by
  cases z with
  | ok b s' => exact ⟨b, s', rfl, h⟩
  | error e s' => exact h.elim

theorem Matches.ok_right {V : α → β → Prop} {R : Reader → Reader → Prop} {b : β} {s' : Reader}
    {z : EStateM.Result Interruption Reader α} (h : Matches V R z (.ok b s')) :
    ∃ a s, z = .ok a s ∧ V a b ∧ R s s' := by
  cases z with
  | ok a s => exact ⟨a, s, rfl, h⟩
  | error e s => exact h.elim

theorem Matches.mono {V : α → β → Prop} {R S : Reader → Reader → Prop}
    {z : EStateM.Result Interruption Reader α} {w : EStateM.Result Interruption Reader β}
    (h : Matches V R z w) (hRS : ∀ s s', R s s' → S s s') : Matches V S z w := by
  cases z <;> cases w
  · exact ⟨h.1, hRS _ _ h.2⟩
  all_goals exact h

theorem Matches.bind {γ δ : Type} {V : α → β → Prop} {W : γ → δ → Prop}
    {R S : Reader → Reader → Prop} {x : Reading α} {y : Reading β} {k : α → Reading γ}
    {l : β → Reading δ} {r r' : Reader} (hx : Matches V R (x r) (y r'))
    (hk : ∀ a b s s', V a b → R s s' → Matches W S (k a s) (l b s')) :
    Matches W S ((x >>= k) r) ((y >>= l) r') := by
  rw [bind_apply, bind_apply]
  cases hxr : x r with
  | ok a s =>
    rw [hxr] at hx
    obtain ⟨b, s', hy, hV, hR⟩ := hx.ok
    rw [hy]
    exact hk a b s s' hV hR
  | error e s =>
    rw [hxr] at hx
    cases hyr : y r' with
    | ok b s' =>
      rw [hyr] at hx
      exact hx.elim
    | error e' s' => trivial

theorem numberBehindPoint_faces {r r' : Reader} (h : Faces p r r') :
    ∃ b, numberBehindPoint r = .ok b r ∧ numberBehindPoint r' = .ok b r' := by
  obtain ⟨_, _, h₃, h₄, h₅, h₆⟩ := h
  unfold numberBehindPoint
  rw [h₅, Token.isPunctuator_relocate]
  split
  · rw [bind_apply, bind_apply]
    cases hr : r.rest with
    | nil =>
      simp only [hr, List.map_nil] at h₆
      refine ⟨r.current.kind == .number, ?_, ?_⟩
      · simp [peek, hr, h₃]
        rfl
      · simp [peek, h₆, h₄, h₅]
        rfl
    | cons t rest =>
      simp only [hr, List.map_cons] at h₆
      refine ⟨t.kind == .number, ?_, ?_⟩
      · simp [peek, hr]
        rfl
      · simp [peek, h₆]
        rfl
  · exact ⟨false, rfl, rfl⟩

/-- Reading at another place gives the same at the other place. -/
theorem Alike.mirror {stray allow : Bool} {V : α → α → Prop} {x y : Reading α}
    (h : Alike p false stray allow V x y) {r r' : Reader} (hr : Mirrors p r r') :
    Matches V (Mirrors p) (x r) (y r') := by
  induction h generalizing r r' with
  | pure hab => exact ⟨hab, hr⟩
  | bind _ _ ihx ihk => exact (ihx hr).bind fun a b s s' hab hs => ihk a b hab hs
  | exhausted h =>
    obtain h | rfl := h
    · cases h
    · trivial
  | current => exact ⟨hr.current, hr⟩
  | previous => exact ⟨hr.previous, hr⟩
  | advance =>
    obtain ⟨s, s', hs, hs', hm⟩ := hr.toFaces.step
    rw [advance_of_step hs, advance_of_step hs']
    exact ⟨trivial, hm⟩
  | point =>
    obtain ⟨b, hb, hb'⟩ := numberBehindPoint_faces hr.toFaces
    rw [hb, hb']
    exact ⟨rfl, hr⟩
  | raise _ _ =>
    rw [raise_strict hr.strict, raise_strict hr.strict']
    trivial
  | note name => exact ⟨trivial, hr.note name⟩

/-- At a token for which `P` holds, the readings do the same at another place, whatever is behind;
where they succeed they have moved. -/
def Starts (p : Placement) (P : Token → Prop) (V : α → α → Prop) (x y : Reading α) : Prop :=
  ∀ r r' : Reader, Faces p r r' → P r.current → Matches V (Mirrors p) (x r) (y r')

namespace Starts

variable {P : Token → Prop} {V : α → α → Prop} {W : β → β → Prop} {x y : Reading α}

theorem weaken {Q : Token → Prop} (h : Starts p Q V x y) (hPQ : ∀ t, P t → Q t) :
    Starts p P V x y :=
  fun r r' hr hP => h r r' hr (hPQ _ hP)

theorem bind {k l : α → Reading β} (hx : Starts p P V x y)
    (hk : ∀ a b, V a b → Alike p false false true W (k a) (l b)) :
    Starts p P W (x >>= k) (y >>= l) :=
  fun r r' hr hP => (hx r r' hr hP).bind fun a b _ _ hab hs => (hk a b hab).mirror hs

theorem map {f g : α → β} (hx : Starts p P V x y) (hf : ∀ a b, V a b → W (f a) (g b)) :
    Starts p P W (f <$> x) (g <$> y) := by
  rw [map_eq_pure_bind, map_eq_pure_bind]
  exact .bind hx fun a b hab => .pure (hf a b hab)

theorem current {k l : Token → Reading β} (hk : ∀ t, P t →
    Starts p (· = t) W (k t) (l (t.relocate p))) :
    Starts p P W (Reading.current >>= k) (Reading.current >>= l) := by
  intro r r' hr hP
  have := hk r.current hP r r' hr rfl
  rw [← hr.current] at this
  exact this

theorem next {k l : Reading β} (hk : Alike p false false true W k l) :
    Starts p P W (Reading.advance >>= fun _ => k) (Reading.advance >>= fun _ => l) := by
  intro r r' hr _
  obtain ⟨s, s', hs, hs', hm⟩ := hr.step
  rw [bind_apply, bind_apply, advance_of_step hs, advance_of_step hs']
  exact hk.mirror hm

theorem note {name : String} {k l : Reading β} (hk : Starts p P W k l) :
    Starts p P W (Reading.note name >>= fun _ => k) (Reading.note name >>= fun _ => l) := by
  intro r r' hr hP
  exact hk (r.note name) (r'.note name) (hr.note name) (by rwa [Reader.current_note])

theorem raise {V : Node → Node → Prop} (f g : ParseFault) :
    Starts p P V (Reading.raise f) (Reading.raise g) := by
  intro r r' hr _
  rw [raise_strict hr.strict, raise_strict hr.strict']
  trivial

theorem exhausted : Starts p P V exhausted exhausted := fun _ _ _ _ => trivial

end Starts

theorem placed (p : Placement) (n : Nat) : Level p false false true n n := level (.inl rfl)

theorem identifier_starts :
    Starts p (·.isIdentifier = true) (p.operand true) identifier identifier := by
  unfold identifier
  refine .current fun t ht => ?_
  rw [Token.isIdentifier_relocate, if_pos ht, if_pos ht]
  exact .note (.next (.pure ⟨rfl, rfl, .leaf rfl rfl rfl⟩))

theorem literal_starts {P : Token → Prop} : Starts p P (p.operand true) literal literal := by
  unfold literal
  exact .current fun t _ => .next (.pure ⟨rfl, rfl, .leaf rfl rfl rfl⟩)

theorem primary_starts (n : Nat) :
    Starts p opensOperand (p.operand? true) (primary n) (primary n) := by
  cases n with
  | zero => exact .exhausted
  | succ n =>
    rw [primary_eq]
    refine .current fun t ht => ?_
    rw [Token.isLiteral_relocate, Token.kind_relocate]
    split
    · refine .bind literal_starts fun a b hab => .bind .current ?_
      rintro u _ rfl
      rw [Token.isPunctuator_relocate]
      split
      · exact ((placed p n).suffixes hab).someOperand
      · exact .pure ⟨by rw [hab.1]; rfl, by simp [hab.2]⟩
    next hl =>
      obtain ht | ht | ht := ht
      · exact absurd ht hl
      · simp only [ht]
        refine .next (.bind (placed p n).mapFields ?_)
        rintro fs _ ⟨rfl, hfs⟩
        refine .bind (.extentFrom t.start) ?_
        rintro e _ rfl
        exact ((placed p n).suffixes ⟨by simp [Node.relocate], .mapLiteral hfs⟩).someOperand
      · simp only [ht]
        refine .next (.bind (placed p n).listItems ?_)
        rintro ns _ ⟨rfl, hns⟩
        refine .seq (.expectPunctuator _) (.bind (.extentFrom t.start) ?_)
        rintro e _ rfl
        exact ((placed p n).suffixes ⟨by simp [Node.relocate], .listLiteral hns⟩).someOperand

theorem operand_starts (n : Nat) :
    Starts p opensOperand (p.operand? true) (operand n) (operand n) := by
  cases n with
  | zero => exact .exhausted
  | succ n =>
    rw [operand]
    refine .bind (primary_starts n) ?_
    rintro o _ ⟨rfl, ho⟩
    cases o with
    | none => exact (placed p n).righthand
    | some e => exact .pure ⟨rfl, ho⟩

theorem subExpression_starts (n bound : Nat) :
    Starts p opensOperand (p.operand? true) (subExpression n bound) (subExpression n bound) := by
  cases n with
  | zero => exact .exhausted
  | succ n =>
    rw [subExpression]
    refine .current fun t ht => ?_
    rw [Token.unaryOperator_relocate, unaryOperator_of_opensOperand ht]
    refine .bind ((operand_starts n).weaken fun u hu => hu ▸ ht) ?_
    rintro o _ ⟨rfl, ho⟩
    cases o with
    | none => exact .pure ⟨rfl, by simp⟩
    | some e => exact ((placed p n).binaryTail bound ⟨rfl, ho e rfl⟩).someOperand

theorem expression_starts (n : Nat) :
    Starts p opensOperand (p.operand? true) (expression n) (expression n) := by
  cases n with
  | zero => exact .exhausted
  | succ n =>
    rw [expression]
    exact subExpression_starts n 0

theorem expectedExpression_starts (n : Nat) :
    Starts p opensOperand (p.operand true) (expectedExpression n) (expectedExpression n) := by
  cases n with
  | zero => exact .exhausted
  | succ n =>
    rw [expectedExpression]
    refine .bind (expression_starts n) ?_
    rintro o _ ⟨rfl, ho⟩
    cases o with
    | none => exact .raiseOperand .unexpectedExpression (by simp)
    | some e => exact .pure ⟨rfl, ho e rfl⟩

theorem assignmentOrCall_starts (n : Nat) :
    Starts p anyToken (p.statement true) (assignmentOrCall n) (assignmentOrCall n) := by
  cases n with
  | zero => exact .exhausted
  | succ n =>
    rw [assignmentOrCall]
    refine .current fun t _ => ?_
    have opened : opensOperand t → Starts p (· = t) (p.statement true)
        (do
          let e ← expectedExpression n
          statementTail n t e)
        (do
          let e ← expectedExpression n
          statementTail n (t.relocate p) e) := fun ht =>
      .bind ((expectedExpression_starts n).weaken fun u hu => hu ▸ ht)
        fun a b hab => (placed p n).statementTail t hab
    rw [Token.kind_relocate, Token.isValueLiteral_relocate]
    split
    next hk =>
      refine .bind (identifier_starts.weaken fun u hu => ?_)
        fun a b hab => (placed p n).statementTail t hab
      simp [Token.isIdentifier, hu, hk]
    · refine .next (.bind (placed p n).expectedExpression fun a b hab => ?_)
      exact .seq (.expectPunctuator _) ((placed p n).statementTail t hab)
    next hk => exact opened (.inr (.inr hk))
    next hk => exact opened (.inr (.inl hk))
    · split
      next hl => exact opened (.inl (by simp [Token.isLiteral, hl]))
      · exact .raise _ _

/-- A statement does not depend on what is behind it. -/
theorem statement_starts (n : Nat) (inLine : Bool) :
    Starts p anyToken (p.statement? true) (statement n inLine) (statement n inLine) := by
  cases n with
  | zero => exact .exhausted
  | succ n =>
    rw [statement]
    refine .current fun t _ => ?_
    have leaf : ∀ {m : Node}, m.isInvalid = false → m.operands = [] → m.statements = [] →
        p.statement? true (some m) (some (m.relocate p.place)) := by
      intro m h₁ h₂ h₃
      exact ⟨rfl, by simpa using Node.WellFormed.leaf h₁ h₂ h₃⟩
    rw [Token.kind_relocate]
    split
    · exact .next (.pure ⟨rfl, by simp⟩)
    · exact .next ((placed p n).ifStatement _).someStatement
    · exact .next ((placed p n).returnStatement _ _).someStatement
    · exact .next (((placed p n).functionDeclaration _).weaken
        fun _ _ h => h.statement).someStatement
    · exact .next ((placed p n).whileStatement _).someStatement
    · exact .next ((placed p n).forStatement _).someStatement
    · exact .next (.pure (leaf rfl rfl rfl))
    · exact .next (.pure (leaf rfl rfl rfl))
    · exact .next (.pure (leaf rfl rfl rfl))
    · exact .next (Alike.importStatement _).someStatement
    · refine .map ((assignmentOrCall_starts n).weaken fun _ _ => trivial) fun a b hab => ?_
      exact ⟨by rw [hab.1]; rfl, by simpa using hab.2⟩

/-- The statements up to the end of a block do not depend on what is behind them. -/
theorem block_faces (n : Nat) {r r' : Reader} (hr : Faces p r r') :
    Matches (p.statements true) (Faces p) (block n r) (block n r') := by
  cases n with
  | zero => trivial
  | succ n =>
    rw [block]
    refine Matches.bind (V := fun t u => u = t.relocate p) (R := fun s s' => s = r ∧ s' = r')
      ⟨hr.current, rfl, rfl⟩ ?_
    rintro t _ s s' rfl ⟨rfl, rfl⟩
    rw [Token.endsBlock_relocate]
    split
    · exact ⟨⟨rfl, by simp⟩, hr⟩
    · refine (statement_starts n false s s' hr trivial).bind fun a b u u' hab hu => ?_
      have rest : Alike p false false true (p.statements true)
          (do
            consumeLineEnd
            (a.toList ++ ·) <$> block n)
          (do
            consumeLineEnd
            (b.toList ++ ·) <$> block n) := by
        obtain ⟨rfl, ha⟩ := hab
        refine .seq .consumeLineEnd ((placed p n).block.map ?_)
        rintro c _ ⟨rfl, hc⟩
        refine ⟨by cases a <;> simp, ?_⟩
        intro m hm
        obtain hm | hm := List.mem_append.1 hm
        · exact ha m (Option.mem_toList.1 hm)
        · exact hc m hm
      exact (rest.mirror hu).mono fun _ _ h => h.toFaces

end Reading

end LineScript
