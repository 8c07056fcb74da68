import LineScript.Proofs.Grammar.Whole

/-!
# Strict and lenient reading

A lenient reading does what a strict one does up to the first error, and then goes on. Main
statement: strict and lenient reading of a source text agree. Where the strict one succeeds, the
lenient one gives the same tree and no errors, and where it fails, its error is the first one of its
kind that the lenient one records.
-/

namespace LineScript

namespace Reader

/-- The place of a lenient reading that has done what a strict one did. What is behind an error that
stopped the strict scanner is ahead of the lenient reading as well. -/
structure Loosened (r r' : Reader) : Prop where
  strict : r.lenient = false
  errors : r.errors = []
  ahead : ∃ more, (r.stop = none → more = []) ∧
    r' = { r with lenient := true, rest := r.rest ++ more, stop := none }

theorem Loosened.lenient {r r' : Reader} (h : r.Loosened r') : r'.lenient = true := by
  obtain ⟨_, _, _, _, rfl⟩ := h
  rfl

theorem Loosened.stop {r r' : Reader} (h : r.Loosened r') : r'.stop = none := by
  obtain ⟨_, _, _, _, rfl⟩ := h
  rfl

theorem Loosened.step {r r' s : Reader} (h : r.Loosened r') (hs : r.step = .ok s) :
    ∃ s', r'.step = .ok s' ∧ s.Loosened s' := by
  obtain ⟨hstrict, herrors, more, hmore, rfl⟩ := h
  obtain ⟨t, rest, hrest, rfl⟩ | ⟨hrest, hstop, rfl⟩ := step_ok hs
  · refine ⟨_, by simp only [Reader.step, hrest, List.cons_append], hstrict, herrors, more,
      hmore, rfl⟩
  · obtain rfl := hmore hstop
    refine ⟨{ r with lenient := true, previous := r.current, rest := [], stop := none },
      by simp [Reader.step, hrest], hstrict, herrors, [], fun _ => rfl, ?_⟩
    simp [hrest]

theorem Loosened.note {r r' : Reader} (h : r.Loosened r') (name : String) :
    (r.note name).Loosened (r'.note name) := by
  obtain ⟨hstrict, herrors, more, hmore, rfl⟩ := h
  unfold Reader.note
  split
  · exact ⟨hstrict, herrors, more, hmore, rfl⟩
  · exact ⟨hstrict, herrors, more, hmore, rfl⟩

end Reader

namespace Reading

open Reader (Leads Loosened)

theorem numberBehindPoint_loosened {r r' : Reader} {b : Bool} (h : r.Loosened r')
    (hb : numberBehindPoint r = .ok b r) : numberBehindPoint r' = .ok b r' := by
  obtain ⟨_, _, more, hmore, rfl⟩ := h
  unfold numberBehindPoint at hb ⊢
  split at hb
  next hdot =>
    rw [if_pos hdot]
    obtain ⟨k, t, hp, hk⟩ := bind_eq_ok.1 hb
    cases hk
    refine bind_eq_ok.2 ⟨k, _, ?_, rfl⟩
    unfold peek at hp ⊢
    split at hp
    next hrest =>
      cases hp
      simp [hrest]
    · cases hp
    next hrest hstop =>
      cases hp
      simp [hrest, hmore hstop]
  next hdot =>
    rw [if_neg hdot]
    cases hb
    rfl

/-- Looking behind a point fails only at an error of the scanner. -/
theorem numberBehindPoint_not_parse (r s : Reader) (e : ParseError) :
    numberBehindPoint r ≠ .error (.sourceError (.parse e)) s := by
  intro h
  unfold numberBehindPoint at h
  split at h
  · rw [bind_apply] at h
    unfold peek at h
    split at h
    · cases h
    next hp =>
      split at hp
      · cases hp
      · cases hp
        cases h
      · cases hp
  · cases h

/-- Lenient reading repeats strict reading. -/
theorem forward_loosened : Forward .same (fun _ => True) Loosened where
  strict h := h.strict
  limit _ _ := trivial
  current h := by
    obtain ⟨_, _, _, _, rfl⟩ := h
    rfl
  previous h := by
    obtain ⟨_, _, _, _, rfl⟩ := h
    rfl
  step h hs _ := h.step hs
  point h _ hb := numberBehindPoint_loosened h hb
  note name h := h.note name

namespace Alike

variable {α : Type} {V : α → α → Prop} {x y : Reading α}

/-- A lenient reading succeeds unless it is exhausted. -/
theorem lenient (h : Alike .same false true true V x y) {r : Reader} (hl : r.lenient = true)
    (hs : r.stop = none) : (∃ s, y r = .error .exhausted s) ∨
      ∃ b s, y r = .ok b s ∧ (∃ a, V a b) ∧ r.Leads s := by
  induction h generalizing r with
  | pure hab => exact .inr ⟨_, r, rfl, ⟨_, hab⟩, Leads.refl r⟩
  | bind _ _ ihx ihk =>
    rw [bind_apply]
    obtain ⟨s, hy⟩ | ⟨b, s, hy, ⟨a, hab⟩, hrs⟩ := ihx hl hs
    · exact .inl ⟨s, by rw [hy]⟩
    · rw [hy]
      have := ihk a b hab (hrs.lenient.trans hl) (hrs.stop.trans hs)
      refine this.imp_right ?_
      rintro ⟨c, t, hc, hV, hst⟩
      exact ⟨c, t, hc, hV, hrs.trans hst⟩
  | exhausted h =>
    obtain h | rfl := h
    · cases h
    · exact .inl ⟨r, rfl⟩
  | current => exact .inr ⟨_, r, rfl, ⟨r.current, rfl⟩, Leads.refl r⟩
  | previous => exact .inr ⟨_, r, rfl, ⟨r.previous, rfl⟩, Leads.refl r⟩
  | advance =>
    cases hstep : r.step with
    | ok s => exact .inr ⟨(), s, advance_of_step hstep, ⟨(), trivial⟩, Reader.leads_of_step hstep⟩
    | error e =>
      obtain ⟨_, l, hl, _⟩ := Reader.step_error hstep
      rw [hs] at hl
      cases hl
  | point =>
    have hpoint : ∃ b, numberBehindPoint r = .ok b r := by
      unfold numberBehindPoint
      split
      · rw [bind_apply]
        cases hrest : r.rest with
        | nil => exact ⟨r.current.kind == .number, by simp [peek, hrest, hs]; rfl⟩
        | cons t rest => exact ⟨t.kind == .number, by simp [peek, hrest]; rfl⟩
      · exact ⟨false, rfl⟩
    obtain ⟨b, hb⟩ := hpoint
    exact .inr ⟨b, r, hb, ⟨b, rfl⟩, Leads.refl r⟩
  | @raise V f _ hV =>
    exact .inr ⟨_, _, raise_lenient hl _, ⟨_, hV rfl _⟩, leads_raise _⟩
  | note name => exact .inr ⟨(), r.note name, rfl, ⟨(), trivial⟩, r.leads_note name⟩

/-- Where a strict reading fails at a token, a lenient one records the same error first. -/
theorem recorded (h : Alike .same false true true V x y) {r r' s : Reader} {e : ParseError}
    (hr : r.Loosened r') (hx : x r = .error (.sourceError (.parse e)) s) :
    (∃ s', y r' = .error .exhausted s') ∨ ∃ b s', y r' = .ok b s' ∧ [e] <+: s'.errors := by
  induction h generalizing r r' with
  | pure _ => cases hx
  | @bind α β V W x y k l hxy hk ihx ihk =>
    rw [bind_apply] at hx ⊢
    cases hxr : x r with
    | ok a t =>
      rw [hxr] at hx
      obtain ⟨b, t', hy, hab, ht⟩ := hxy.forward forward_loosened hr hxr trivial
      rw [hy]
      exact ihk a b hab ht hx
    | error e' t =>
      rw [hxr] at hx
      cases hx
      obtain ⟨s', hy⟩ | ⟨b, s', hy, hpre⟩ := ihx hr hxr
      · exact .inl ⟨s', by rw [hy]⟩
      -- The error is recorded in front; what follows only adds to it.
      · obtain ⟨_, hy'⟩ | ⟨b', s'', hy', ⟨a, hab⟩, hlead⟩ := hxy.lenient hr.lenient hr.stop
        · rw [hy] at hy'
          cases hy'
        · rw [hy] at hy'
          cases hy'
          rw [hy]
          have hrest := (hk a b hab).lenient (hlead.lenient.trans hr.lenient)
            (hlead.stop.trans hr.stop)
          refine hrest.imp_right ?_
          rintro ⟨c, u, hc, _, hu⟩
          exact ⟨c, u, hc, hpre.trans hu.errors⟩
  | exhausted _ => cases hx
  | current | previous | note => cases hx
  | advance =>
    unfold Reading.advance at hx
    split at hx
    · cases hx
    next hstep =>
      obtain ⟨_, _, _, rfl⟩ := Reader.step_error hstep
      cases hx
  | point => exact absurd hx (numberBehindPoint_not_parse r s e)
  | @raise V f _ hV =>
    rw [raise_strict hr.strict] at hx
    cases hx
    refine .inr ⟨_, _, raise_lenient hr.lenient _, ?_⟩
    obtain ⟨_, herrors, more, _, rfl⟩ := hr
    simp [herrors, Placement.same]

end Alike

/-- An error of the scanner is met where the tokens end. -/
theorem Alike.stopped {α : Type} {p : Placement} {slack stray allow : Bool} {V : α → α → Prop}
    {x y : Reading α} (h : Alike p slack stray allow V x y) {r s : Reader} {e : LexError}
    (hl : r.lenient = true → allow = true)
    (hx : x r = .error (.sourceError (.lex e)) s) : r.stop = some e := by
  induction h generalizing r with
  | pure _ => cases hx
  | @bind α β V W x y k l hxy hk ihx ihk =>
    rw [bind_apply] at hx
    cases hxr : x r with
    | ok a t =>
      rw [hxr] at hx
      obtain ⟨⟨b, hab⟩, hrt⟩ := hxy.leads hl hxr
      exact hrt.stop ▸ ihk a b hab (fun ht => hl (hrt.lenient ▸ ht)) hx
    | error e' t =>
      rw [hxr] at hx
      cases hx
      exact ihx hl hxr
  | exhausted _ => cases hx
  | current | previous | note => cases hx
  | advance =>
    unfold Reading.advance at hx
    split at hx
    · cases hx
    next hstep =>
      obtain ⟨_, _, hstop, rfl⟩ := Reader.step_error hstep
      cases hx
      exact hstop
  | point =>
    unfold numberBehindPoint at hx
    split at hx
    · rw [bind_apply] at hx
      unfold peek at hx
      split at hx
      · cases hx
      next hp =>
        split at hp
        · cases hp
        next hstop =>
          cases hp
          cases hx
          exact hstop
        · cases hp
    · cases hx
  | raise _ _ =>
    unfold Reading.raise at hx
    dsimp only at hx
    split at hx <;> cases hx

end Reading

open Reading

/-- Whether two errors are both of characters or both of tokens. -/
def SourceError.sameKind : SourceError → SourceError → Bool
  | .lex _, .lex _ => true
  | .parse _, .parse _ => true
  | _, _ => false

/-- A lenient reader of a source text starts where a strict one does. -/
theorem TokenStream.loosened (tabWidth : Nat) (source : String) :
    (Reader.ofTokens false (ofSource ⟨false, tabWidth⟩ source)).Loosened
      (Reader.ofTokens true (ofSource ⟨true, tabWidth⟩ source)) := by
  obtain ⟨_, h⟩ := ofSource_strict_lenient tabWidth source
  have hstop := ofSource_lenient tabWidth source
  generalize ofSource ⟨false, tabWidth⟩ source = strict at h ⊢
  generalize ofSource ⟨true, tabWidth⟩ source = lenient at h hstop ⊢
  refine ⟨rfl, rfl, ?_⟩
  split at h
  next hs => exact ⟨[], fun _ => rfl, by simp [Reader.ofTokens, hstop, h.1]⟩
  next e hs =>
    obtain ⟨⟨more, hmore⟩, _⟩ := h
    exact ⟨more, by simp [Reader.ofTokens, hs], by simp [Reader.ofTokens, hstop, hmore]⟩

section

variable (tabWidth : Nat) (source : String)

/-- A lenient reading of a source text succeeds. -/
theorem outline_lenient : ∃ c s,
    outline (nestingBound (TokenStream.ofSource ⟨true, tabWidth⟩ source).tokens.length)
      (Reader.ofTokens true (TokenStream.ofSource ⟨true, tabWidth⟩ source)) = .ok c s := by
  have hsound := TokenStream.ofSource_sound ⟨true, tabWidth⟩ source
  obtain ⟨s, hs⟩ | ⟨c, s, hs, _⟩ := (outline_alike (.inl rfl)).lenient
    (r := Reader.ofTokens true (TokenStream.ofSource ⟨true, tabWidth⟩ source)) rfl
    (TokenStream.ofSource_lenient tabWidth source)
  · exact absurd hs (outline_unexhausted hsound)
  · exact ⟨c, s, hs⟩

theorem nestingBound_le :
    nestingBound (TokenStream.ofSource ⟨false, tabWidth⟩ source).tokens.length ≤
      nestingBound (TokenStream.ofSource ⟨true, tabWidth⟩ source).tokens.length := by
  obtain ⟨_, _, more, _, h⟩ := TokenStream.loosened tabWidth source
  have := congrArg (·.rest.length) h
  simp only [Reader.ofTokens, List.length_append] at this
  unfold nestingBound
  omega

variable {tabWidth source}

/-- What a strict reading gives, a lenient one gives, and no error of the scanner is in the way. -/
theorem outline_strict_ok {c : Position × List Node × Position} {s : Reader}
    (h : outline (nestingBound (TokenStream.ofSource ⟨false, tabWidth⟩ source).tokens.length)
      (Reader.ofTokens false (TokenStream.ofSource ⟨false, tabWidth⟩ source)) = .ok c s) :
    ∃ s', outline (nestingBound (TokenStream.ofSource ⟨true, tabWidth⟩ source).tokens.length)
        (Reader.ofTokens true (TokenStream.ofSource ⟨true, tabWidth⟩ source)) = .ok c s' ∧
      s.Loosened s' ∧ (TokenStream.ofSource ⟨false, tabWidth⟩ source).stop = none := by
  have hdeep := outline_deep (nestingBound_le tabWidth source)
    (Reader.ofTokens false (TokenStream.ofSource ⟨false, tabWidth⟩ source))
  rw [h] at hdeep
  obtain ⟨_, hc', hsame⟩ := hdeep
  rw [hsame] at hc'
  obtain ⟨⟨c₁, c₂, c₃⟩, s', hs', ⟨h₁, h₂, h₃⟩, hloose⟩ := (outline_built true _).forward
    forward_loosened
    (TokenStream.loosened tabWidth source) hc' trivial
  obtain rfl : c = (c₁, c₂, c₃) := Prod.ext h₁.symm (Prod.ext h₂.eq.symm h₃.symm)
  exact ⟨s', hs', hloose, outline_stop h⟩

/-- An error at a token that stops a strict reading is the first that a lenient one records. -/
theorem outline_strict_error {e : ParseError} {s : Reader}
    (h : outline (nestingBound (TokenStream.ofSource ⟨false, tabWidth⟩ source).tokens.length)
      (Reader.ofTokens false (TokenStream.ofSource ⟨false, tabWidth⟩ source)) =
        .error (.sourceError (.parse e)) s) :
    ∃ c s', outline (nestingBound (TokenStream.ofSource ⟨true, tabWidth⟩ source).tokens.length)
        (Reader.ofTokens true (TokenStream.ofSource ⟨true, tabWidth⟩ source)) = .ok c s' ∧
      [e] <+: s'.errors := by
  have hdeep := (outline_alike (.inr ⟨rfl, nestingBound_le tabWidth source⟩)).deepens
    (Reader.ofTokens false (TokenStream.ofSource ⟨false, tabWidth⟩ source))
  rw [h] at hdeep
  obtain ⟨s', hs'⟩ | ⟨c, s', hs', hpre⟩ := (outline_alike (.inl rfl)).recorded
    (TokenStream.loosened tabWidth source) hdeep
  · exact absurd hs' (outline_unexhausted (TokenStream.ofSource_sound ⟨true, tabWidth⟩ source))
  · exact ⟨c, s', hs', hpre⟩

end

/-- Strict and lenient reading agree. The lenient one always succeeds. If the strict one does, its
tree holds no unread text, and the lenient one gives the same tree and no errors; if it does not,
its error is the first one of its kind that the lenient one records. -/
theorem parse_strict_lenient (tabWidth : Nat) (source : String) :
    ∃ forced, parse ⟨true, tabWidth⟩ source = .ok forced ∧
      match parse ⟨false, tabWidth⟩ source with
      | .ok out => out.errors = [] ∧ out.chunk.Everywhere (fun n => n.isInvalid = false) ∧
          forced = ⟨out.chunk, []⟩
      | .error e => e ∈ forced.errors ∧ forced.errors.find? e.sameKind = some e := by
  obtain ⟨hnone, hstream⟩ := TokenStream.ofSource_strict_lenient tabWidth source
  cases hs : outline (nestingBound (TokenStream.ofSource ⟨false, tabWidth⟩ source).tokens.length)
      (Reader.ofTokens false (TokenStream.ofSource ⟨false, tabWidth⟩ source)) with
  | ok c s =>
    obtain ⟨s', hs', ⟨_, herrors, more, _, rfl⟩, hstop⟩ := outline_strict_ok hs
    refine ⟨_, parse_of_outline hs', ?_⟩
    rw [parse_of_outline hs]
    rw [hstop] at hstream
    obtain ⟨⟨_, _, ⟨_, hwf⟩, _⟩, _⟩ := (outline_built false _).leads
      (by simp [Reader.ofTokens]) hs
    refine ⟨by simp [hnone, herrors], ?_, by simp [hstream.2, herrors]⟩
    refine .mk rfl (by simp [Node.operands]) fun n hn => ?_
    exact (hwf n hn).mono fun m hm => by simpa using hm.1
  | error i s =>
    cases i with
    | exhausted =>
      exact absurd hs (outline_unexhausted (TokenStream.ofSource_sound ⟨false, tabWidth⟩ source))
    | sourceError e =>
      rw [parse_of_outline_error hs]
      cases e with
      | parse e =>
        obtain ⟨c, s', hs', more, hmore⟩ := outline_strict_error hs
        refine ⟨_, parse_of_outline hs', ?_, ?_⟩
        · simp [← hmore]
        · rw [List.find?_append, ← hmore]
          simp [SourceError.sameKind, List.find?_map, Function.comp_def]
      | lex e =>
        have hstop : (TokenStream.ofSource ⟨false, tabWidth⟩ source).stop = some e :=
          (outline_built true _).stopped (fun _ => rfl) hs
        rw [hstop] at hstream
        obtain ⟨_, more, hmore⟩ := hstream
        obtain ⟨c, s', hs'⟩ := outline_lenient tabWidth source
        refine ⟨_, parse_of_outline hs', ?_, ?_⟩
        · simp [← hmore]
        · simp [← hmore, SourceError.sameKind]

end LineScript
