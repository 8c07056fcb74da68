import LineScript.Proofs.Grammar.Alike

/-!
# What alike readings have in common

A reading only ever moves forward, and only adds to the errors that were recorded. A successful
strict reading is repeated by any alike reading whose tokens agree with its own as far as it goes,
and a deeper bound changes nothing but exhaustion.
-/

namespace LineScript

namespace Reader

/-- Reading leads from one place to another: the tokens ahead are a suffix of those that were ahead,
and errors were only added. -/
structure Leads (r s : Reader) : Prop where
  tokens : s.current :: s.rest <:+ r.current :: r.rest
  stop : s.stop = r.stop
  lenient : s.lenient = r.lenient
  errors : r.errors <+: s.errors

namespace Leads

theorem refl (r : Reader) : r.Leads r :=
  ⟨List.suffix_rfl, rfl, rfl, List.prefix_rfl⟩

theorem trans {r s t : Reader} (hrs : r.Leads s) (hst : s.Leads t) : r.Leads t :=
  ⟨hst.tokens.trans hrs.tokens, hst.stop.trans hrs.stop, hst.lenient.trans hrs.lenient,
    hrs.errors.trans hst.errors⟩

theorem length_le {r s : Reader} (h : r.Leads s) : s.rest.length ≤ r.rest.length := by
  have := h.tokens.length_le
  simpa using this

end Leads

/-- A step goes to the next token, or stays at the end of the tokens. -/
theorem step_ok {r s : Reader} (h : r.step = .ok s) :
    (∃ t rest, r.rest = t :: rest ∧
      s = { r with previous := r.current, current := t, rest := rest }) ∨
    (r.rest = [] ∧ r.stop = none ∧ s = { r with previous := r.current }) := by
  unfold step at h
  split at h
  next t rest hrest =>
    cases h
    exact .inl ⟨t, rest, hrest, rfl⟩
  next hrest =>
    split at h
    · cases h
    next hstop =>
      cases h
      exact .inr ⟨hrest, hstop, rfl⟩

/-- A step fails only at an error of the scanner. -/
theorem step_error {r : Reader} {e : Interruption} (h : r.step = .error e) :
    r.rest = [] ∧ ∃ l, r.stop = some l ∧ e = .sourceError (.lex l) := by
  unfold step at h
  split at h
  · cases h
  next hrest =>
    split at h
    next l hstop =>
      cases h
      exact ⟨hrest, l, hstop, rfl⟩
    · cases h

theorem leads_of_step {r s : Reader} (h : r.step = .ok s) : r.Leads s := by
  obtain ⟨t, rest, hrest, rfl⟩ | ⟨hrest, _, rfl⟩ := step_ok h
  · exact ⟨by simp [hrest], rfl, rfl, List.prefix_rfl⟩
  · exact ⟨List.suffix_rfl, rfl, rfl, List.prefix_rfl⟩

theorem lineEnd_suffix (current previous : Token) (rest : List Token) :
    (lineEnd current previous rest).1 :: (lineEnd current previous rest).2.2 <:+
      current :: rest := by
  induction rest generalizing current previous with
  | nil => exact List.suffix_rfl
  | cons t rest ih =>
    unfold lineEnd
    split
    · exact List.suffix_rfl
    · exact (ih t current).trans (List.suffix_cons _ _)

theorem leads_note (r : Reader) (name : String) : r.Leads (r.note name) := by
  unfold note
  split
  · exact Leads.refl r
  · exact ⟨List.suffix_rfl, rfl, rfl, List.prefix_rfl⟩

end Reader

namespace Reading

open Reader (Leads)

theorem advance_ok {r s : Reader} {u : Unit} (h : advance r = .ok u s) : r.step = .ok s := by
  unfold advance at h
  split at h
  next hs =>
    cases h
    exact hs
  · cases h

theorem advance_of_step {r s : Reader} (h : r.step = .ok s) : advance r = .ok () s := by
  simp [advance, h]

theorem current_bind {α : Type} (k : Token → Reading α) (r : Reader) :
    (current >>= k) r = k r.current r := rfl

theorem current_ok {r s : Reader} {t : Token} (h : current r = .ok t s) :
    t = r.current ∧ s = r := by
  cases h
  exact ⟨rfl, rfl⟩

theorem raise_lenient {r : Reader} (h : r.lenient = true) (f : ParseFault) :
    raise f r = .ok (.invalid r.current.extent)
      { r.skipLine with errors := r.errors ++ [.ofToken f r.current] } := by
  simp [raise, h]

theorem raise_strict {r : Reader} (h : r.lenient = false) (f : ParseFault) :
    raise f r = .error (.sourceError (.parse (.ofToken f r.current))) r := by
  simp [raise, h]

theorem leads_raise {r : Reader} (f : ParseFault) :
    r.Leads { r.skipLine with errors := r.errors ++ [.ofToken f r.current] } :=
  ⟨Reader.lineEnd_suffix r.current r.previous r.rest, rfl, rfl, List.prefix_append _ _⟩

theorem numberBehindPoint_ok {r s : Reader} {b : Bool} (h : numberBehindPoint r = .ok b s) :
    s = r := by
  unfold numberBehindPoint at h
  split at h
  · obtain ⟨k, t, hp, hk⟩ := bind_eq_ok.1 h
    cases hk
    unfold peek at hp
    split at hp <;> cases hp <;> rfl
  · cases h
    rfl

namespace Alike

variable {p : Placement} {slack stray allow : Bool} {α : Type} {V : α → α → Prop} {x y : Reading α}

/-- Reading leads forward, and its result has a counterpart. -/
theorem leads (h : Alike p slack stray allow V x y) {r s : Reader} {a : α}
    (hl : r.lenient = true → allow = true) (hx : x r = .ok a s) : (∃ b, V a b) ∧ r.Leads s := by
  induction h generalizing r s with
  | pure hab =>
    cases hx
    exact ⟨⟨_, hab⟩, Leads.refl r⟩
  | bind _ _ ihx ihk =>
    obtain ⟨a', t, hat, hst⟩ := bind_eq_ok.1 hx
    obtain ⟨⟨b', hab'⟩, hrt⟩ := ihx hl hat
    obtain ⟨hb, hts⟩ := ihk a' b' hab' (fun ht => hl (hrt.lenient ▸ ht)) hst
    exact ⟨hb, hrt.trans hts⟩
  | exhausted _ => cases hx
  | current | previous =>
    cases hx
    exact ⟨⟨_, rfl⟩, Leads.refl r⟩
  | advance => exact ⟨⟨(), trivial⟩, Reader.leads_of_step (advance_ok hx)⟩
  | point =>
    obtain rfl := numberBehindPoint_ok hx
    exact ⟨⟨_, rfl⟩, Leads.refl _⟩
  | @raise V f _ hV =>
    cases hr : r.lenient with
    | false =>
      rw [raise_strict hr] at hx
      cases hx
    | true =>
      rw [raise_lenient hr] at hx
      cases hx
      exact ⟨⟨_, hV (hl hr) _⟩, leads_raise f⟩
  | note name =>
    cases hx
    exact ⟨⟨(), trivial⟩, Reader.leads_note r name⟩

/-- What a reading with a deeper bound gives, compared with the result of a reading. -/
def Deepens (V : α → α → Prop) (shallow deep : EStateM.Result Interruption Reader α) : Prop :=
  match shallow with
  | .ok a s => ∃ b, deep = .ok b s ∧ V a b
  | .error .exhausted _ => True
  | .error (.sourceError e) s => deep = .error (.sourceError e) s

theorem Deepens.weaken {W : α → α → Prop} {shallow deep : EStateM.Result Interruption Reader α}
    (h : Deepens V shallow deep) (hVW : ∀ a b, V a b → W a b) : Deepens W shallow deep := by
  cases shallow with
  | ok a s =>
    obtain ⟨b, hb, hab⟩ := h
    exact ⟨b, hb, hVW a b hab⟩
  | error e s =>
    cases e with
    | exhausted => trivial
    | sourceError e => exact h

theorem deepens_self {z : Reading α} {r : Reader} (h : ∀ a, V a a) : Deepens V (z r) (z r) := by
  cases hz : z r with
  | ok a s => exact ⟨a, rfl, h a⟩
  | error e s =>
    cases e with
    | exhausted => trivial
    | sourceError e => rfl

/-- A deeper bound changes nothing but exhaustion. -/
theorem deepens (h : Alike .same true true true V x y) (r : Reader) : Deepens V (x r) (y r) := by
  induction h generalizing r with
  | pure hab => exact ⟨_, rfl, hab⟩
  | @bind α β V W x y k l _ _ ihx ihk =>
    have hx := ihx r
    rw [bind_apply, bind_apply]
    cases hxr : x r with
    | ok a s =>
      rw [hxr] at hx
      obtain ⟨b, hy, hab⟩ := hx
      rw [hy]
      exact ihk a b hab s
    | error e s =>
      rw [hxr] at hx
      cases e with
      | exhausted => trivial
      | sourceError e =>
        change y r = _ at hx
        rw [hx]
        rfl
  | exhausted _ => trivial
  | current | previous | point => exact deepens_self fun _ => rfl
  | advance | note => exact deepens_self fun _ => trivial
  | @raise V f _ hV =>
    rw [show f.relocate Placement.same.line = f from ParseFault.relocate_id f]
    cases hr : r.lenient with
    | false =>
      rw [raise_strict hr]
      rfl
    | true =>
      rw [raise_lenient hr]
      exact ⟨_, rfl, hV rfl _⟩

end Alike

/-- A relation between the places of two strict readings that every step of a reading keeps, as long
as the first reading stays within the limit `L`. -/
structure Forward (p : Placement) (L : Reader → Prop) (R : Reader → Reader → Prop) : Prop where
  strict : ∀ {r r'}, R r r' → r.lenient = false
  limit : ∀ {r s}, Leads r s → L s → L r
  current : ∀ {r r'}, R r r' → r'.current = r.current.relocate p
  previous : ∀ {r r'}, R r r' → r'.previous = r.previous.relocate p
  step : ∀ {r r' s}, R r r' → r.step = .ok s → L s → ∃ s', r'.step = .ok s' ∧ R s s'
  point : ∀ {r r' b}, R r r' → L r → numberBehindPoint r = .ok b r → numberBehindPoint r' = .ok b r'
  note : ∀ {r r'} (name : String), R r r' → R (r.note name) (r'.note name)

namespace Alike

variable {p : Placement} {slack stray allow : Bool} {α : Type} {V : α → α → Prop} {x y : Reading α}

/-- An alike reading repeats a successful one that stays within the limit. -/
theorem forward {L : Reader → Prop} {R : Reader → Reader → Prop} (F : Forward p L R)
    (h : Alike p slack stray allow V x y) {r r' s : Reader} {a : α} (hR : R r r')
    (hx : x r = .ok a s) (hL : L s) : ∃ b s', y r' = .ok b s' ∧ V a b ∧ R s s' := by
  induction h generalizing r r' s with
  | pure hab =>
    cases hx
    exact ⟨_, _, rfl, hab, hR⟩
  | bind hx' hk ihx ihk =>
    obtain ⟨a', t, hat, hts⟩ := bind_eq_ok.1 hx
    have hstrict : r.lenient = true → allow = true := by simp [F.strict hR]
    obtain ⟨⟨b₀, hb₀⟩, hrt⟩ := hx'.leads hstrict hat
    have htstrict : t.lenient = true → allow = true := fun ht => hstrict (hrt.lenient ▸ ht)
    have hLt : L t := F.limit ((hk a' b₀ hb₀).leads htstrict hts).2 hL
    obtain ⟨b', t', hyt, hab, hRt⟩ := ihx hR hat hLt
    obtain ⟨b, s', hls, hVb, hRs⟩ := ihk a' b' hab hRt hts hL
    exact ⟨b, s', bind_eq_ok.2 ⟨b', t', hyt, hls⟩, hVb, hRs⟩
  | exhausted _ => cases hx
  | current =>
    cases hx
    exact ⟨r'.current, r', rfl, F.current hR, hR⟩
  | previous =>
    cases hx
    exact ⟨r'.previous, r', rfl, F.previous hR, hR⟩
  | advance =>
    obtain ⟨s', hs', hRs⟩ := F.step hR (advance_ok hx) hL
    exact ⟨(), s', advance_of_step hs', trivial, hRs⟩
  | point =>
    obtain rfl := numberBehindPoint_ok hx
    exact ⟨_, r', F.point hR hL hx, rfl, hR⟩
  | raise _ _ =>
    rw [raise_strict (F.strict hR)] at hx
    cases hx
  | note name =>
    cases hx
    exact ⟨(), r'.note name, rfl, trivial, F.note name hR⟩

end Alike

end Reading

end LineScript
