import LineScript.Proofs.Grammar.LineBody

/-!
# Expressions between brackets

An expression between brackets is read up to the bracket that closes it, and nothing behind that
bracket is looked at. Main statement: what stands between brackets is the same expression wherever
the brackets stand.
-/

namespace LineScript

namespace Reader

/-- The second reading has the tokens of the first up to the token `u`, at other places, and others
behind. -/
structure Before (p : Placement) (u : Token) (tail tail' : List Token) (r r' : Reader) : Prop where
  strict : r.lenient = false
  previous : r'.previous = r.previous.relocate p
  ahead : ∃ front, r.current :: r.rest = front ++ u :: tail ∧
    r'.current :: r'.rest = (front ++ [u]).map (Token.relocate p) ++ tail'

variable {p : Placement} {u : Token} {tail tail' : List Token} {r r' s : Reader}

theorem Before.current (h : Before p u tail tail' r r') :
    r'.current = r.current.relocate p := by
  obtain ⟨front, hr, hr'⟩ := h.ahead
  cases front with
  | nil =>
    rw [(List.cons.inj hr).1]
    exact (List.cons.inj hr').1
  | cons t front =>
    rw [(List.cons.inj hr).1]
    exact (List.cons.inj hr').1

theorem Before.step (h : Before p u tail tail' r r') (htail : tail ≠ []) (hs : r.step = .ok s)
    (hlimit : u :: tail <:+ s.current :: s.rest) :
    ∃ s', r'.step = .ok s' ∧ Before p u tail tail' s s' := by
  obtain ⟨front, hr, hr'⟩ := h.ahead
  obtain ⟨t, rest, hrest, rfl⟩ | ⟨hrest, -, rfl⟩ := step_ok hs
  · cases front with
    | nil =>
      cases hr
      have hle := hlimit.length_le
      simp only [hrest, List.length_cons] at hle
      omega
    | cons v front =>
      obtain ⟨-, hfront⟩ := List.cons.inj hr
      obtain ⟨-, hfront'⟩ := List.cons.inj hr'
      obtain ⟨t', rest', hrest', hahead⟩ : ∃ t' rest', r'.rest = t' :: rest' ∧
          t' :: rest' = (front ++ [u]).map (Token.relocate p) ++ tail' := by
        cases hr'rest : r'.rest with
        | nil =>
          rw [hr'rest] at hfront'
          simp at hfront'
        | cons t' rest' =>
          rw [hr'rest] at hfront'
          exact ⟨t', rest', rfl, hfront'⟩
      refine ⟨{ r' with previous := r'.current, current := t', rest := rest' }, ?_, h.strict,
        h.current, front, ?_, hahead⟩
      · simp only [Reader.step, hrest']
      · rw [← hrest, hfront]
        rfl
  · rw [hrest] at hr
    have hlength := congrArg List.length hr
    have hpos := List.length_pos_iff.2 htail
    simp at hlength
    omega

theorem Before.note (h : Before p u tail tail' r r') (name : String) :
    Before p u tail tail' (r.note name) (r'.note name) := by
  obtain ⟨h₁, h₂, h₃⟩ := h
  unfold Reader.note
  split <;> split <;> exact ⟨h₁, h₂, h₃⟩

end Reader

namespace Reading

open Reader (Ahead Before Faces)

section

variable {p : Placement} {u : Token} {tail tail' : List Token}

theorem numberBehindPoint_before {r r' : Reader} {b : Bool} (hu : u.isPunctuator .dot = false)
    (h : Before p u tail tail' r r') (hb : numberBehindPoint r = .ok b r) :
    numberBehindPoint r' = .ok b r' := by
  unfold numberBehindPoint at hb ⊢
  rw [h.current, Token.isPunctuator_relocate]
  split at hb
  next hdot =>
    rw [if_pos hdot]
    obtain ⟨front, hr, hr'⟩ := h.ahead
    obtain _ | ⟨v, front⟩ := front
    · cases hr
      rw [hu] at hdot
      cases hdot
    obtain ⟨-, hfront⟩ := List.cons.inj hr
    obtain ⟨-, hfront'⟩ := List.cons.inj hr'
    obtain ⟨k, s, hpeek, hk⟩ := bind_eq_ok.1 hb
    cases hk
    refine bind_eq_ok.2 ⟨k, r', ?_, rfl⟩
    -- the token behind the point is still in front of what was exchanged
    cases front with
    | nil =>
      simp only [peek, show r.rest = u :: tail from hfront] at hpeek
      cases hpeek
      simp only [peek, show r'.rest = u.relocate p :: tail' from hfront', Token.kind_relocate]
    | cons w front =>
      simp only [peek, show r.rest = w :: (front ++ u :: tail) from hfront] at hpeek
      cases hpeek
      simp only [peek, show r'.rest =
        w.relocate p :: ((front ++ [u]).map (Token.relocate p) ++ tail') from hfront',
        Token.kind_relocate]
  next hdot =>
    rw [if_neg hdot]
    cases hb
    rfl

/-- What is read in front of a token is read whatever is behind the token. -/
theorem forward_before (hu : u.isPunctuator .dot = false) (htail : tail ≠ []) :
    Forward p (fun s => u :: tail <:+ s.current :: s.rest) (Before p u tail tail') where
  strict h := h.strict
  limit h hs := hs.trans h.tokens
  current h := h.current
  previous h := h.previous
  step h hs hlimit := h.step htail hs hlimit
  point h _ hb := numberBehindPoint_before hu h hb
  note name h := h.note name

end

/-- Under every bound that is large enough, a reading gives a result and goes to a place. -/
def Gives {α : Type} (x : Nat → Reading α) (r : Reader) (a : α) (s : Reader) : Prop :=
  ∃ n, ∀ m, n ≤ m → x m r = .ok a s

/-- A successful reading of an expression is not changed by a deeper bound. -/
theorem Gives.expression {n : Nat} {r s : Reader} {o : Option Node}
    (h : Reading.expression n r = .ok o s) : Gives Reading.expression r o s := by
  refine ⟨n, fun m hm => ?_⟩
  have hdeep := (level (.inr ⟨rfl, hm⟩)).expression.deepens r
  rw [h] at hdeep
  obtain ⟨o', hm, ho⟩ := hdeep
  rw [hm, ho.eq]

theorem Gives.expectedExpression {r s : Reader} {e : Node}
    (h : Gives Reading.expression r (some e) s) : Gives Reading.expectedExpression r e s := by
  obtain ⟨n, hn⟩ := h
  refine ⟨n + 1, fun m hm => ?_⟩
  obtain ⟨m, rfl⟩ : ∃ k, m = k + 1 := ⟨m - 1, by omega⟩
  rw [Reading.expectedExpression, bind_apply, hn m (by omega)]
  rfl

/-- The tokens between two brackets are one expression. -/
def Encloses (l : Token) (inside : List Token) (u : Token) (e : Node) : Prop :=
  ∃ n tail, tail ≠ [] ∧ ∃ r s : Reader, r.Ahead (inside ++ u :: tail) ∧ r.previous = l ∧
    Reading.expression n r = .ok (some e) s ∧ s.Ahead (u :: tail)

/-- What stands between brackets is the same expression at another place and in front of
anything. -/
theorem Encloses.gives_at (p : Placement) {l u : Token} {inside tail : List Token} {e : Node}
    (h : Encloses l inside u e) (hu : u.isPunctuator .dot = false) {r : Reader}
    (hr : r.Ahead ((inside ++ [u]).map (Token.relocate p) ++ tail))
    (hprevious : r.previous = l.relocate p) :
    ∃ s, Gives Reading.expression r (some (e.relocate p.place)) s ∧
      s.Ahead (u.relocate p :: tail) := by
  obtain ⟨n, tail₀, htail₀, r₀, s₀, hr₀, rfl, hread, hs₀⟩ := h
  have hbefore : Before p u tail₀ tail r₀ r :=
    ⟨hr₀.strict, hprevious, inside, hr₀.tokens, hr.tokens⟩
  obtain ⟨o, s, hs, ⟨rfl, -⟩, hbehind⟩ := (placed p n).expression.forward
    (forward_before hu htail₀) hbefore hread (hs₀.tokens ▸ List.suffix_rfl)
  refine ⟨s, .expression hs, ?_⟩
  have hleads := ((placed p n).expression.leads (fun _ => rfl) hs).2
  refine ⟨hleads.lenient.trans hr.strict, hleads.stop.trans hr.stop, ?_⟩
  obtain ⟨front, hfront, hfront'⟩ := hbehind.ahead
  rw [hs₀.tokens] at hfront
  obtain rfl : front = [] := by
    have hlength := congrArg List.length hfront
    simp only [List.length_append] at hlength
    exact List.length_eq_zero_iff.1 (by omega)
  simpa using hfront'

/-- What stands between brackets is the same expression in front of anything. -/
theorem Encloses.gives {l u : Token} {inside tail : List Token} {e : Node}
    (h : Encloses l inside u e) (hu : u.isPunctuator .dot = false) {r : Reader}
    (hr : r.Ahead (inside ++ u :: tail)) (hprevious : r.previous = l) :
    ∃ s, Gives Reading.expression r (some e) s ∧ s.Ahead (u :: tail) := by
  have hsame : (inside ++ [u]).map (Token.relocate .same) ++ tail = inside ++ u :: tail := by
    simp [show Token.relocate .same = id from rfl]
  have hgives := h.gives_at .same hu (hsame ▸ hr) hprevious
  rwa [show e.relocate Placement.same.place = e from Node.relocate_id e] at hgives

end Reading

end LineScript
