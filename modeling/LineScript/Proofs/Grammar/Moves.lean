import LineScript.Proofs.Grammar.Bound

/-!
# Where readings move on

A run of a reading is told by the places from which it moves to the next token, one after the other.
At the end of the source nothing is behind, and moving on from there leaves a mark: the token in
front of the current one is the end of the source as well. So it can be seen from the last place of
a run whether it ever moved on from the end of the source, and if it did not, every move took one
token.
-/

namespace LineScript

namespace Reader

/-- The places from which skipping a line moves on, given the tokens ahead. -/
def skips : List Token → Reader → List Reader
  | [], _ => []
  | t :: rest, r =>
    if r.current.isTerminator then []
    else r :: skips rest { r with previous := r.current, current := t, rest := rest }

end Reader

namespace Reading

open Reader (Leads Sound)

/-- Run from a place, a reading moves on from the given places, one after the other, and ends with
the given result. Reporting a fault moves on in a lenient reading, which skips the line. -/
inductive Moves : {α : Type} → Reading α → Reader → List Reader →
    EStateM.Result Interruption Reader α → Prop where
  | pure {α : Type} (a : α) (r : Reader) : Moves (pure a) r [] (.ok a r)
  | bind {α β : Type} {x : Reading α} {k : α → Reading β} {r s : Reader} {a : α}
      {ps qs : List Reader} {result : EStateM.Result Interruption Reader β}
      (hx : Moves x r ps (.ok a s)) (hk : Moves (k a) s qs result) :
      Moves (x >>= k) r (ps ++ qs) result
  | stop {α β : Type} {x : Reading α} {k : α → Reading β} {r s : Reader} {e : Interruption}
      {ps : List Reader} (hx : Moves x r ps (.error e s)) : Moves (x >>= k) r ps (.error e s)
  | exhausted {α : Type} (r : Reader) : Moves (exhausted : Reading α) r [] (.error .exhausted r)
  | current (r : Reader) : Moves current r [] (.ok r.current r)
  | previous (r : Reader) : Moves previous r [] (.ok r.previous r)
  | whole (r : Reader) : Moves get r [] (.ok r r)
  | point (r : Reader) : Moves numberBehindPoint r [] (numberBehindPoint r)
  | note (name : String) (r : Reader) : Moves (note name) r [] (.ok () (r.note name))
  | advance (r : Reader) : Moves advance r [r] (advance r)
  | raise (f : ParseFault) (r : Reader) :
      Moves (raise f) r (if r.lenient then Reader.skips r.rest r else []) (raise f r)

/-- The last place of a run. -/
def reached {α : Type} : EStateM.Result Interruption Reader α → Reader
  | .ok _ s => s
  | .error _ s => s

namespace Moves

variable {α : Type} {x : Reading α} {r : Reader} {ps : List Reader}
  {result : EStateM.Result Interruption Reader α}

/-- The result of a run is that of the reading. -/
theorem result_eq (h : Moves x r ps result) : x r = result := by
  induction h with
  | bind _ _ ihx ihk => rw [bind_apply, ihx]; exact ihk
  | stop _ ihx => rw [bind_apply, ihx]
  | _ => rfl

theorem numberBehindPoint_reached (r : Reader) : reached (numberBehindPoint r) = r := by
  unfold numberBehindPoint
  split
  · rw [bind_apply]
    unfold peek
    cases r.rest with
    | cons t rest => rfl
    | nil => cases r.stop <;> rfl
  · rfl

/-- A run leads forward. -/
theorem leads (h : Moves x r ps result) : r.Leads (reached result) := by
  induction h with
  | bind _ _ ihx ihk => exact ihx.trans ihk
  | stop _ ihx => exact ihx
  | point r =>
    rw [numberBehindPoint_reached]
    exact Leads.refl r
  | note name r => exact Reader.leads_note r name
  | advance r =>
    unfold Reading.advance
    cases hstep : r.step with
    | ok s => exact Reader.leads_of_step hstep
    | error e => exact Leads.refl r
  | raise f r =>
    cases hl : r.lenient with
    | true =>
      rw [raise_lenient hl]
      exact leads_raise f
    | false =>
      rw [raise_strict hl]
      exact Leads.refl r
  | _ => exact Leads.refl _

end Moves

end Reading

namespace Reader

open Reading (reached)

theorem skips_length {rest : List Token} {r : Reader} :
    (skips rest r).length + (lineEnd r.current r.previous rest).2.2.length = rest.length := by
  induction rest generalizing r with
  | nil => rfl
  | cons t rest ih =>
    unfold skips lineEnd
    by_cases hend : r.current.isTerminator = true
    · simp [hend]
    · have hrest := ih (r := { r with previous := r.current, current := t, rest := rest })
      dsimp only at hrest
      simp only [hend, Bool.false_eq_true, if_false, List.length_cons]
      omega

/-- The token in front of the end of a line was passed over, unless nothing was. -/
theorem lineEnd_previous (rest : List Token) (r : Reader) :
    (lineEnd r.current r.previous rest).2.1 = r.previous ∨
      ∃ p ∈ skips rest r, (lineEnd r.current r.previous rest).2.1 = p.current := by
  induction rest generalizing r with
  | nil => exact .inl rfl
  | cons t rest ih =>
    unfold skips lineEnd
    by_cases hend : r.current.isTerminator = true
    · simp [hend]
    · right
      simp only [hend, Bool.false_eq_true, if_false]
      rcases ih { r with previous := r.current, current := t, rest := rest } with h | h
      · exact ⟨r, List.mem_cons_self, h⟩
      · obtain ⟨p, hp, h⟩ := h
        exact ⟨p, List.mem_cons_of_mem _ hp, h⟩

/-- What ends the source ends a line, so skipping a line does not move on from there. -/
theorem skips_not_end {rest : List Token} {r : Reader} :
    ∀ p ∈ skips rest r, p.current.isEndOfFile = false := by
  induction rest generalizing r with
  | nil => simp [skips]
  | cons t rest ih =>
    unfold skips
    by_cases hend : r.current.isTerminator = true
    · simp [hend]
    · simp only [hend, Bool.false_eq_true, if_false, List.mem_cons]
      intro p hp
      rcases hp with rfl | hp
      · simp only [Token.isTerminator, Bool.or_eq_true, not_or] at hend
        simpa using hend.2
      · exact ih p hp

/-- Only the last token ahead can be the end of the source, and it is not if an error stopped the
scanner. -/
structure Single (r : Reader) : Prop where
  last : r.current.isEndOfFile = true → r.rest = [] ∧ r.stop = none
  rest : ∀ t ∈ r.rest.dropLast, t.isEndOfFile = false
  stopped : r.stop ≠ none → ∀ t ∈ r.rest, t.isEndOfFile = false

theorem Single.of_leads {r s : Reader} (h : r.Single) (hrs : r.Leads s) : s.Single := by
  obtain ⟨front, hfront⟩ := hrs.tokens
  cases front with
  | nil =>
    rw [List.nil_append] at hfront
    injection hfront with hcurrent hrest
    exact ⟨by rw [hcurrent, hrest, hrs.stop]; exact h.last, by rw [hrest]; exact h.rest,
      by rw [hrest, hrs.stop]; exact h.stopped⟩
  | cons t front =>
    rw [List.cons_append] at hfront
    injection hfront with _ hrest
    have hmem : ∀ u ∈ s.current :: s.rest, u ∈ r.rest := by
      intro u hu
      rw [← hrest]
      exact List.mem_append_right _ hu
    have hinner : ∀ u ∈ (s.current :: s.rest).dropLast, u.isEndOfFile = false := by
      intro u hu
      apply h.rest u
      rw [← hrest, List.dropLast_append_of_ne_nil (by simp)]
      exact List.mem_append_right _ hu
    refine ⟨?_, ?_, ?_⟩
    · intro hend
      constructor
      · cases hs : s.rest with
        | nil => rfl
        | cons u us =>
          have hcurrent := hinner s.current (by simp [hs])
          rw [hend] at hcurrent
          cases hcurrent
      · by_contra hstop
        have hcurrent := h.stopped (hrs.stop ▸ hstop) s.current (hmem _ (by simp))
        rw [hend] at hcurrent
        cases hcurrent
    · intro u hu
      apply hinner u
      cases hs : s.rest with
      | nil => simp [hs] at hu
      | cons v vs =>
        rw [hs] at hu
        exact List.mem_cons_of_mem _ hu
    · intro hstop u hu
      exact h.stopped (hrs.stop ▸ hstop) u (hmem u (List.mem_cons_of_mem _ hu))

/-- A place behind a move from the end of the source. -/
structure Beyond (r : Reader) : Prop where
  rest : r.rest = []
  stop : r.stop = none
  current : r.current.isEndOfFile = true
  previous : r.previous.isEndOfFile = true

end Reader

namespace Reading

open Reader (Leads Sound Single Beyond)

namespace Moves

variable {α : Type} {x : Reading α} {r : Reader} {ps : List Reader}
  {result : EStateM.Result Interruption Reader α}

theorem advance_beyond (h : r.current.isEndOfFile = true) (hrest : r.rest = [])
    (hstop : r.stop = none) : (reached (Reading.advance r)).Beyond := by
  have hstep : r.step = .ok { r with previous := r.current } := by
    simp [Reader.step, hrest, hstop]
  rw [advance_of_step hstep]
  exact ⟨hrest, hstop, h, h⟩

/-- Behind a move from the end of the source a run stays there. -/
theorem stays_beyond (h : Moves x r ps result) (hr : r.Beyond) : (reached result).Beyond := by
  induction h with
  | bind _ _ ihx ihk => exact ihk (ihx hr)
  | stop _ ihx => exact ihx hr
  | point r =>
    rw [numberBehindPoint_reached]
    exact hr
  | note name r =>
    have hnote : (r.note name).previous = r.previous := by
      unfold Reader.note
      split <;> rfl
    have hstop : (r.note name).stop = r.stop := (Reader.leads_note r name).stop
    exact ⟨by rw [reached, Reader.rest_note, hr.rest], hstop.trans hr.stop,
      by rw [reached, Reader.current_note, hr.current], by rw [reached, hnote, hr.previous]⟩
  | advance r => exact advance_beyond hr.current hr.rest hr.stop
  | raise f r =>
    cases hl : r.lenient with
    | true =>
      rw [raise_lenient hl]
      have hend : Reader.lineEnd r.current r.previous r.rest = (r.current, r.previous, []) := by
        rw [hr.rest, Reader.lineEnd]
      simp only [reached, Reader.skipLine, hend]
      exact ⟨rfl, hr.stop, hr.current, hr.previous⟩
    | false =>
      rw [raise_strict hl]
      exact hr
  | _ => exact hr

/-- A move from the end of the source can be seen behind it. -/
theorem beyond_of_mem (h : Moves x r ps result) (hr : r.Single) {p : Reader} (hp : p ∈ ps)
    (hend : p.current.isEndOfFile = true) : (reached result).Beyond := by
  induction h with
  | bind hx hk ihx ihk =>
    rcases List.mem_append.1 hp with hp | hp
    · exact hk.stays_beyond (ihx hr hp)
    · exact ihk (hr.of_leads hx.leads) hp
  | stop _ ihx => exact ihx hr hp
  | advance r =>
    obtain rfl := List.mem_singleton.1 hp
    obtain ⟨hrest, hstop⟩ := hr.last hend
    exact advance_beyond hend hrest hstop
  | raise f r =>
    split at hp
    · have hnot := Reader.skips_not_end p hp
      rw [hend] at hnot
      cases hnot
    · cases hp
  | _ => cases hp

/-- A run that never moves on from the end of the source does not come behind it. -/
theorem previous_of_forall (h : Moves x r ps result)
    (hps : ∀ p ∈ ps, p.current.isEndOfFile = false) (hr : r.previous.isEndOfFile = false) :
    (reached result).previous.isEndOfFile = false := by
  induction h with
  | bind _ _ ihx ihk =>
    have hx := ihx (fun p hp => hps p (List.mem_append_left _ hp)) hr
    exact ihk (fun p hp => hps p (List.mem_append_right _ hp)) hx
  | stop _ ihx => exact ihx hps hr
  | point r =>
    rw [numberBehindPoint_reached]
    exact hr
  | note name r =>
    have hnote : (r.note name).previous = r.previous := by
      unfold Reader.note
      split <;> rfl
    rw [reached, hnote]
    exact hr
  | advance r =>
    have hcurrent := hps r (by simp)
    unfold Reading.advance
    cases hstep : r.step with
    | ok s =>
      obtain ⟨t, rest, _, rfl⟩ | ⟨_, _, rfl⟩ := Reader.step_ok hstep
      · exact hcurrent
      · exact hcurrent
    | error e => exact hr
  | raise f r =>
    cases hl : r.lenient with
    | true =>
      rw [raise_lenient hl]
      rw [if_pos hl] at hps
      rcases Reader.lineEnd_previous r.rest r with h | ⟨p, hp, h⟩
      · change (Reader.lineEnd r.current r.previous r.rest).2.1.isEndOfFile = false
        rw [h]
        exact hr
      · change (Reader.lineEnd r.current r.previous r.rest).2.1.isEndOfFile = false
        rw [h]
        exact hps p hp
    | false =>
      rw [raise_strict hl]
      exact hr
  | _ => exact hr

/-- A number of moves takes one token each, unless an error ends the run at the last of them. -/
def Taken {α : Type} (r : Reader) (moves : Nat) : EStateM.Result Interruption Reader α → Prop
  | .ok _ s => moves + s.rest.length = r.rest.length
  | .error _ s => moves + s.rest.length ≤ r.rest.length + 1

/-- A run that never moves on from the end of the source takes one token with each move. -/
theorem taken (h : Moves x r ps result) (hr : r.Sound)
    (hps : ∀ p ∈ ps, p.current.isEndOfFile = false) : Taken r ps.length result := by
  induction h with
  | @bind _ _ _ _ _ s a ps qs result hx _ ihx ihk =>
    have hfirst := ihx hr fun p hp => hps p (List.mem_append_left _ hp)
    have hsecond := ihk (hr.of_leads hx.leads) fun p hp => hps p (List.mem_append_right _ hp)
    rw [List.length_append]
    cases result with
    | ok b t =>
      unfold Taken at hfirst hsecond ⊢
      omega
    | error e t =>
      unfold Taken at hfirst hsecond ⊢
      omega
  | stop _ ihx => exact ihx hr hps
  | pure | current | previous | whole | exhausted => simp [Taken]
  | point r =>
    have hreached := numberBehindPoint_reached r
    cases hp : numberBehindPoint r with
    | ok b s =>
      rw [hp] at hreached
      simp [Taken, ← hreached, reached]
    | error e s =>
      rw [hp] at hreached
      simp [Taken, ← hreached, reached]
  | note name r => simp [Taken, Reader.rest_note]
  | advance r =>
    have hcurrent := hps r (by simp)
    unfold Reading.advance
    cases hstep : r.step with
    | ok s =>
      obtain ⟨t, rest, hrest, rfl⟩ | ⟨hrest, hstop, rfl⟩ := Reader.step_ok hstep
      · simp [Taken, hrest, Nat.add_comm]
      · exact absurd hrest (hr.rest_ne_nil hstop hcurrent)
    | error e => simp [Taken, Nat.add_comm]
  | raise f r =>
    cases hl : r.lenient with
    | true =>
      rw [raise_lenient hl]
      exact Reader.skips_length
    | false =>
      rw [raise_strict hl]
      simp [Taken]

end Moves

end Reading

end LineScript
