import LineScript.Proofs.Grammar.OneLine
import LineScript.Proofs.Grammar.Placing

/-!
# Bodies on the line of their header

A statement on one line is read in the same way wherever the line stands and whatever is behind its
end. A construct whose body is the rest of the line leaves the end of the line where it is, but a
conditional moves over it, and over the end of an empty line behind it.
-/

namespace LineScript

/-- A tree without its positions. -/
def Node.erase (n : Node) : Node := n.relocate fun _ => .origin

theorem Node.erase_relocate (g : Position → Position) (n : Node) :
    (n.relocate g).erase = n.erase := by
  rw [erase, relocate_relocate]
  rfl

/-- Keeps lines apart and drops columns. -/
def Placement.flat (lines : Nat) : Placement where
  place p := ⟨p.line + lines, 0⟩
  line n := n + lines
  span _ := ⟨0, 0⟩
  line_place _ := rfl
  line_injective _ _ h := Nat.add_right_cancel h

namespace Reader

/-- A strict reading with the given tokens ahead. -/
structure Ahead (ts : List Token) (r : Reader) : Prop where
  strict : r.lenient = false
  stop : r.stop = none
  tokens : r.current :: r.rest = ts

theorem Ahead.current {t : Token} {ts : List Token} {r : Reader} (h : r.Ahead (t :: ts)) :
    r.current = t :=
  (List.cons.inj h.tokens).1

theorem Ahead.step {t u : Token} {ts : List Token} {r : Reader} (h : r.Ahead (t :: u :: ts)) :
    ∃ s, r.step = .ok s ∧ s.Ahead (u :: ts) := by
  obtain ⟨_, hrest⟩ := List.cons.inj h.tokens
  refine ⟨{ r with previous := r.current, current := u, rest := ts }, ?_, h.strict, h.stop, rfl⟩
  simp only [Reader.step, hrest]

/-- The second reading has the tokens of the first up to the end of the line, at other places, and
others behind. -/
structure Follows (p : Placement) (L : LineEnd) (more : List Token) (r r' : Reader) : Prop where
  strict : r.lenient = false
  current : r'.current = r.current.relocate p
  previous : r'.previous = r.previous.relocate p
  ahead : ∃ us, r.rest = us ++ [L.source] ∧ r'.rest = us.map (Token.relocate p) ++ more ∧
    ∃ t, (r.current :: us).getLast? = some t ∧ t.isEndOfLine = true

variable {p : Placement} {L : LineEnd} {more : List Token} {r r' s : Reader}

theorem Follows.step (h : Follows p L more r r') (hs : r.step = .ok s) (hne : s.rest ≠ []) :
    ∃ s', r'.step = .ok s' ∧ Follows p L more s s' := by
  obtain ⟨hstrict, hcurrent, _, us, hrest, hrest', t, ht, heol⟩ := h
  cases us with
  | nil =>
    simp only [Reader.step, hrest, List.nil_append] at hs
    cases hs
    exact absurd rfl hne
  | cons u us =>
    simp only [Reader.step, hrest, List.cons_append] at hs
    cases hs
    refine ⟨{ r' with
      previous := r'.current
      current := u.relocate p
      rest := us.map (Token.relocate p) ++ more }, ?_, hstrict, rfl, hcurrent, us, rfl, rfl, t, ?_,
      heol⟩
    · simp only [Reader.step, hrest', List.map_cons, List.cons_append]
    · simpa [List.getLast?_cons] using ht

theorem Follows.note (h : Follows p L more r r') (name : String) :
    Follows p L more (r.note name) (r'.note name) := by
  obtain ⟨h₁, h₂, h₃, h₄⟩ := h
  unfold Reader.note
  split <;> split <;> exact ⟨h₁, h₂, h₃, h₄⟩

end Reader

namespace Reading

open Reader (Ahead Follows Faces)

variable {p : Placement} {L : LineEnd} {more : List Token}

theorem numberBehindPoint_follows {r r' : Reader} {b : Bool} (h : Follows p L more r r')
    (hb : numberBehindPoint r = .ok b r) : numberBehindPoint r' = .ok b r' := by
  obtain ⟨_, hcurrent, _, us, hrest, hrest', t, ht, heol⟩ := h
  unfold numberBehindPoint at hb ⊢
  rw [hcurrent, Token.isPunctuator_relocate]
  split at hb
  next hdot =>
    rw [if_pos hdot]
    cases us with
    | nil =>
      have : r.current = t := by simpa using ht
      have hk : r.current.kind = .endOfLine := by simpa [this, Token.isEndOfLine] using heol
      simp [Token.isPunctuator, hk] at hdot
    | cons u us =>
      obtain ⟨k, s, hp, hk⟩ := bind_eq_ok.1 hb
      cases hk
      simp only [peek, hrest, List.cons_append] at hp
      cases hp
      refine bind_eq_ok.2 ⟨u.kind, r', ?_, rfl⟩
      simp only [peek, hrest', List.map_cons, List.cons_append, Token.kind_relocate]
  next hdot =>
    rw [if_neg hdot]
    cases hb
    rfl

/-- What is read on a line is read whatever is behind the line. -/
theorem forward_follows : Forward p (fun s => s.rest ≠ []) (Follows p L more) where
  strict h := h.strict
  limit h hs hr := hs (List.eq_nil_of_length_eq_zero (by simpa [hr] using h.length_le))
  current h := h.current
  previous h := h.previous
  step h hs hne := h.step hs hne
  point h _ hb := numberBehindPoint_follows h hb
  note name h := h.note name

/-- A statement on a line, read up to the end of the line, is read in the same way where the line
stands elsewhere and in front of other lines. -/
theorem statement_elsewhere {n : Nat} {inLine : Bool} {w : Token} {ws : List Token} {node : Node}
    {s : Reader}
    (h : statement n inLine (.ofFirst w (ws ++ [L.line, L.source])) = .ok (some node) s)
    (hrest : s.rest = [L.source]) {lines : Nat} {ws' : List Token} {b : Token} {more : List Token}
    (hws : (w :: ws).map (Token.relocate (.flat lines)) = ws'.map (Token.relocate (.flat 0)))
    (hb : L.line.relocate (.flat lines) = b.relocate (.flat 0)) {r : Reader}
    (hr : r.Ahead (ws' ++ b :: more)) :
    ∃ node' s', statement n inLine r = .ok (some node') s' ∧ node'.erase = node.erase ∧
      s'.Ahead (b :: more) := by
  obtain ⟨w', ws', rfl⟩ : ∃ t ts, ws' = t :: ts := by
    cases ws' with
    | nil => cases hws
    | cons t ts => exact ⟨t, ts, rfl⟩
  obtain ⟨hw, hws⟩ := List.cons.inj hws
  obtain ⟨hr₁, hr₂⟩ := List.cons.inj hr.tokens
  -- Both lines are compared without columns: a break behind the line may be longer than its own.
  let q : Reader := ⟨false, w.relocate (.flat lines), Reader.placeholder.relocate (.flat lines),
    (ws ++ [L.line]).map (Token.relocate (.flat lines)) ++ more.map (Token.relocate (.flat 0)),
    none, [], []⟩
  have hfollows : Follows (.flat lines) L (more.map (Token.relocate (.flat 0)))
      (.ofFirst w (ws ++ [L.line, L.source])) q :=
    ⟨rfl, rfl, rfl, ws ++ [L.line], by simp [Reader.ofFirst], rfl, L.line,
      by simp [List.getLast?_cons], L.line_eol⟩
  have hfaces : Faces (.flat 0) r q := by
    refine ⟨hr.strict, rfl, hr.stop, rfl, ?_, ?_⟩
    · rw [hr₁]
      exact hw
    · simp only [q, hr₂, List.append_eq, List.map_append, List.map_cons, List.map_nil, hb, hws,
        List.append_assoc, List.cons_append, List.nil_append]
  obtain ⟨o, t, ht, ⟨rfl, _⟩, hfollows'⟩ := ((placed (.flat lines) n).statement inLine).forward
    forward_follows hfollows h (by simp [hrest])
  have hmatch := statement_starts n inLine r q hfaces trivial
  rw [ht] at hmatch
  obtain ⟨o, s', hs', ⟨ho, _⟩, hmirrors⟩ := hmatch.ok_right
  obtain _ | node' := o
  · cases ho
  have hnode : node.relocate (Placement.flat lines).place =
      node'.relocate (Placement.flat 0).place := by simpa using ho
  refine ⟨node', s', hs', ?_, ?_⟩
  · rw [← Node.erase_relocate (Placement.flat 0).place, ← hnode, Node.erase_relocate]
  · -- The place behind the statement is known by the number of tokens behind it.
    obtain ⟨us, hus, hus', _⟩ := hfollows'.ahead
    obtain rfl : us = [] := by simpa [hrest] using hus
    have hlength : s'.rest.length = more.length := by
      have := congrArg List.length hmirrors.rest
      simpa [hus'] using this.symm
    have hleads := Advances.of_built ((built n).statement inLine) _ _ _ hs'
    refine ⟨hleads.lenient.trans hr.strict, hleads.stop.trans hr.stop, ?_⟩
    have hsuffix : s'.current :: s'.rest <:+ (w' :: ws') ++ b :: more := hr.tokens ▸ hleads.tokens
    refine List.IsSuffix.eq_of_length ?_ (by simp [hlength])
    exact List.suffix_of_suffix_length_le hsuffix (List.suffix_append _ _) (by simp [hlength])

/-- A successful reading of a statement is not changed by a deeper bound. -/
theorem statement_mono {n m : Nat} {inLine : Bool} {r s : Reader} {o : Option Node} (h : n ≤ m)
    (hn : statement n inLine r = .ok o s) : statement m inLine r = .ok o s := by
  have hdeep := ((level (.inr ⟨rfl, h⟩)).statement inLine).deepens r
  rw [hn] at hdeep
  obtain ⟨o', hm, ho⟩ := hdeep
  rw [hm, ho.eq]

theorem lineBody_mono {n m : Nat} {r s : Reader} {a : List Node} (h : n ≤ m)
    (hn : lineBody n r = .ok a s) : lineBody m r = .ok a s := by
  have hdeep := (level (.inr ⟨rfl, h⟩)).lineBody.deepens r
  rw [hn] at hdeep
  obtain ⟨a', hm, ha⟩ := hdeep
  rw [hm, ha.eq]

/-- A reading of a statement that succeeds has one result. -/
theorem statement_unique {n m : Nat} {inLine : Bool} {r s t : Reader} {o o' : Option Node}
    (hn : statement n inLine r = .ok o s) (hm : statement m inLine r = .ok o' t) :
    o' = o ∧ t = s := by
  have h₁ := statement_mono (Nat.le_max_left n m) hn
  have h₂ := statement_mono (Nat.le_max_right n m) hm
  rw [h₁] at h₂
  cases h₂
  exact ⟨rfl, rfl⟩

/-- The rest of the line in front of a token is empty. -/
def endsHere (t : Token) : Bool := t.isEndOfLine || t.endsLineBody

theorem lineBody_nil {n : Nat} {r : Reader} (h : endsHere r.current = true) :
    lineBody (n + 1) r = .ok [] r := by
  rw [lineBody, current_bind, if_pos (by simpa [endsHere] using h)]
  rfl

theorem lineBody_cons {n : Nat} {r : Reader} (h : endsHere r.current = false) :
    lineBody (n + 1) r = (do
      let s ← statement n (r.current.isKeyword .returnWord)
      (s.toList ++ ·) <$> lineBody n) r := by
  rw [lineBody, current_bind, if_neg (by simpa [endsHere] using h)]

theorem not_eol_of_not_endsHere {t : Token} (h : endsHere t = false) : t.isEndOfLine = false := by
  simp only [endsHere, Bool.or_eq_false_iff] at h
  exact h.1

/-- A single statement is the rest of the line if nothing is left behind it. -/
theorem lineBody_single {n : Nat} {r s : Reader} {a : Node} (hr : endsHere r.current = false)
    (h : statement n (r.current.isKeyword .returnWord) r = .ok (some a) s)
    (hs : endsHere s.current = true) : lineBody (n + 2) r = .ok [a] s := by
  rw [lineBody_cons hr, bind_apply, statement_mono (Nat.le_succ n) h]
  simp only [map_eq_pure_bind]
  rw [bind_apply, lineBody_nil hs]
  rfl

/-- Behind the only statement of a line nothing is left. -/
theorem statement_of_lineBody {n : Nat} {r s : Reader} {a : Node}
    (hr : endsHere r.current = false) (h : lineBody n r = .ok [a] s) :
    ∃ m t, statement m (r.current.isKeyword .returnWord) r = .ok (some a) t ∧
      endsHere t.current = true := by
  cases n with
  | zero => cases h
  | succ n =>
    rw [lineBody_cons hr] at h
    obtain ⟨o, t, ho, h₁⟩ := bind_eq_ok.1 h
    rw [map_eq_pure_bind] at h₁
    obtain ⟨body, u, hbody, h₂⟩ := bind_eq_ok.1 h₁
    obtain _ | b := o
    · exact absurd ho (statement_finds n _ (not_eol_of_not_endsHere hr))
    cases h₂
    refine ⟨n, t, ho, ?_⟩
    by_contra hend
    have hend : endsHere t.current = false := by simpa using hend
    -- A further statement would be found.
    cases n with
    | zero => cases hbody
    | succ n =>
      rw [lineBody_cons hend] at hbody
      obtain ⟨o, v, ho', h₃⟩ := bind_eq_ok.1 hbody
      rw [map_eq_pure_bind] at h₃
      obtain ⟨_, _, _, h₄⟩ := bind_eq_ok.1 h₃
      obtain _ | c := o
      · exact absurd ho' (statement_finds n _ (not_eol_of_not_endsHere hend))
      · cases h₄

theorem elseIfLines_of_not {n : Nat} {r : Reader} (h : r.current.isKeyword .elseIfWord = false) :
    elseIfLines (n + 1) r = .ok [] r := by
  rw [elseIfLines, bind_apply, consumeKeyword_of_not h]
  rfl

theorem elseLine_of_not {n : Nat} {r : Reader} (h : r.current.isKeyword .elseWord = false) :
    elseLine (n + 1) r = .ok [] r := by
  rw [elseLine, bind_apply, consumeKeyword_of_not h]
  rfl

section

variable {es : List Token} {v : Token} {vs : List Token} {r : Reader}

/-- One line end is moved over, if there is one. -/
theorem consumeLineEnd_ahead (hes : ∀ t ∈ es, t.isEndOfLine = true) (hv : v.isEndOfLine = false)
    (hr : r.Ahead (es ++ v :: vs)) :
    ∃ s, consumeLineEnd r = .ok () s ∧ s.Ahead (es.drop 1 ++ v :: vs) := by
  cases es with
  | nil =>
    refine ⟨r, consumeLineEnd_of_not ?_, hr⟩
    rw [hr.current, hv]
  | cons e es =>
    obtain ⟨s, hs, hahead⟩ : ∃ s, r.step = .ok s ∧ s.Ahead (es ++ v :: vs) := by
      cases es <;> exact Ahead.step hr
    refine ⟨s, consumeLineEnd_of_step ?_ hs, hahead⟩
    rw [hr.current]
    exact hes e List.mem_cons_self

/-- Among line ends and in front of a token that continues no construct, no word is met that
continues one. -/
theorem not_continues (hes : ∀ t ∈ es, t.isEndOfLine = true) (hv : endsHere v = false)
    (hr : r.Ahead (es ++ v :: vs)) {k : Keyword}
    (hk : k = .elseIfWord ∨ k = .elseWord ∨ k = .endIf) : r.current.isKeyword k = false := by
  cases es with
  | nil =>
    rw [hr.current]
    by_contra h
    have h : v.kind = .keyword k := by simpa [Token.isKeyword] using h
    simp only [endsHere, Token.isEndOfLine, Token.endsLineBody, h] at hv
    obtain rfl | rfl | rfl := hk <;> simp at hv
  | cons e es =>
    rw [hr.current]
    have he : e.kind = .endOfLine := by
      simpa [Token.isEndOfLine] using hes e List.mem_cons_self
    simp [Token.isKeyword, he]

end

end Reading

namespace Header

open Reading
open Reader (Ahead)

/-- How many line ends a construct moves over behind the line that it stands on. -/
def lineEnds : Header → Nat
  | conditional _ => 2
  | _ => 0

variable {h : Header} {places : Places} {start : Position} {n : Nat} {r s : Reader}
  {body : List Node} {node : Node} {es : List Token} {v : Token} {vs : List Token}

theorem constructBody_of_line {k : Keyword} (hr : r.current.isEndOfLine = false)
    (hbody : lineBody n r = .ok body s) (hs : s.current.isEndOfLine = true) :
    constructBody (n + 1) k r = .ok body s := by
  have hend : expectLineBodyEnd k s = .ok () s := by
    unfold expectLineBodyEnd
    rw [current_bind, Token.isTerminator, hs]
    rfl
  rw [constructBody, current_bind, if_neg (by simp [hr]), bind_apply, hbody]
  simp only
  rw [bind_apply, hend]
  rfl

theorem lineBody_of_constructBody {k : Keyword} (hr : r.current.isEndOfLine = false)
    (hok : constructBody n k r = .ok body s) : ∃ m t, lineBody m r = .ok body t := by
  cases n with
  | zero => cases hok
  | succ n =>
    rw [constructBody, current_bind, if_neg (by simp [hr])] at hok
    obtain ⟨body', t, hbody, hok₁⟩ := bind_eq_ok.1 hok
    obtain ⟨_, u, _, hok₂⟩ := bind_eq_ok.1 hok₁
    cases hok₂
    exact ⟨n, t, hbody⟩

/-- A construct whose body is the rest of the line is read up to the end of the line, or some line
ends further. -/
theorem remainder_of_line (h : Header) (places : Places) (start : Position)
    (hr : r.current.isEndOfLine = false) (hbody : lineBody n r = .ok body s) (hne : es ≠ [])
    (hes : ∀ t ∈ es, t.isEndOfLine = true) (hv : endsHere v = false)
    (hs : s.Ahead (es ++ v :: vs)) :
    ∃ node t, h.remainder places start (n + 1) r = .ok node t ∧ h.Encloses body node ∧
      t.Ahead (es.drop h.lineEnds ++ v :: vs) := by
  have heol : s.current.isEndOfLine = true := by
    obtain ⟨e, es, rfl⟩ := List.exists_cons_of_ne_nil hne
    rw [hs.current]
    exact hes e List.mem_cons_self
  have plain := fun k => constructBody_of_line (k := k) hr hbody heol
  cases h with
  | conditional c =>
    have hv' := not_eol_of_not_endsHere hv
    have hdrop : ∀ t ∈ es.drop 1, t.isEndOfLine = true :=
      fun t ht => hes t (List.mem_of_mem_drop ht)
    obtain ⟨t, ht, htahead⟩ := consumeLineEnd_ahead hes hv' hs
    obtain ⟨u, hu, huahead⟩ := consumeLineEnd_ahead hdrop hv' htahead
    have hnot := fun k => not_continues (k := k) hdrop hv htahead
    have hdeep : lineBody (n + 1) r = .ok body s := lineBody_mono (Nat.le_succ n) hbody
    refine ⟨.conditional ⟨start, u.previous.stop⟩ [.mk ⟨start, s.previous.stop⟩ .ifClause
      (some (.identifier places.1 c)) body], u, ?_, ⟨_, _, _, rfl⟩, ?_⟩
    · rw [remainder, conditionalRemainder, current_bind, if_neg (by simp [hr]), bind_apply, hdeep]
      simp only
      rw [bind_apply, extentFrom_apply]
      simp only
      rw [bind_apply, ht]
      simp only
      rw [bind_apply, elseIfLines_of_not (hnot _ (.inl rfl))]
      simp only
      rw [bind_apply, elseLine_of_not (hnot _ (.inr (.inl rfl)))]
      simp only
      rw [bind_apply, consumeKeyword_of_not (hnot _ (.inr (.inr rfl)))]
      simp only [Bool.not_false, if_true]
      rw [bind_apply, hu]
      rfl
    · rw [List.drop_drop] at huahead
      exact huahead
  | whileLoop c =>
    refine ⟨.whileLoop ⟨start, s.previous.stop⟩ (.identifier places.1 c) body, s, ?_,
      ⟨_, _, rfl⟩, hs⟩
    rw [remainder, bind_apply, plain]
    · rfl
    · simp
  | forLoop w c =>
    refine ⟨.forLoop ⟨start, s.previous.stop⟩ (.identifier places.1 w) (.identifier places.2 c)
      body, s, ?_, ⟨_, _, _, rfl⟩, hs⟩
    rw [remainder, bind_apply, plain]
    · rfl
    · simp
  | function f =>
    refine ⟨.function ⟨start, s.previous.stop⟩ (some f) [] body, s, ?_, ⟨_, rfl⟩, hs⟩
    rw [remainder, bind_apply, plain]
    · rfl
    · simp

theorem onlyClause {e : Extent} {k k' : Clause} {more last : List Clause}
    (hok : (do return Node.conditional (← extentFrom start) (k :: more ++ last)) r =
      .ok (.conditional e [k']) s) : k = k' := by
  cases more with
  | cons _ _ => cases hok
  | nil =>
    cases last with
    | cons _ _ => cases hok
    | nil =>
      cases hok
      rfl

/-- The body of a construct on the line of its header is what the rest of the line is read to. -/
theorem lineBody_of_remainder (h : Header) (hr : r.current.isEndOfLine = false)
    (hok : h.remainder places start n r = .ok node s) (hbody : h.Encloses body node) :
    ∃ m t, lineBody m r = .ok body t := by
  have plain : ∀ k, (do
      let body ← constructBody n k
      return h.enclose places (← extentFrom start) body) r = .ok node s →
      ∃ m t, lineBody m r = .ok body t := by
    intro k hok
    obtain ⟨body', t, hc, hok'⟩ := bind_eq_ok.1 hok
    cases hok'
    obtain rfl := enclose_eq h hbody
    exact lineBody_of_constructBody hr hc
  cases h with
  | conditional c =>
    obtain ⟨e, e₁, e₂, rfl⟩ := hbody
    rw [remainder, conditionalRemainder, current_bind, if_neg (by simp [hr])] at hok
    obtain ⟨body', r₁, hline, hok₁⟩ := bind_eq_ok.1 hok
    obtain ⟨_, r₂, _, hok₂⟩ := bind_eq_ok.1 hok₁
    obtain ⟨_, r₃, _, hok₃⟩ := bind_eq_ok.1 hok₂
    obtain ⟨more, r₄, _, hok₄⟩ := bind_eq_ok.1 hok₃
    obtain ⟨last, r₅, _, hok₅⟩ := bind_eq_ok.1 hok₄
    obtain ⟨b, r₆, _, hok₆⟩ := bind_eq_ok.1 hok₅
    have hclause : body' = body := by
      cases b with
      | true =>
        cases onlyClause hok₆
        rfl
      | false =>
        obtain ⟨_, r₇, _, hok₇⟩ := bind_eq_ok.1 hok₆
        cases onlyClause hok₇
        rfl
    exact ⟨n, r₁, hclause ▸ hline⟩
  | whileLoop c => exact plain _ hok
  | forLoop v c => exact plain _ hok
  | function f => exact plain _ hok

end Header

end LineScript
