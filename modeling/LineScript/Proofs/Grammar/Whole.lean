import LineScript.Proofs.Grammar.Bound
import LineScript.Proofs.Token.Splice

/-!
# Reading a whole source text

A source text is read by reading the block of its statements. Main statements: a strict reading
succeeds if and only if that block reaches the end of the source, and it reports a word that closes
no block if and only if the block ends in front of such a word.
-/

namespace LineScript

namespace Reading

/-- Where a source text begins and ends, and its statements. -/
def outline (n : Nat) : Reading (Position × List Node × Position) := do
  advance
  let start := (← current).start
  let body ← chunkBody n
  let stop := (← current).stop
  return (start, body, stop)

/-- A source text is read by reading its statements and taking note of the names met. -/
theorem chunk_apply (n : Nat) (r : Reader) :
    chunk n r = match outline n r with
      | .ok c s => .ok (.chunk ⟨c.1, c.2.2⟩ c.2.1 s.names) s
      | .error e s => .error e s := by
  simp only [chunk, outline, bind_apply]
  cases advance r with
  | error e s => rfl
  | ok _ s =>
    have hc : current s = .ok s.current s := rfl
    simp only [hc]
    cases chunkBody n s <;> rfl

/-- The same statements with the same ends at another place. -/
def SameOutline (p : Placement) (allow : Bool) (a b : Position × List Node × Position) : Prop :=
  b.1 = p.place a.1 ∧ p.statements allow a.2.1 b.2.1 ∧ b.2.2 = p.place a.2.2

theorem outline_alike {p : Placement} {slack allow : Bool} {n m : Nat}
    (h : n = m ∨ slack = true ∧ n ≤ m) :
    Alike p slack true allow (SameOutline p allow) (outline n) (outline m) := by
  refine .seq .advance (.bind .current ?_)
  rintro t _ rfl
  refine .bind (chunkBody_alike h) fun as bs hab => .bind .current ?_
  rintro u _ rfl
  exact .pure ⟨rfl, hab, rfl⟩

/-- Reading a source text is built from steps. -/
theorem outline_built (allow : Bool) (n : Nat) :
    Alike .same false true allow (SameOutline .same allow) (outline n) (outline n) :=
  outline_alike (.inl rfl)

/-- The statements of a source text are read up to its end. -/
theorem chunkBody_ends {n : Nat} {r s : Reader} {body : List Node}
    (h : chunkBody n r = .ok body s) : s.current.isEndOfFile = true := by
  induction n generalizing r body with
  | zero => cases h
  | succ n ih =>
    rw [chunkBody] at h
    obtain ⟨a, r₁, _, h⟩ := bind_eq_ok.1 h
    obtain ⟨t, r₂, h₂, h⟩ := bind_eq_ok.1 h
    obtain ⟨rfl, rfl⟩ := current_ok h₂
    split at h
    next ht =>
      cases h
      exact ht
    · obtain ⟨c, r₃, _, h⟩ := bind_eq_ok.1 h
      obtain ⟨more, r₄, h₄, h⟩ := bind_eq_ok.1 h
      cases h
      exact ih h₄

theorem outline_ends {n : Nat} {r s : Reader} {c : Position × List Node × Position}
    (h : outline n r = .ok c s) : s.current.isEndOfFile = true := by
  unfold outline at h
  obtain ⟨_, r₁, _, h⟩ := bind_eq_ok.1 h
  obtain ⟨_, r₂, _, h⟩ := bind_eq_ok.1 h
  obtain ⟨body, r₃, h₃, h⟩ := bind_eq_ok.1 h
  cases h
  exact chunkBody_ends h₃

theorem outline_unexhausted {lenient : Bool} {stream : TokenStream} {s : Reader}
    (h : (Reader.ofTokens lenient stream).Sound) :
    outline (nestingBound stream.tokens.length) (Reader.ofTokens lenient stream) ≠
      .error .exhausted s := by
  intro he
  refine chunk_unexhausted (s := s) h ?_
  rw [chunk_apply, he]

end Reading

open Reading

/-- The tokens of a source text end with the end of the source, unless an error stops a strict
scanner. -/
theorem TokenStream.ofSource_sound (mode : ReadingMode) (source : String) :
    (Reader.ofTokens mode.lenient (ofSource mode source)).Sound where
  last hs t ht := by
    obtain ⟨u, hu, hlast⟩ := Scanner.drain_last (n := source.length + 1)
      (s := .ofSource mode source) (Nat.lt_succ_of_le (Nat.le_of_eq String.length_toList)) hs
    have : (Reader.placeholder :: (ofSource mode source).tokens).getLast? = some u := by
      rw [List.getLast?_cons, show (ofSource mode source).tokens.getLast? = some u from hu]
      rfl
    rw [Reader.ofTokens, this] at ht
    cases ht
    exact hlast
  lenient hl := Scanner.drain_lenient hl

/-- Reading a source text gives the tree of its statements, with the errors passed over. -/
theorem parse_of_outline {mode : ReadingMode} {source : String}
    {c : Position × List Node × Position} {s : Reader}
    (h : outline (nestingBound (TokenStream.ofSource mode source).tokens.length)
      (Reader.ofTokens mode.lenient (TokenStream.ofSource mode source)) = .ok c s) :
    parse mode source = .ok ⟨.chunk ⟨c.1, c.2.2⟩ c.2.1 s.names,
      (TokenStream.ofSource mode source).errors.map .lex ++ s.errors.map .parse⟩ := by
  simp only [parse, TokenStream.parse, chunk_apply, h]

theorem parse_of_outline_error {mode : ReadingMode} {source : String} {e : SourceError}
    {s : Reader} (h : outline (nestingBound (TokenStream.ofSource mode source).tokens.length)
      (Reader.ofTokens mode.lenient (TokenStream.ofSource mode source)) =
        .error (.sourceError e) s) :
    parse mode source = .error e := by
  simp only [parse, TokenStream.parse, chunk_apply, h]

/-- A source text that is read up to its end was scanned up to its end. -/
theorem outline_stop {tabWidth : Nat} {source : String} {n : Nat}
    {c : Position × List Node × Position} {s : Reader}
    (h : outline n (Reader.ofTokens false (TokenStream.ofSource ⟨false, tabWidth⟩ source)) =
      .ok c s) :
    (TokenStream.ofSource ⟨false, tabWidth⟩ source).stop = none := by
  cases hstop : (TokenStream.ofSource ⟨false, tabWidth⟩ source).stop with
  | none => rfl
  | some e =>
    -- The end of the source was read, so no error stopped the scanner in front of it.
    have hend := outline_ends h
    have hlead := ((outline_built true n).leads (fun _ => rfl) h).2
    have hmem : s.current ∈ Reader.placeholder ::
        (TokenStream.ofSource ⟨false, tabWidth⟩ source).tokens :=
      hlead.tokens.subset List.mem_cons_self
    obtain heq | hmem := List.mem_cons.1 hmem
    · rw [heq] at hend
      cases hend
    · rw [TokenStream.ofSource_stopped hstop _ hmem] at hend
      cases hend

/-- What a strict reading accepts scans up to its end. -/
theorem parse_strict_scans {tabWidth : Nat} {source : String} {out : Parsed}
    (h : parse ⟨false, tabWidth⟩ source = .ok out) :
    ∃ ts d e d', Cursor.Scans tabWidth (.ofSource source) ts d ∧
      d.scan tabWidth = (.ok e, d') ∧ e.isEndOfFile = true ∧
      TokenStream.ofSource ⟨false, tabWidth⟩ source = ⟨ts ++ [e], none, []⟩ := by
  have hstop : (TokenStream.ofSource ⟨false, tabWidth⟩ source).stop = none := by
    simp only [parse, TokenStream.parse, chunk_apply] at h
    cases ho : outline (nestingBound (TokenStream.ofSource ⟨false, tabWidth⟩ source).tokens.length)
        (Reader.ofTokens false (TokenStream.ofSource ⟨false, tabWidth⟩ source)) with
    | ok c s => exact outline_stop ho
    | error e s =>
      rw [ho] at h
      cases e <;> cases h
  obtain ⟨ts, d, e, d', hts, hd, he, -⟩ := TokenStream.ofSource_scans hstop
  exact ⟨ts, d, e, d', hts, hd, he, TokenStream.ofSource_of_scans hts hd he⟩

namespace Reading

/-- Only a whole source text reports that a word closes no block. -/
theorem Alike.not_stray {α : Type} {p : Placement} {slack allow : Bool} {V : α → α → Prop}
    {x y : Reading α} (h : Alike p slack false allow V x y) {r s : Reader} {e : ParseError}
    (hr : r.lenient = false) (hx : x r = .error (.sourceError (.parse e)) s) :
    e.fault ≠ .unexpectedEndOfFile := by
  induction h generalizing r with
  | pure _ => cases hx
  | @bind α β V W x y k l hxy hk ihx ihk =>
    rw [bind_apply] at hx
    cases hxr : x r with
    | ok a t =>
      rw [hxr] at hx
      obtain ⟨⟨b, hab⟩, hrt⟩ := hxy.leads (by simp [hr]) hxr
      exact ihk a b hab (hrt.lenient.trans hr) hx
    | error e' t =>
      rw [hxr] at hx
      cases hx
      exact ihx hr hxr
  | exhausted _ => cases hx
  | current | previous | note => cases hx
  | advance =>
    unfold Reading.advance at hx
    split at hx
    · cases hx
    next hstep =>
      obtain ⟨_, _, _, rfl⟩ := Reader.step_error hstep
      cases hx
  | point =>
    unfold numberBehindPoint at hx
    split at hx
    · rw [bind_apply] at hx
      unfold peek at hx
      split at hx
      · cases hx
      next hp =>
        split at hp
        · cases hp
        · cases hp
          cases hx
        · cases hp
    · cases hx
  | raise hf _ =>
    rw [raise_strict hr] at hx
    cases hx
    intro he
    cases hf he

theorem outline_deep {n m : Nat} (h : n ≤ m) (r : Reader) :
    Alike.Deepens (fun a b => b = a) (outline n r) (outline m r) := by
  refine ((outline_alike (.inr ⟨rfl, h⟩)).deepens r).weaken ?_
  rintro ⟨a₁, a₂, a₃⟩ ⟨b₁, b₂, b₃⟩ ⟨h₁, h₂, h₃⟩
  simp only at h₁ h₂ h₃
  rw [h₁, h₂.eq, h₃]
  rfl

theorem block_deep {n m : Nat} (h : n ≤ m) (r : Reader) :
    Alike.Deepens (fun a b => b = a) (block n r) (block m r) :=
  ((level (.inr ⟨rfl, h⟩)).block.deepens r).weaken fun _ _ h => h.eq

/-- A successful reading of statements is not changed by a deeper bound. -/
theorem block_mono {n m : Nat} {r s : Reader} {a : List Node} (h : n ≤ m)
    (hn : block n r = .ok a s) : block m r = .ok a s := by
  have := block_deep h r
  rw [hn] at this
  obtain ⟨_, hm, rfl⟩ := this
  exact hm

end Reading

/-- The reader at the first of some tokens, all of which are the tokens of a source text. -/
def Reader.ofFirst (t : Token) (ts : List Token) : Reader :=
  ⟨false, t, placeholder, ts, none, [], []⟩

section

variable {tabWidth : Nat} {source : String} {t : Token} {ts : List Token}

/-- The outcome of a reading under any bound is the outcome under the bound that is used. -/
theorem outline_settled (hs : TokenStream.ofSource ⟨false, tabWidth⟩ source = ⟨t :: ts, none, []⟩)
    {n : Nat} (hn : ∀ s, outline n (Reader.ofTokens false ⟨t :: ts, none, []⟩) ≠
      .error .exhausted s) :
    outline (nestingBound (t :: ts).length) (Reader.ofTokens false ⟨t :: ts, none, []⟩) =
      outline n (Reader.ofTokens false ⟨t :: ts, none, []⟩) := by
  have hsound := TokenStream.ofSource_sound ⟨false, tabWidth⟩ source
  rw [hs] at hsound
  have hb := fun s => outline_unexhausted (s := s) hsound
  obtain h | h := Nat.le_total n (nestingBound (t :: ts).length)
  all_goals
    have hdeep := outline_deep h (Reader.ofTokens false ⟨t :: ts, none, []⟩)
    revert hdeep
  · cases hz : outline n (Reader.ofTokens false ⟨t :: ts, none, []⟩) with
    | ok c s =>
      rintro ⟨_, h, rfl⟩
      exact h
    | error e s =>
      cases e with
      | exhausted => exact absurd hz (hn s)
      | sourceError e => exact id
  · cases hz : outline (nestingBound (t :: ts).length)
        (Reader.ofTokens false ⟨t :: ts, none, []⟩) with
    | ok c s =>
      rintro ⟨_, h, rfl⟩
      exact h.symm
    | error e s =>
      cases e with
      | exhausted => exact absurd hz (hb s)
      | sourceError e => exact Eq.symm

/-- A source text is read by reading the block of its statements. -/
theorem outline_eq_block (n : Nat) :
    outline (n + 1) (Reader.ofTokens false ⟨t :: ts, none, []⟩) =
      match block n (Reader.ofFirst t ts) with
      | .ok S s =>
        if s.current.isEndOfFile then .ok (t.start, S, s.current.stop) s
        else .error (.sourceError (.parse (.ofToken .unexpectedEndOfFile s.current))) s
      | .error e s => .error e s := by
  have hstep : advance (Reader.ofTokens false ⟨t :: ts, none, []⟩) =
      .ok () (Reader.ofFirst t ts) := rfl
  unfold outline
  rw [bind_apply, hstep]
  simp only [current_bind]
  rw [bind_apply, chunkBody, bind_apply]
  cases h : block n (Reader.ofFirst t ts) with
  | error e s => rfl
  | ok S s =>
    have hl : s.lenient = false := (Advances.of_built (built n).block _ _ _ h).lenient
    simp only [current_bind]
    by_cases he : s.current.isEndOfFile = true
    · simp only [he, if_true]
      rfl
    · simp only [he, Bool.false_eq_true, if_false, bind_apply, raise_strict hl]

theorem nestingBound_eq_succ (n : Nat) : ∃ m, nestingBound n = m + 1 :=
  ⟨nestingBound n - 1, by unfold nestingBound; omega⟩

/-- What a block gives under any bound is what the reading of a source text gives. -/
theorem outline_of_block
    (hs : TokenStream.ofSource ⟨false, tabWidth⟩ source = ⟨t :: ts, none, []⟩) {n : Nat}
    {S : List Node} {s : Reader} (h : block n (Reader.ofFirst t ts) = .ok S s) :
    outline (nestingBound (t :: ts).length) (Reader.ofTokens false ⟨t :: ts, none, []⟩) =
      if s.current.isEndOfFile then .ok (t.start, S, s.current.stop) s
      else .error (.sourceError (.parse (.ofToken .unexpectedEndOfFile s.current))) s := by
  rw [outline_settled hs (n := n + 1), outline_eq_block, h]
  intro s'
  rw [outline_eq_block, h]
  dsimp only
  split <;> simp

/-- A strict reading of a source text succeeds if and only if the block of its statements reaches
the end of the source. -/
theorem parse_strict_ok
    (hs : TokenStream.ofSource ⟨false, tabWidth⟩ source = ⟨t :: ts, none, []⟩) {S : List Node} :
    (∃ out, parse ⟨false, tabWidth⟩ source = .ok out ∧ out.chunk.statements = S) ↔
      ∃ n s, block n (Reader.ofFirst t ts) = .ok S s ∧ s.current.isEndOfFile = true := by
  constructor
  · rintro ⟨out, hout, rfl⟩
    simp only [parse, TokenStream.parse, chunk_apply, hs] at hout
    obtain ⟨m, hm⟩ := nestingBound_eq_succ (t :: ts).length
    rw [hm, outline_eq_block] at hout
    cases h : block m (Reader.ofFirst t ts) with
    | error e s =>
      rw [h] at hout
      cases e <;> cases hout
    | ok S s =>
      rw [h] at hout
      by_cases he : s.current.isEndOfFile = true
      · simp only [he, if_true] at hout
        cases hout
        exact ⟨m, s, h, he⟩
      · simp [he] at hout
  · rintro ⟨n, s, h, he⟩
    have hparse : parse ⟨false, tabWidth⟩ source =
        .ok ⟨.chunk ⟨t.start, s.current.stop⟩ S s.names, s.errors.map .parse⟩ := by
      simp only [parse, TokenStream.parse, chunk_apply, hs]
      rw [outline_of_block hs h, if_pos he]
      rfl
    exact ⟨_, hparse, rfl⟩

/-- A strict reading of a source text reports a word that closes no block if and only if the block
of its statements ends in front of it. -/
theorem parse_strict_stray
    (hs : TokenStream.ofSource ⟨false, tabWidth⟩ source = ⟨t :: ts, none, []⟩) {value : String}
    {position : Position} :
    parse ⟨false, tabWidth⟩ source = .error (.parse ⟨.unexpectedEndOfFile, value, position⟩) ↔
      ∃ n S s, block n (Reader.ofFirst t ts) = .ok S s ∧ s.current.isEndOfFile = false ∧
        s.current.value = value ∧ s.current.start = position := by
  constructor
  · intro hout
    simp only [parse, TokenStream.parse, chunk_apply, hs] at hout
    have hsound := TokenStream.ofSource_sound ⟨false, tabWidth⟩ source
    rw [hs] at hsound
    have hb := fun s => outline_unexhausted (s := s) hsound
    obtain ⟨m, hm⟩ := nestingBound_eq_succ (t :: ts).length
    rw [hm, outline_eq_block] at hout
    simp only [hm, outline_eq_block] at hb
    cases h : block m (Reader.ofFirst t ts) with
    | error e s =>
      rw [h] at hout hb
      cases e with
      | exhausted => exact absurd rfl (hb s)
      | sourceError e =>
        cases hout
        have hlevel : Level .same false false true m m := level (.inl rfl)
        exact absurd rfl (hlevel.block.not_stray rfl h)
    | ok S s =>
      rw [h] at hout
      by_cases he : s.current.isEndOfFile = true
      · simp [he] at hout
      · simp only [he, Bool.false_eq_true, if_false] at hout
        cases hout
        exact ⟨m, S, s, h, by simpa using he, rfl, rfl⟩
  · rintro ⟨n, S, s, h, he, rfl, rfl⟩
    simp only [parse, TokenStream.parse, chunk_apply, hs]
    rw [outline_of_block hs h, if_neg (by simp [he])]
    rfl

end

end LineScript
