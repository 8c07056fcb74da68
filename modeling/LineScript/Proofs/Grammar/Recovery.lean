import LineScript.Proofs.Grammar.Contained
import LineScript.Proofs.Grammar.Leniency
import LineScript.Proofs.Grammar.Placing

/-!
# A broken line costs only itself

Behind a broken line a lenient reading does what a strict one does in front of a source text: it
forgets nothing of what it recorded and adds nothing to it. Main statement: a line without quotes,
brackets, braces and reserved words in front of a source text that can be read adds statements of
its own, and errors on its own line, and changes nothing else.
-/

namespace LineScript

namespace Reader

/-- The place of a lenient reading that does what a strict one does and has recorded errors
before. -/
structure Forgives (errors : List ParseError) (r r' : Reader) : Prop where
  strict : r.lenient = false
  same : r' = { r with lenient := true, errors := errors }

variable {errors : List ParseError} {r r' s : Reader}

theorem Forgives.step (h : r.Forgives errors r') (hs : r.step = .ok s) :
    ∃ s', r'.step = .ok s' ∧ s.Forgives errors s' := by
  obtain ⟨hstrict, rfl⟩ := h
  obtain ⟨t, rest, hrest, rfl⟩ | ⟨hrest, hstop, rfl⟩ := step_ok hs
  · exact ⟨_, by simp only [Reader.step, hrest], hstrict, rfl⟩
  · refine ⟨{ r with lenient := true, errors := errors, previous := r.current }, ?_, hstrict, rfl⟩
    simp [Reader.step, hrest, hstop]

theorem Forgives.note (h : r.Forgives errors r') (name : String) :
    (r.note name).Forgives errors (r'.note name) := by
  obtain ⟨hstrict, rfl⟩ := h
  unfold Reader.note
  split <;> exact ⟨hstrict, rfl⟩

end Reader

namespace Reading

open Reader (Forgives Faces)

theorem numberBehindPoint_forgives {errors : List ParseError} {r r' : Reader} {b : Bool}
    (h : r.Forgives errors r') (hb : numberBehindPoint r = .ok b r) :
    numberBehindPoint r' = .ok b r' := by
  obtain ⟨_, rfl⟩ := h
  unfold numberBehindPoint at hb ⊢
  split at hb
  next hdot =>
    rw [if_pos hdot]
    obtain ⟨k, t, hp, hk⟩ := bind_eq_ok.1 hb
    cases hk
    refine bind_eq_ok.2 ⟨k, _, ?_, rfl⟩
    unfold peek at hp ⊢
    split at hp <;> cases hp <;> simp [*]
  next hdot =>
    rw [if_neg hdot]
    cases hb
    rfl

/-- Lenient reading repeats strict reading, whatever was recorded before. -/
theorem forward_forgives (errors : List ParseError) :
    Forward .same (fun _ => True) (Forgives errors) where
  strict h := h.strict
  limit _ _ := trivial
  current h := by
    obtain ⟨_, rfl⟩ := h
    rfl
  previous h := by
    obtain ⟨_, rfl⟩ := h
    rfl
  step h hs _ := h.step hs
  point h _ hb := numberBehindPoint_forgives h hb
  note name h := h.note name

/-- Statements that can be read strictly are read leniently in the same way elsewhere, and nothing
is recorded. -/
theorem block_lenient {p : Placement} {k m : Nat} {r r' s s' : Reader} {S more : List Node}
    (hr : Faces p r { r' with lenient := false }) (hl : r'.lenient = true)
    (h : block k r = .ok S s) (h' : block m r' = .ok more s') :
    more = S.map (Node.relocate p.place) ∧ s'.current = s.current.relocate p ∧
      s'.errors = r'.errors := by
  have hfaces := block_faces k hr
  rw [h] at hfaces
  obtain ⟨S₁, s₁, h₁, ⟨hS₁, _⟩, hs₁⟩ := hfaces.ok
  have hforgives : Forgives r'.errors { r' with lenient := false } r' := by
    refine ⟨rfl, ?_⟩
    cases r'
    cases hl
    rfl
  obtain ⟨S₂, s₂, h₂, hS₂, hs₂⟩ :=
    (built k).block.forward (forward_forgives r'.errors) hforgives h₁ trivial
  -- Both bounds are enough, so the results are the same.
  have hdeep := block_mono (Nat.le_max_left k m) h₂
  rw [block_mono (Nat.le_max_right k m) h'] at hdeep
  cases hdeep
  obtain ⟨_, rfl⟩ := hs₂
  refine ⟨?_, hs₁.current, rfl⟩
  rw [hS₂.eq, hS₁]

variable {L : BrokenLine} {S : List Node}

/-- Whatever is read behind the line as statements is `S`, up to the end of the source and without
errors. -/
def Leaves (L : BrokenLine) (S : List Node) : Prop :=
  ∀ ⦃m r s more⦄, L.Behind r → block m r = .ok more s →
    more = S ∧ s.current.isEndOfFile = true ∧ s.errors = r.errors

/-- Behind a line the statements of a source text are read, one line down. -/
theorem leaves_of_block {t : Token} {ts : List Token} {offset k : Nat} {s : Reader}
    (hfirst : L.first = t.relocate (.shift 1 offset 0))
    (hbehind : L.behind = ts.map (Token.relocate (.shift 1 offset 0)))
    (h : block k (Reader.ofFirst t ts) = .ok S s) (hend : s.current.isEndOfFile = true) :
    Leaves L (S.map (Node.relocate (Position.down 1))) := by
  intro m r s' more hr hmore
  have hfaces : (Reader.ofFirst t ts).Faces (.shift 1 offset 0) { r with lenient := false } :=
    ⟨rfl, rfl, rfl, hr.unstopped, hr.current.trans hfirst, hr.rest.trans hbehind⟩
  obtain ⟨hmore, hcurrent, herrors⟩ := block_lenient hfaces hr.lenient h hmore
  rw [Placement.shift_place] at hmore
  exact ⟨hmore, by rw [hcurrent, Token.isEndOfFile_relocate, hend], herrors⟩

/-- A source text with a broken line in front has the statements of the line, and then those that
are read behind it. -/
theorem chunkBody_inside {n : Nat} {r s : Reader} {body : List Node} (hS : Leaves L S)
    (hr : L.Inside r) (h : chunkBody n r = .ok body s) :
    ∃ N, body = N ++ S ∧ (∀ a ∈ N, L.Holds a) ∧ ∀ e ∈ s.errors, e.line = L.number := by
  cases n with
  | zero => cases h
  | succ n =>
    rw [chunkBody] at h
    obtain ⟨body', s', hblock, h⟩ := bind_eq_ok.1 h
    obtain ⟨N, more, m, r', rfl, hN, hr', hm⟩ := block_inside hr hblock
    obtain ⟨rfl, hend, herrors⟩ := hS hr' hm
    rw [current_bind, if_pos hend] at h
    cases h
    exact ⟨N, rfl, hN, herrors ▸ hr'.errors⟩

theorem outline_inside {n : Nat} {us : List Token} {found : List LexError} {s : Reader}
    {c : Position × List Node × Position} (hS : Leaves L S) (hus : ∀ u ∈ us, L.Plain u)
    (h : outline n (Reader.ofTokens true ⟨us ++ L.stop :: L.first :: L.behind, none, found⟩) =
      .ok c s) :
    ∃ N, c.2.1 = N ++ S ∧ (∀ a ∈ N, L.Holds a) ∧ ∀ e ∈ s.errors, e.line = L.number := by
  unfold outline at h
  obtain ⟨_, r, hstep, h⟩ := bind_eq_ok.1 h
  have hr : L.Inside r := by
    obtain ⟨t, rest, hrest, rfl⟩ | ⟨hrest, _, _⟩ := Reader.step_ok (advance_ok hstep)
    · exact ⟨rfl, rfl, by simp [Reader.ofTokens], us, hrest.symm, hus⟩
    · simp [Reader.ofTokens] at hrest
  rw [current_bind] at h
  obtain ⟨body, s', hbody, h⟩ := bind_eq_ok.1 h
  cases h
  exact chunkBody_inside hS hr hbody

end Reading

open Reading

/-- A broken line costs only itself. For a line without line breaks, quotes, opening brackets and
braces and reserved words, in front of a source text that can be read, lenient reading gives nodes
of the line, and then the statements of the source text one line down; every error is on the
line. -/
theorem parse_behind_brokenLine (tabWidth : Nat) (line source : String)
    (hline : ∀ x ∈ line.toList, x ∉ Scan.spanning)
    (hwords : ∀ t ∈ (TokenStream.ofSource ⟨true, tabWidth⟩ line).tokens, t.isReserved = false)
    (hm : source.toList.head? ≠ some '\r') {out : Parsed}
    (hout : parse ⟨false, tabWidth⟩ source = .ok out) :
    ∃ extent N names errors,
      parse ⟨true, tabWidth⟩ (line ++ "\n" ++ source) =
        .ok ⟨.chunk extent (N ++ out.chunk.statements.map (Node.relocate (Position.down 1))) names,
          errors⟩ ∧
      (∀ a ∈ N, a.Everywhere fun m => m.line = 1) ∧ ∀ e ∈ errors, e.line = 1 := by
  obtain ⟨t, ts, hstream⟩ : ∃ t ts,
      TokenStream.ofSource ⟨false, tabWidth⟩ source = ⟨t :: ts, none, []⟩ := by
    obtain ⟨ts, _, e, _, _, _, _, hstream⟩ := parse_strict_scans hout
    obtain ⟨t, us, hus⟩ := List.exists_cons_of_ne_nil (show ts ++ [e] ≠ [] by simp)
    exact ⟨t, us, hus ▸ hstream⟩
  obtain ⟨k, _, hblock, hend⟩ := (parse_strict_ok hstream).1 ⟨out, hout, rfl⟩
  obtain ⟨us, e, stop, offset, found, halone, hus, hfound, heol, hstop, hfront⟩ :=
    TokenStream.ofSource_line hline hm (by rw [hstream])
  rw [hstream, List.map_cons] at hfront
  let L : BrokenLine := ⟨1, stop, t.relocate (.shift 1 offset 0),
    ts.map (Token.relocate (.shift 1 offset 0)), heol, hstop⟩
  have hplain : ∀ u ∈ us, L.Plain u := fun u hu =>
    ⟨hus u hu, Token.kind_of_not_isReserved (hwords u (by simp [halone, hu]))⟩
  obtain ⟨c, s, houtline⟩ := outline_lenient tabWidth (line ++ "\n" ++ source)
  have hparse := parse_of_outline houtline
  rw [hfront] at houtline hparse
  obtain ⟨N, hbody, hN, herrors⟩ :=
    outline_inside (leaves_of_block (L := L) rfl rfl hblock hend) hplain houtline
  rw [hbody] at hparse
  refine ⟨_, N, _, _, hparse, hN, ?_⟩
  intro x hx
  obtain hx | hx := List.mem_append.1 hx
  · obtain ⟨y, hy, rfl⟩ := List.mem_map.1 hx
    exact hfound y hy
  · obtain ⟨y, hy, rfl⟩ := List.mem_map.1 hx
    exact herrors y hy

/-- An open parenthesis, an operand that is missing and a character that begins no token. -/
theorem parse_behind_brokenLine_openCall :
    ∃ extent N names errors,
      parse ⟨true, 1⟩ ("f(1, * ; ) $ if" ++ "\n" ++ "x = y") =
        .ok ⟨.chunk extent (N ++ [.assignment ⟨⟨2, 1⟩, ⟨2, 6⟩⟩ (.identifier ⟨⟨2, 1⟩, ⟨2, 2⟩⟩ "x")
          (.identifier ⟨⟨2, 5⟩, ⟨2, 6⟩⟩ "y")]) names, errors⟩ ∧
      (∀ a ∈ N, a.Everywhere fun m => m.line = 1) ∧ ∀ e ∈ errors, e.line = 1 :=
  parse_behind_brokenLine 1 "f(1, * ; ) $ if" "x = y" (by simp [Scan.spanning]) (by decide)
    (by decide) rfl

end LineScript
