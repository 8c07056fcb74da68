import LineScript.Proofs.Token.Splice

/-!
# Scanning loses nothing

What is written between the tokens of a source text is known: behind a line break its last
character, then blanks, then at most one comment. Every token but a line break has its own text in
its span. A layout says so token by token, and one step of scanning adds one token to a layout. Main
statement: the tokens of a source text that scans without an error, and the texts between them,
make up the source text.
-/

namespace LineScript

/-- The characters of a text that lie in a span. -/
def Span.slice (s : Span) (source : List Char) : List Char :=
  (source.drop s.start).take (s.stop - s.start)

namespace Scan

/-- A comment runs up to a line break or up to the end of the source. -/
structure IsComment (comment behind : List Char) : Prop where
  opened : ['/', '/'] <+: comment
  inLine : ∀ x ∈ comment, isLineBreak x = false
  closed : ∀ x ∈ behind.head?, isLineBreak x = true

/-- Blanks, and behind them at most one comment. -/
def IsGap (gap behind : List Char) : Prop :=
  ∃ blanks comment, gap = blanks ++ comment ∧ (∀ x ∈ blanks, isBlank x = true) ∧
    (comment = [] ∨ IsComment comment behind)

/-- A gap does not begin with a line break. -/
theorem IsGap.head {gap behind : List Char} (h : IsGap gap behind) :
    ∀ x ∈ gap.head?, isLineBreak x = false := by
  obtain ⟨blanks, comment, rfl, hblanks, hcomment⟩ := h
  intro x hx
  cases blanks with
  | cons b blanks =>
    cases hx
    have hx := hblanks x (by simp)
    have hx : x = ' ' ∨ x = '\t' := by simpa [isBlank] using hx
    rcases hx with rfl | rfl <;> rfl
  | nil =>
    rcases hcomment with rfl | hcomment
    · cases hx
    · exact hcomment.inLine x (List.mem_of_mem_head? hx)

/-- The character that makes one line break together with the given one. -/
def linePartner (x : Char) : Char := if x == '\n' then '\r' else '\n'

/-- A line break is one character, or a character with its partner in front of it. -/
theorem lineBreakLength_cases (cs : List Char) :
    lineBreakLength cs = 1 ∨ ∃ y ys, cs = linePartner y :: y :: ys ∧ isLineBreak y = true ∧
      lineBreakLength cs = 2 := by
  unfold lineBreakLength
  split
  next ys => exact .inr ⟨'\r', ys, rfl, rfl, rfl⟩
  next ys => exact .inr ⟨'\n', ys, rfl, rfl, rfl⟩
  · exact .inl rfl

theorem unescape_escape (s : List Char) : unescape (escape s) = s := by
  fun_induction escape s with
  | case1 cs ih => rw [unescape, ih]
  | case2 c cs hc ih =>
    rw [unescape, ih]
    intro _ h
    exact absurd h hc
  | case3 => rfl

/-- In front of the closing quote every quote is doubled. -/
theorem escape_unescape_quotedBody (cs : List Char) :
    escape (unescape (quotedBody cs)) = quotedBody cs := by
  fun_induction quotedBody cs with
  | case1 cs ih => rw [unescape, escape, ih]
  | case2 => rfl
  | case3 c cs _ hc ih =>
    have hu : unescape (c :: quotedBody cs) = c :: unescape (quotedBody cs) := by
      rw [unescape]
      intro _ h
      exact absurd h hc
    rw [hu, escape, ih]
    exact hc
  | case4 => rfl

/-- Behind the text of a string literal is the end of the source or the closing quote. -/
theorem quotedBody_append (cs : List Char) :
    cs = quotedBody cs ∨ ∃ rest, cs = quotedBody cs ++ '"' :: rest := by
  fun_induction quotedBody cs with
  | case1 cs ih =>
    rcases ih with h | ⟨rest, h⟩
    · left
      rw [← h]
    · right
      exact ⟨rest, by rw [List.cons_append, List.cons_append, ← h]⟩
  | case2 cs => exact .inr ⟨cs, rfl⟩
  | case3 c cs _ _ ih =>
    rcases ih with h | ⟨rest, h⟩
    · left
      rw [← h]
    · right
      exact ⟨rest, by rw [List.cons_append, ← h]⟩
  | case4 => exact .inl rfl

end Scan

open Scan

namespace Token

/-- Whether the span of a token begins at a line break. -/
def BreaksLine (source : List Char) (t : Token) : Prop :=
  t.isEndOfLine = true ∧ ∃ x, source[t.span.start]? = some x ∧ isLineBreak x = true

/-- A token has its text in its span. A string literal is written between quotes, with its own
quotes doubled; only the value of a line break is not written. -/
def IsWritten (source : List Char) (t : Token) : Prop :=
  match t.kind with
  | .endOfFile => t.span = ⟨source.length, source.length⟩
  | .endOfLine => t.BreaksLine source ∨ t.span.slice source = t.value.toList
  | .string => ∃ body, t.span.slice source = '"' :: body ++ ['"'] ∧
      unescape body = t.value.toList ∧ escape t.value.toList = body
  | .punctuator p => t.span.slice source = t.value.toList ∧ t.value = p.text
  | _ => t.span.slice source = t.value.toList

/-- What is written between two tokens: the last character of a line break, then a gap. -/
def IsParted (source : List Char) (t u : Token) : Prop :=
  ∃ tail gap, Span.slice ⟨t.span.stop, u.span.start⟩ source = tail ++ gap ∧
    (t.BreaksLine source → ∃ x, tail = [x] ∧ isLineBreak x = true) ∧
    (¬ t.BreaksLine source → tail = []) ∧ IsGap gap (source.drop u.span.start)

/-- The text in the span of a token, told from the token and from what is written behind it. -/
def lexeme (t : Token) (behind : List Char) : List Char :=
  match t.kind, behind with
  | .endOfFile, _ => []
  | .string, _ => '"' :: escape t.value.toList ++ ['"']
  | .endOfLine, x :: _ =>
    if isLineBreak x then List.replicate (t.span.stop - t.span.start) (linePartner x)
    else t.value.toList
  | _, _ => t.value.toList

/-- The texts behind the spans of tokens, each up to the token behind it. -/
def gaps (source : List Char) : List Token → List (List Char)
  | [] => []
  | [t] => [source.drop t.span.stop]
  | t :: u :: ts => Span.slice ⟨t.span.stop, u.span.start⟩ source :: gaps source (u :: ts)

/-- The text that tokens and the texts behind them make up. -/
def rebuild : List Token → List (List Char) → List Char
  | t :: ts, gap :: gaps => t.lexeme gap ++ gap ++ rebuild ts gaps
  | _, _ => []

/-- How a token is written: the text in its span, and the last character of a line break, which its
span leaves out. -/
inductive Spells (t : Token) : List Char → List Char → Prop where
  | plain (hline : t.kind ≠ .endOfLine) (hend : t.kind ≠ .endOfFile) (hstring : t.kind ≠ .string)
      (hp : ∀ p, t.kind = .punctuator p → t.value = p.text) : Spells t t.value.toList []
  | semicolon (hk : t.kind = .endOfLine) (hv : t.value = ";") : Spells t [';'] []
  | string (hk : t.kind = .string) : Spells t ('"' :: escape t.value.toList ++ ['"']) []
  | lineBreak (hk : t.kind = .endOfLine) {x : Char} (hx : isLineBreak x = true) : Spells t [] [x]
  | pairedBreak (hk : t.kind = .endOfLine) {x : Char} (hx : isLineBreak x = true) :
      Spells t [linePartner x] [x]

end Token

/-- From an offset on, a source text is laid out as tokens with gaps in front of them. -/
inductive Layout (source : List Char) : Nat → List Token → Prop where
  | atEnd {o : Nat} {t : Token} (ho : o ≤ source.length) (hgap : IsGap (source.drop o) [])
      (hk : t.kind = .endOfFile) (hspan : t.span = ⟨source.length, source.length⟩) :
      Layout source o [t]
  | token {o : Nat} {t : Token} {ts : List Token} {gap text tail rest : List Char}
      (hsource : source.drop o = gap ++ (text ++ (tail ++ rest)))
      (hgap : IsGap gap (text ++ (tail ++ rest)))
      (hspan : t.span = ⟨o + gap.length, o + gap.length + text.length⟩)
      (hspells : t.Spells text tail)
      (hts : Layout source (o + gap.length + text.length + tail.length) ts) :
      Layout source o (t :: ts)

/-- A punctuator is read where it is written. -/
theorem Punctuator.take_width {p : Punctuator} {cs : List Char} (h : ofChars? cs = some p) :
    cs.take p.width = p.text.toList := by
  unfold ofChars? at h
  split at h <;> cases h
  all_goals rfl

namespace Cursor

/-- A cursor stands where its offset says. -/
structure Stands (source : List Char) (c : Cursor) : Prop where
  inside : c.offset ≤ source.length
  rest : source.drop c.offset = c.rest

theorem ofSource_stands (source : String) : (ofSource source).Stands source.toList :=
  ⟨Nat.zero_le _, rfl⟩

theorem across_offset (c : Cursor) (cs : List Char) :
    (c.across cs).offset = c.offset + cs.length := by
  fun_induction c.across cs with
  | case6 => rfl
  | _ =>
    rename_i ih
    rw [ih]
    simp only [breakLine, advance, List.length_cons]
    omega

/-- Reading a token takes the text of the token and the last character of a line break. -/
structure Takes (c : Cursor) (t : Token) (c' : Cursor) (text tail : List Char) : Prop where
  rest : c.rest = text ++ (tail ++ c'.rest)
  span : t.span = .between c.offset (c.offset + text.length)
  offset : c'.offset = c.offset + text.length + tail.length
  spells : t.Spells text tail

/-- Blanks and a comment are a gap in front of what is left. -/
theorem skip_gap (tabWidth : Nat) (c : Cursor) :
    ∃ gap, c.rest = gap ++ (c.skipBlanks tabWidth).skipComment.rest ∧
      IsGap gap (c.skipBlanks tabWidth).skipComment.rest ∧
      (c.skipBlanks tabWidth).skipComment.offset = c.offset + gap.length := by
  have hblank : ∀ x ∈ c.rest.takeWhile isBlank, isBlank x = true := by
    exact List.all_eq_true.1 List.all_takeWhile
  have hrest : (c.skipBlanks tabWidth).rest = c.rest.dropWhile isBlank :=
    drop_length_takeWhile isBlank c.rest
  have hsplit : c.rest = c.rest.takeWhile isBlank ++ c.rest.dropWhile isBlank :=
    List.takeWhile_append_dropWhile.symm
  generalize hb : c.skipBlanks tabWidth = b at hrest
  have hoffset : b.offset = c.offset + (c.rest.takeWhile isBlank).length := by rw [← hb]; rfl
  unfold skipComment
  split
  next cs hcs =>
    obtain ⟨comment, hdef⟩ : ∃ comment, comment = b.rest.takeWhile fun x => !isLineBreak x :=
      ⟨_, rfl⟩
    have hline : b.skipLine.rest = b.rest.dropWhile fun x => !isLineBreak x :=
      drop_length_takeWhile _ b.rest
    have hcomment : b.rest = comment ++ b.skipLine.rest := by
      rw [hline, hdef]
      exact List.takeWhile_append_dropWhile.symm
    refine ⟨c.rest.takeWhile isBlank ++ comment, ?_,
      ⟨_, comment, rfl, hblank, .inr ⟨?_, ?_, ?_⟩⟩, ?_⟩
    · rw [List.append_assoc, ← hcomment, hrest]
      exact hsplit
    · refine ⟨cs.takeWhile fun x => !isLineBreak x, ?_⟩
      simp [hdef, hcs, isLineBreak]
    · intro x hx
      rw [hdef] at hx
      have hall := List.all_eq_true.1 (List.all_takeWhile (l := b.rest)) x hx
      simpa using hall
    · intro x hx
      have := List.head?_dropWhile_not (fun x => !isLineBreak x) b.rest
      rw [hline] at hx
      rw [hx] at this
      simpa using this
    · change b.offset + _ = _
      rw [hoffset, List.length_append, hdef, Nat.add_assoc]
  · refine ⟨c.rest.takeWhile isBlank, ?_,
      ⟨_, [], (List.append_nil _).symm, hblank, .inl rfl⟩, hoffset⟩
    rw [hrest]
    exact hsplit

/-- No word is a string literal or a punctuator. -/
theorem wordKind_word (first text : String) :
    wordKind first text ≠ .string ∧ ∀ p, wordKind first text ≠ .punctuator p := by
  have hplain : plainWordKind text ≠ .string ∧ ∀ p, plainWordKind text ≠ .punctuator p := by
    unfold plainWordKind
    split
    · simp
    split <;> simp
  unfold wordKind
  split
  · split
    · simp
    · exact hplain
  · exact hplain

/-- A token whose value is its text takes that text. -/
theorem plainToken_takes {c : Cursor} {n : Nat} {kind : TokenKind} {text : List Char}
    (hn : n ≤ c.rest.length) (htext : c.rest.take n = text)
    (hspells : (c.plainToken n kind).1.Spells text []) :
    Takes c (c.plainToken n kind).1 (c.plainToken n kind).2 text [] := by
  have hlength : text.length = n := by rw [← htext, List.length_take, Nat.min_eq_left hn]
  constructor
  · change c.rest = text ++ ([] ++ c.rest.drop n)
    rw [List.nil_append, ← htext, List.take_append_drop]
  · rw [hlength]
    rfl
  · rw [hlength]
    rfl
  · exact hspells

theorem lineBreak_takes {c : Cursor} {x : Char} {xs : List Char} (hc : c.rest = x :: xs)
    (hx : isLineBreak x = true) :
    ∃ text tail, Takes c c.lineBreak.1 c.lineBreak.2 text tail := by
  rcases lineBreakLength_cases (x :: xs) with hlength | ⟨y, ys, hxs, hy, hlength⟩
  · rw [← hc] at hlength
    refine ⟨[], [x], ?_, ?_, ?_, .lineBreak rfl hx⟩
    · simp only [lineBreak, hlength, breakLine]
      rw [hc]
      rfl
    · simp only [lineBreak, hlength]
      rfl
    · simp only [lineBreak, hlength]
      rfl
  · rw [← hc] at hlength
    refine ⟨[linePartner y], [y], ?_, ?_, ?_, .pairedBreak rfl hy⟩
    · simp only [lineBreak, hlength, breakLine]
      rw [hc, hxs]
      rfl
    · simp only [lineBreak, hlength]
      rfl
    · simp only [lineBreak, hlength]
      rfl

theorem stringToken_takes {c c' : Cursor} {xs : List Char} {t : Token} (hc : c.rest = '"' :: xs)
    (h : c.stringToken = (.ok t, c')) : ∃ text, Takes c t c' text [] := by
  have hbody : c.rest.drop 1 = xs := by rw [hc]; rfl
  unfold stringToken at h
  dsimp only at h
  rw [hbody] at h
  have hinner : ((c.advance 1).across (quotedBody xs)).rest = xs.drop (quotedBody xs).length := by
    rw [across_rest, advance_rest, hbody]
  split at h
  · cases h
  next y ys hy =>
    cases h
    rw [hinner] at hy
    obtain hxs | ⟨rest, hxs⟩ := quotedBody_append xs
    · have hnil : xs.drop (quotedBody xs).length = [] := by
        rw [← hxs]
        exact List.drop_length
      rw [hnil] at hy
      cases hy
    · have hbehind : ∀ body, xs = body ++ '"' :: rest → xs.drop (body.length + 1) = rest := by
        intro body hxs
        rw [hxs, List.drop_append, Nat.add_sub_cancel_left]
        simp
      have hrest := hbehind _ hxs
      have hescape : escape (String.ofList (unescape (quotedBody xs))).toList = quotedBody xs := by
        rw [String.toList_ofList, escape_unescape_quotedBody]
      have hlength : ('"' :: quotedBody xs ++ ['"']).length = (quotedBody xs).length + 2 := by
        simp
      refine ⟨'"' :: quotedBody xs ++ ['"'], ?_, ?_, ?_, ?_⟩
      · rw [advance_rest, hinner, List.drop_drop, hrest, hc]
        nth_rewrite 1 [hxs]
        simp
      · rw [hlength]
        simp only [tokenTo, advance, across_offset, Nat.add_assoc, Nat.add_comm 1]
      · rw [hlength]
        simp only [advance, across_offset, List.length_nil]
        omega
      · have := Token.Spells.string (t := c.tokenTo
          (((c.advance 1).across (quotedBody xs)).advance 1) .string
          (String.ofList (unescape (quotedBody xs)))) rfl
        rw [tokenTo, hescape] at this
        exact this

/-- Every token but the end of the source is read off its text. -/
theorem readToken_takes {c c' : Cursor} {t : Token} (h : c.readToken = (.ok t, c'))
    (ht : t.isEndOfFile = false) : ∃ text tail, Takes c t c' text tail := by
  obtain ⟨-, rfl, -⟩ | ⟨l, hl, h⟩ := readToken_ok h
  · cases ht
  have hbegins := begins_of_lexeme? hl
  generalize hc : c.rest = cs at hbegins
  cases hbegins with
  | lineBreak hx =>
    cases h
    exact lineBreak_takes hc hx
  | word _ hx =>
    obtain ⟨hline, hend⟩ := wordKind_not_terminator (String.ofList (word c.rest))
      (c.peekText (wordLength c.rest))
    obtain ⟨hstring, hpunct⟩ := wordKind_word (String.ofList (word c.rest))
      (c.peekText (wordLength c.rest))
    cases h
    refine ⟨_, [], plainToken_takes wordLength_le rfl ?_⟩
    have := Token.Spells.plain (t := c.wordToken.1) hline hend hstring
      fun p hp => absurd hp (hpunct p)
    simpa only [wordToken, plainToken, tokenTo, peekText, String.toList_ofList] using this
  | string =>
    obtain ⟨text, htext⟩ := stringToken_takes hc h
    exact ⟨text, [], htext⟩
  | number =>
    cases h
    refine ⟨_, [], plainToken_takes numberLength_le rfl ?_⟩
    have := Token.Spells.plain (t := (c.plainToken (numberLength c.rest) .number).1)
      (by simp [plainToken, tokenTo]) (by simp [plainToken, tokenTo])
      (by simp [plainToken, tokenTo]) (by simp [plainToken, tokenTo])
    simpa only [plainToken, tokenTo, peekText, String.toList_ofList] using this
  | semicolon =>
    cases h
    refine ⟨[';'], [], plainToken_takes (by simp [hc]) (by simp [hc]) (.semicolon rfl ?_)⟩
    simp [plainToken, tokenTo, peekText, hc]
  | @punctuator _ _ p _ hp =>
    cases h
    rw [← hc] at hp
    have htake := Punctuator.take_width hp
    refine ⟨_, [], plainToken_takes (Punctuator.width_le hp) rfl ?_⟩
    have hvalue : c.peekText p.width = p.text := by
      rw [peekText, htake, String.ofList_toList]
    have := Token.Spells.plain (t := (c.plainToken p.width (.punctuator p)).1)
      (by simp [plainToken, tokenTo]) (by simp [plainToken, tokenTo])
      (by simp [plainToken, tokenTo]) (by
        intro q hq
        simp only [plainToken, tokenTo, TokenKind.punctuator.injEq] at hq
        subst hq
        exact hvalue)
    simpa only [plainToken, tokenTo, peekText, String.toList_ofList] using this

/-- A scanned token adds to the layout of the tokens behind it. -/
theorem scan_layout {source : List Char} {tabWidth : Nat} {c c' : Cursor} {t : Token}
    (hfits : source.length ≤ Span.lastOffset) (hc : c.Stands source)
    (h : c.scan tabWidth = (.ok t, c')) (ht : t.isEndOfFile = false) :
    c'.Stands source ∧ ∀ ts, Layout source c'.offset ts → Layout source c.offset (t :: ts) := by
  obtain ⟨gap, hrest, hgap, hoffset⟩ := c.skip_gap tabWidth
  obtain ⟨text, tail, htakes⟩ := readToken_takes h ht
  rw [htakes.rest] at hrest hgap
  have hstop : c'.offset = c.offset + gap.length + text.length + tail.length := by
    rw [htakes.offset, hoffset]
  have hlength : c'.offset ≤ source.length ∧ source.drop c'.offset = c'.rest := by
    have hstart := hc.rest
    rw [hrest] at hstart
    have hdrop : source.drop c'.offset = c'.rest := by
      rw [hstop, ← List.drop_drop, ← List.drop_drop, ← List.drop_drop, hstart]
      simp only [List.drop_left]
    have hinside := hc.inside
    have hsize := congrArg List.length hstart
    simp only [List.length_drop, List.length_append] at hsize
    exact ⟨by omega, hdrop⟩
  refine ⟨⟨hlength.1, hlength.2⟩, ?_⟩
  intro ts hts
  have hspan : t.span = ⟨c.offset + gap.length, c.offset + gap.length + text.length⟩ := by
    rw [htakes.span, hoffset]
    exact Span.between_eq (Nat.le_add_right _ _) (by omega)
  rw [hstop] at hts
  exact .token (hc.rest.trans hrest) hgap hspan htakes.spells hts

/-- At the end of the source a gap is left. -/
theorem scan_layout_end {source : List Char} {tabWidth : Nat} {c c' : Cursor} {t : Token}
    (hfits : source.length ≤ Span.lastOffset) (hc : c.Stands source)
    (h : c.scan tabWidth = (.ok t, c')) (ht : t.isEndOfFile = true) :
    Layout source c.offset [t] := by
  obtain ⟨gap, hrest, hgap, hoffset⟩ := c.skip_gap tabWidth
  have hnil := readToken_end h ht
  have hinside := hc.inside
  rw [hnil] at hrest hgap
  rw [List.append_nil] at hrest
  rw [← hrest, ← hc.rest] at hgap
  have hk : t.kind = .endOfFile := by simpa [Token.isEndOfFile] using ht
  have hsize : c.offset + gap.length = source.length := by
    rw [← hrest, ← hc.rest, List.length_drop]
    omega
  have hspan : t.span = ⟨source.length, source.length⟩ := by
    unfold scan readToken at h
    simp only [hnil] at h
    cases h
    simp only [tokenTo, hoffset, hsize]
    exact Span.between_eq (Nat.le_refl _) hfits
  exact .atEnd hinside hgap hk hspan

/-- What is scanned up to the end of the source is a layout of it. -/
theorem Scans.layout {source : List Char} {tabWidth : Nat} {c d d' : Cursor} {ts : List Token}
    {t : Token} (hfits : source.length ≤ Span.lastOffset) (h : Scans tabWidth c ts d)
    (hc : c.Stands source)
    (hd : d.scan tabWidth = (.ok t, d')) (ht : t.isEndOfFile = true) :
    Layout source c.offset (ts ++ [t]) := by
  induction h with
  | done => exact scan_layout_end hfits hc hd ht
  | next hscan hnot _ ih =>
    obtain ⟨hc', hadd⟩ := scan_layout hfits hc hscan hnot
    exact hadd _ (ih hc' hd)

end Cursor

theorem Span.slice_append (source : List Char) {a b c : Nat} (hab : a ≤ b) (hbc : b ≤ c) :
    Span.slice ⟨a, c⟩ source = Span.slice ⟨a, b⟩ source ++ Span.slice ⟨b, c⟩ source := by
  obtain ⟨m, rfl⟩ := Nat.exists_eq_add_of_le hab
  obtain ⟨n, rfl⟩ := Nat.exists_eq_add_of_le hbc
  have hc : a + m + n - a = m + n := by omega
  simp only [slice, hc, Nat.add_sub_cancel_left, ← List.drop_drop, List.take_add]

theorem Span.slice_append_drop (source : List Char) {a b : Nat} (hab : a ≤ b) :
    source.drop a = Span.slice ⟨a, b⟩ source ++ source.drop b := by
  obtain ⟨m, rfl⟩ := Nat.exists_eq_add_of_le hab
  rw [slice, Nat.add_sub_cancel_left, ← List.drop_drop, List.take_append_drop]

/-- The span of a text holds that text. -/
theorem Span.slice_of_drop {source front text behind : List Char} {o : Nat}
    (h : source.drop o = front ++ (text ++ behind)) :
    Span.slice ⟨o + front.length, o + front.length + text.length⟩ source = text := by
  rw [slice, ← List.drop_drop, h, List.drop_left, Nat.add_sub_cancel_left, List.take_left]

namespace Layout

variable {source : List Char} {o : Nat} {ts : List Token}

/-- The text of a token stands at its offset. -/
theorem drop_start {gap text behind : List Char} (h : source.drop o = gap ++ (text ++ behind)) :
    source.drop (o + gap.length) = text ++ behind := by
  rw [← List.drop_drop, h, List.drop_left]

/-- The tokens of a layout lie behind its offset and inside the source. -/
theorem inside (h : Layout source o ts) :
    o ≤ source.length ∧ ∀ t ∈ ts, o ≤ t.span.start ∧ t.span.start ≤ t.span.stop ∧
      t.span.stop ≤ source.length := by
  induction h with
  | atEnd ho _ _ hspan =>
    refine ⟨ho, ?_⟩
    intro u hu
    rw [List.mem_singleton.1 hu, hspan]
    exact ⟨ho, Nat.le_refl _, Nat.le_refl _⟩
  | token _ _ hspan _ _ ih =>
    obtain ⟨hinside, hts⟩ := ih
    refine ⟨by omega, ?_⟩
    intro u hu
    rcases List.mem_cons.1 hu with rfl | hu
    · rw [hspan]
      dsimp only
      exact ⟨Nat.le_add_right _ _, Nat.le_add_right _ _, by omega⟩
    · obtain ⟨hstart, hstop⟩ := hts u hu
      exact ⟨by omega, hstop⟩

/-- The tokens of a layout are in order and share no character. -/
theorem ordered (h : Layout source o ts) :
    ts.Pairwise fun t u => t.span.stop ≤ u.span.start := by
  induction h with
  | atEnd => exact List.pairwise_singleton _ _
  | token _ _ hspan _ hts ih =>
    refine List.pairwise_cons.2 ⟨?_, ih⟩
    intro u hu
    have hstart := (hts.inside.2 u hu).1
    rw [hspan]
    dsimp only
    omega

/-- The last token of a layout is the end of the source, and no other is. -/
theorem ending (h : Layout source o ts) :
    ∃ front last, ts = front ++ [last] ∧ (∀ t ∈ front, t.isEndOfFile = false) ∧
      last.isEndOfFile = true ∧ last.span = ⟨source.length, source.length⟩ := by
  induction h with
  | @atEnd _ t _ _ hk hspan => exact ⟨[], t, rfl, by simp, by simp [Token.isEndOfFile, hk], hspan⟩
  | @token _ t _ _ _ _ _ _ _ _ hspells _ ih =>
    obtain ⟨front, last, hts, hfront, hlast⟩ := ih
    refine ⟨t :: front, last, by rw [hts]; rfl, ?_, hlast⟩
    intro u hu
    rcases List.mem_cons.1 hu with rfl | hu
    · cases hspells <;> simp_all [Token.isEndOfFile]
    · exact hfront u hu

/-- Only line breaks leave a character behind their span. -/
theorem breaksLine_iff {t : Token} {gap text tail rest : List Char}
    (hsource : source.drop o = gap ++ (text ++ (tail ++ rest)))
    (hspan : t.span = ⟨o + gap.length, o + gap.length + text.length⟩)
    (hspells : t.Spells text tail) : t.BreaksLine source ↔ tail ≠ [] := by
  have hfirst : source[t.span.start]? = (text ++ (tail ++ rest)).head? := by
    rw [hspan, ← List.head?_drop, drop_start hsource]
  cases hspells with
  | plain hline _ _ _ =>
    simp [Token.BreaksLine, Token.isEndOfLine, hline]
  | semicolon hk _ =>
    have hno : isLineBreak ';' = false := rfl
    simp [Token.BreaksLine, hfirst, hno]
  | string hk =>
    simp [Token.BreaksLine, Token.isEndOfLine, hk]
  | lineBreak hk hx =>
    simp [Token.BreaksLine, Token.isEndOfLine, hk, hfirst, hx]
  | @pairedBreak hk x hx =>
    have hpartner : isLineBreak (linePartner x) = true := by
      unfold linePartner
      split <;> rfl
    simp [Token.BreaksLine, Token.isEndOfLine, hk, hfirst, hpartner]

/-- Every token of a layout has its text in its span. -/
theorem written (h : Layout source o ts) : ∀ t ∈ ts, t.IsWritten source := by
  induction h with
  | atEnd _ _ hk hspan =>
    intro u hu
    rw [List.mem_singleton.1 hu]
    simpa [Token.IsWritten, hk] using hspan
  | @token o t ts gap text tail rest hsource _ hspan hspells _ ih =>
    intro u hu
    rcases List.mem_cons.1 hu with rfl | hu
    · have hslice : u.span.slice source = text := by
        rw [hspan]
        exact Span.slice_of_drop hsource
      have hbreaks := breaksLine_iff hsource hspan hspells
      unfold Token.IsWritten
      cases hspells with
      | plain hline hend hstring hp =>
        cases hk : u.kind with
        | punctuator p => exact ⟨hslice, hp p hk⟩
        | endOfLine => exact absurd hk hline
        | endOfFile => exact absurd hk hend
        | string => exact absurd hk hstring
        | _ => exact hslice
      | semicolon hk hv =>
        rw [hk]
        right
        rw [hslice, hv]
        rfl
      | string hk =>
        rw [hk]
        exact ⟨_, hslice, unescape_escape _, rfl⟩
      | lineBreak hk _ =>
        rw [hk]
        exact .inl (hbreaks.2 (by simp))
      | pairedBreak hk _ =>
        rw [hk]
        exact .inl (hbreaks.2 (by simp))
    · exact ih u hu

/-- In front of the first token of a layout is a gap. -/
theorem front {t : Token} (h : Layout source o (t :: ts)) :
    o ≤ t.span.start ∧ IsGap (Span.slice ⟨o, t.span.start⟩ source) (source.drop t.span.start) := by
  cases h with
  | atEnd ho hgap _ hspan =>
    have hslice : Span.slice ⟨o, source.length⟩ source = source.drop o := by
      rw [Span.slice, ← List.length_drop, List.take_length]
    rw [hspan]
    dsimp only
    rw [hslice, List.drop_length]
    exact ⟨ho, hgap⟩
  | token hsource hgap hspan _ _ =>
    have hnone := hsource.trans (List.nil_append _).symm
    have hslice := Span.slice_of_drop hnone
    simp only [List.length_nil, Nat.add_zero] at hslice
    rw [hspan]
    dsimp only
    rw [hslice, drop_start hsource]
    exact ⟨Nat.le_add_right _ _, hgap⟩

/-- What is written between two tokens of a layout, behind the last character of a line break. -/
theorem between {t u : Token} {gap text tail rest : List Char}
    (hsource : source.drop o = gap ++ (text ++ (tail ++ rest)))
    (hspan : t.span = ⟨o + gap.length, o + gap.length + text.length⟩)
    (hts : Layout source (o + gap.length + text.length + tail.length) (u :: ts)) :
    ∃ between, Span.slice ⟨t.span.stop, u.span.start⟩ source = tail ++ between ∧
      IsGap between (source.drop u.span.start) := by
  obtain ⟨hle, hgap⟩ := hts.front
  refine ⟨_, ?_, hgap⟩
  have hbehind : source.drop (o + (gap ++ text).length) = [] ++ (tail ++ rest) := by
    rw [← List.drop_drop, hsource, ← List.append_assoc, List.drop_left]
    rfl
  have htail := Span.slice_of_drop hbehind
  simp only [List.length_append, List.length_nil, Nat.add_zero, ← Nat.add_assoc] at htail
  rw [hspan]
  dsimp only
  rw [Span.slice_append source (Nat.le_add_right _ tail.length) hle, htail]

/-- Neighbouring tokens of a layout are parted by a line break or a gap. -/
theorem parted (h : Layout source o ts) : ts.IsChain (Token.IsParted source) := by
  induction h with
  | atEnd => exact .singleton _
  | @token o t ts gap text tail rest hsource _ hspan hspells hts ih =>
    cases ts with
    | nil => cases hts
    | cons u ts =>
      refine .cons_cons ?_ ih
      obtain ⟨gap', hslice, hgap'⟩ := between hsource hspan hts
      have hbreaks := breaksLine_iff hsource hspan hspells
      refine ⟨tail, gap', hslice, ?_, ?_, hgap'⟩
      · intro hb
        cases hspells with
        | lineBreak _ hx => exact ⟨_, rfl, hx⟩
        | pairedBreak _ hx => exact ⟨_, rfl, hx⟩
        | _ => exact absurd rfl (hbreaks.1 hb)
      · intro hb
        by_contra hne
        exact hb (hbreaks.2 hne)

/-- The text of a token is told from the token and what is written behind it. -/
theorem lexeme_eq {t : Token} {text tail gap behind : List Char} (hspells : t.Spells text tail)
    (hlength : t.span.stop - t.span.start = text.length) (hgap : IsGap gap behind) :
    t.lexeme (tail ++ gap) = text := by
  cases hspells with
  | plain hline hend hstring _ =>
    cases hk : t.kind with
    | endOfLine => exact absurd hk hline
    | endOfFile => exact absurd hk hend
    | string => exact absurd hk hstring
    | _ => simp [Token.lexeme, hk]
  | semicolon hk hv =>
    cases gap with
    | nil => simp [Token.lexeme, hk, hv]
    | cons x gap =>
      have hx := hgap.head x rfl
      simp [Token.lexeme, hk, hv, hx]
  | string hk => simp [Token.lexeme, hk]
  | lineBreak hk hx =>
    rw [List.length_nil] at hlength
    simp [Token.lexeme, hk, hx, hlength]
  | pairedBreak hk hx =>
    rw [List.length_singleton] at hlength
    simp [Token.lexeme, hk, hx, hlength]

/-- The tokens of a layout and the texts behind them make up the source from the first token on. -/
theorem rebuilt {t : Token} (h : Layout source o (t :: ts)) :
    source.drop t.span.start = Token.rebuild (t :: ts) (Token.gaps source (t :: ts)) := by
  induction ts generalizing o t with
  | nil =>
    cases h with
    | atEnd _ _ hk hspan => simp [Token.rebuild, Token.gaps, Token.lexeme, hk, hspan]
    | token _ _ _ _ hts => cases hts
  | cons u ts ih =>
    cases h with
    | @token _ _ _ _ text _ _ hsource hgap hspan hspells hts =>
      obtain ⟨gap', hslice, hgap'⟩ := between hsource hspan hts
      have hstops := (hts.inside.2 u (by simp)).1
      have hlexeme : t.lexeme (Span.slice ⟨t.span.stop, u.span.start⟩ source) = text := by
        rw [hslice]
        exact lexeme_eq hspells (by rw [hspan]; exact Nat.add_sub_cancel_left _ _) hgap'
      have htext : t.span.slice source = text := by
        rw [hspan]
        exact Span.slice_of_drop hsource
      rw [Token.gaps, Token.rebuild, hlexeme, ← ih hts]
      calc source.drop t.span.start
          = Span.slice ⟨t.span.start, t.span.stop⟩ source ++ source.drop t.span.stop :=
            Span.slice_append_drop source (by rw [hspan]; exact Nat.le_add_right _ _)
        _ = Span.slice ⟨t.span.start, t.span.stop⟩ source ++
            (Span.slice ⟨t.span.stop, u.span.start⟩ source ++ source.drop u.span.start) := by
            congr 1
            refine Span.slice_append_drop source ?_
            rw [hspan]
            dsimp only
            omega
        _ = _ := by
            rw [List.append_assoc, ← htext]

end Layout

/-- Nothing of a source text is lost in its tokens. -/
structure Lossless (source : List Char) (tokens : List Token) : Prop where
  /-- Spans lie inside the source. -/
  inside : ∀ t ∈ tokens, t.span.start ≤ t.span.stop ∧ t.span.stop ≤ source.length
  /-- Spans are in order and share no character. -/
  ordered : tokens.Pairwise fun t u => t.span.stop ≤ u.span.start
  /-- The last token, and no other, is the end of the source, behind its last character. -/
  ending : ∃ front last, tokens = front ++ [last] ∧ (∀ t ∈ front, t.isEndOfFile = false) ∧
    last.isEndOfFile = true ∧ last.span = ⟨source.length, source.length⟩
  /-- Spans hold the texts of their tokens. -/
  written : ∀ t ∈ tokens, t.IsWritten source
  /-- In front of the first token is a gap. -/
  front : ∀ t ∈ tokens.head?, IsGap (source.take t.span.start) (source.drop t.span.start)
  /-- Between neighbouring tokens is a gap, behind the last character of a line break. -/
  parted : tokens.IsChain (Token.IsParted source)
  /-- The gap in front, the tokens and the texts between them make up the source. -/
  rebuilt : source = (tokens.head?.elim [] fun t => source.take t.span.start) ++
    Token.rebuild tokens (Token.gaps source tokens)

theorem Layout.lossless {source : List Char} {tokens : List Token} (h : Layout source 0 tokens) :
    Lossless source tokens where
  inside t ht := (h.inside.2 t ht).2
  ordered := h.ordered
  ending := h.ending
  written := h.written
  front t ht := by
    obtain ⟨ts, rfl⟩ : ∃ ts, tokens = t :: ts := by
      cases tokens with
      | nil => cases ht
      | cons u ts =>
        cases ht
        exact ⟨ts, rfl⟩
    simpa [Span.slice] using h.front.2
  parted := h.parted
  rebuilt := by
    cases tokens with
    | nil => cases h
    | cons t ts =>
      rw [← h.rebuilt]
      exact (List.take_append_drop _ _).symm

/-- A source text whose offsets are all told apart, and that a strict scanner reads to its end,
loses nothing in its tokens. -/
theorem TokenStream.ofSource_lossless (tabWidth : Nat) (source : String)
    (hfits : source.length ≤ Span.lastOffset)
    (h : (ofSource ⟨false, tabWidth⟩ source).stop = none) :
    Lossless source.toList (ofSource ⟨false, tabWidth⟩ source).tokens := by
  obtain ⟨ts, d, t, d', hscans, hd, ht, htokens⟩ := ofSource_scans h
  rw [htokens]
  rw [← String.length_toList] at hfits
  exact (hscans.layout hfits (Cursor.ofSource_stands source) hd ht).lossless

/-- A comment, a pair of line break characters, doubled quotes and a closing word. -/
theorem TokenStream.lossless_quotes_and_comment :
    "x // y\r\n\t\"a\"\"\";end\tif".length ≤ Span.lastOffset ∧
      (ofSource ⟨false, 4⟩ "x // y\r\n\t\"a\"\"\";end\tif").stop = none ∧
      Lossless "x // y\r\n\t\"a\"\"\";end\tif".toList
        (ofSource ⟨false, 4⟩ "x // y\r\n\t\"a\"\"\";end\tif").tokens := by
  have hfits : "x // y\r\n\t\"a\"\"\";end\tif".length ≤ Span.lastOffset := by decide +kernel
  have h : (ofSource ⟨false, 4⟩ "x // y\r\n\t\"a\"\"\";end\tif").stop = none := by decide +kernel
  exact ⟨hfits, h, ofSource_lossless 4 _ hfits h⟩

end LineScript
