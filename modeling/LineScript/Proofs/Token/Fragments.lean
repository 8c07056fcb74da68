import LineScript.Proofs.Token.Words

/-!
# Parts of a source text

A text that scans alone scans in the same way as a part of another one, if a blank or a parenthesis
is behind it: its tokens are the same, at the places where the part stands. A comment at the end of
the text would swallow what is behind it, so only blanks may follow its last token.
-/

namespace LineScript

open Scan

namespace Scan

variable {x : Char} {p q : List Char}

/-- A character that goes on with no token in front of it. -/
structure Parts (x : Char) : Prop extends Stops x where
  slash : x ≠ '/'
  quote : x ≠ '"'
  lineBreak : isLineBreak x = false

theorem parts_blank : Parts ' ' := ⟨⟨by decide, by decide⟩, by decide, by decide, by decide⟩

theorem parts_parenthesis : Parts ')' := ⟨⟨by decide, by decide⟩, by decide, by decide, by decide⟩

theorem takeWhile_front {f : Char → Bool} (h : p.drop (p.takeWhile f).length ≠ []) :
    (p ++ q).takeWhile f = p.takeWhile f := by
  rw [List.takeWhile_append, if_neg]
  intro hall
  exact h (List.drop_eq_nil_of_le (Nat.le_of_eq hall.symm))

/-- A string literal that is closed does not depend on what is behind it, unless that is a quote. -/
theorem quotedBody_front (hx : x ≠ '"') (h : (quotedBody p).length < p.length) :
    quotedBody (p ++ x :: q) = quotedBody p := by
  induction p using quotedBody.induct with
  | case1 cs ih =>
    simp only [List.cons_append, quotedBody, List.length_cons] at h ⊢
    rw [ih (by omega)]
  | case2 cs hquote =>
    cases cs with
    | nil => simp [quotedBody, hx]
    | cons c cs =>
      have hc : c ≠ '"' := by
        rintro rfl
        exact hquote cs rfl
      simp [quotedBody, hc]
  | case3 c cs _ hc ih =>
    simp only [List.cons_append, quotedBody_cons hc, List.length_cons] at h ⊢
    rw [ih (by omega)]
  | case4 => simp at h

theorem lineBreakLength_front (hx : isLineBreak x = false) (hp : p ≠ []) :
    lineBreakLength (p ++ x :: q) = lineBreakLength p := by
  have hne : x ≠ '\n' ∧ x ≠ '\r' := by simpa [isLineBreak] using hx
  obtain _ | ⟨a, _ | ⟨b, p⟩⟩ := p
  · exact absurd rfl hp
  · simp [lineBreakLength, hne]
  · simp only [List.cons_append, lineBreakLength]
    split <;> simp_all

end Scan

namespace Cursor

variable {tabWidth : Nat} {c c' d : Cursor} {x : Char} {q : List Char} {t : Token}
  {ts : List Token}

theorem skipBlanks_front (h : (c.skipBlanks tabWidth).rest ≠ []) :
    (c.extend q).skipBlanks tabWidth = (c.skipBlanks tabWidth).extend q := by
  have hblanks : (c.rest ++ q).takeWhile isBlank = c.rest.takeWhile isBlank := takeWhile_front h
  simp only [skipBlanks, extend, hblanks, List.drop_append_of_le_length length_takeWhile_le]

theorem skipLine_front (h : c.skipLine.rest ≠ []) :
    (c.extend q).skipLine = c.skipLine.extend q := by
  have hline : (c.rest ++ q).takeWhile (fun y => !isLineBreak y) =
      c.rest.takeWhile fun y => !isLineBreak y := takeWhile_front h
  simp only [skipLine]
  rw [show (c.extend q).rest = c.rest ++ q from rfl, hline, advance_extend length_takeWhile_le]

theorem skipComment_front (hx : x ≠ '/') (h : c.skipComment.rest ≠ []) :
    (c.extend (x :: q)).skipComment = c.skipComment.extend (x :: q) := by
  by_cases hc : ∃ cs, c.rest = '/' :: '/' :: cs
  · obtain ⟨cs, hcs⟩ := hc
    have hline : c.skipComment = c.skipLine := by simp only [skipComment, hcs]
    have hline' : (c.extend (x :: q)).skipComment = (c.extend (x :: q)).skipLine := by
      simp only [skipComment, extend, hcs, List.cons_append]
    rw [hline] at h
    rw [hline, hline', skipLine_front h]
  · have plain : ∀ d : Cursor, (¬ ∃ cs, d.rest = '/' :: '/' :: cs) → d.skipComment = d := by
      intro d hd
      unfold skipComment
      split
      next cs hcs => exact absurd ⟨cs, hcs⟩ hd
      · rfl
    rw [plain c hc] at h ⊢
    refine plain _ ?_
    rintro ⟨cs, hcs⟩
    change c.rest ++ x :: q = _ at hcs
    rcases hrest : c.rest with _ | ⟨a, _ | ⟨b, rest⟩⟩
    · exact h hrest
    · rw [hrest] at hcs
      exact hx (List.cons.inj (List.cons.inj hcs).2).1
    · rw [hrest] at hcs
      simp only [List.cons_append, List.cons.injEq] at hcs
      exact hc ⟨rest, by rw [hrest, hcs.1, hcs.2.1]⟩

theorem stringToken_front (hx : x ≠ '"') (h : c.stringToken = (.ok t, c')) :
    (c.extend (x :: q)).stringToken = (.ok t, c'.extend (x :: q)) := by
  obtain ⟨y, cs, hrest⟩ : ∃ y cs, c.rest = y :: cs := by
    refine List.exists_cons_of_ne_nil fun hnil => ?_
    simp [stringToken, hnil, quotedBody] at h
  have hadvance : (c.extend (x :: q)).advance 1 = (c.advance 1).extend (x :: q) :=
    advance_extend (by simp [hrest])
  have hdrop : (c.extend (x :: q)).rest.drop 1 = cs ++ x :: q := by simp [extend, hrest]
  unfold stringToken at h ⊢
  simp only [hdrop, hadvance, hrest, List.drop_one, List.tail_cons] at h ⊢
  split at h
  · cases h
  next a as hclosing =>
    cases h
    simp only [across_rest, advance_rest, hrest, List.drop_one, List.tail_cons] at hclosing
    have hlt : (quotedBody cs).length < cs.length := by
      have hlength := congrArg List.length hclosing
      simp only [List.length_drop, List.length_cons] at hlength
      omega
    have hrest' : ((c.advance 1).across (quotedBody cs)).rest = a :: as := by
      simp [hrest, hclosing]
    rw [quotedBody_front hx hlt, across_extend (by simp [hrest]; omega)]
    have hextend : (((c.advance 1).across (quotedBody cs)).extend (x :: q)).rest =
        a :: (as ++ x :: q) := by simp only [extend, hrest', List.cons_append]
    simp only [hextend]
    rw [advance_extend (by simp only [hrest', List.length_cons]; omega)]
    rfl

/-- A word that a blank behind it could go on with closes a block. -/
theorem endsBlock_of_merging (h : c.rest ∈ [['e', 'n', 'd'], ['e', 'l', 's', 'e']]) :
    c.wordToken.1.endsBlock = true ∧ c.wordToken.2.rest = [] := by
  simp only [List.mem_cons, List.not_mem_nil, or_false] at h
  obtain h | h := h <;>
    simp only [wordToken, plainToken, tokenTo, Token.endsBlock, peekText, advance_rest, h] <;>
    exact ⟨by decide, by decide⟩

theorem wordToken_front (hx : Stops x)
    (hword : isBlank x = false ∨ c.wordToken.1.endsBlock = false ∨ c.wordToken.2.rest ≠ []) :
    (c.extend (x :: q)).wordToken = (c.wordToken.1, c.wordToken.2.extend (x :: q)) := by
  have hle : wordLength c.rest ≤ c.rest.length := wordLength_le
  have hlength : wordLength (c.rest ++ x :: q) = wordLength c.rest := by
    refine wordLength_stop hx (hword.imp_right fun h hmerging => ?_)
    obtain ⟨hends, hnil⟩ := endsBlock_of_merging hmerging
    simp [hends, hnil] at h
  simp only [wordToken]
  rw [show (c.extend (x :: q)).rest = c.rest ++ x :: q from rfl, hlength, word_stop hx,
    peekText_extend hle, plainToken_extend hle]

theorem readToken_front (hx : Parts x) (hc : c.rest ≠ []) (h : c.readToken = (.ok t, c'))
    (hlast : isBlank x = false ∨ t.endsBlock = false ∨ c'.rest ≠ []) :
    (c.extend (x :: q)).readToken = (.ok t, c'.extend (x :: q)) := by
  obtain ⟨hnil, -⟩ | ⟨l, hl, h⟩ := readToken_ok h
  · exact absurd hnil hc
  rw [readToken_of_lexeme? (c := c.extend (x :: q)) ((lexeme?_stop hx.toStops hc).trans hl)]
  have hbegins := begins_of_lexeme? hl
  cases l with
  | lineBreak =>
    cases h
    have hn : lineBreakLength (c.rest ++ x :: q) = lineBreakLength c.rest :=
      lineBreakLength_front hx.lineBreak hc
    have hle : lineBreakLength c.rest ≤ c.rest.length := lineBreakLength_le hc
    simp only [readLexeme, lineBreak, show (c.extend (x :: q)).rest = c.rest ++ x :: q from rfl, hn]
    rw [breakLine_extend hle, advance_extend (by omega)]
    rfl
  | word =>
    cases h
    rw [readLexeme, wordToken_front hx.toStops hlast]
  | string => exact stringToken_front hx.quote h
  | number =>
    cases h
    have hn : numberLength (c.extend (x :: q)).rest = numberLength c.rest :=
      numberLength_stop hx.toStops
    rw [readLexeme, readPlain, hn, plainToken_extend numberLength_le]
  | semicolon =>
    cases h
    have hle : 1 ≤ c.rest.length := List.length_pos_of_ne_nil hc
    rw [readLexeme, readPlain, plainToken_extend hle]
  | punctuator k =>
    cases h
    rw [readLexeme, readPlain, plainToken_extend hbegins.width_le]

/-- A token is scanned in the same way if more is written behind the text. -/
theorem scan_front (hx : Parts x) (h : c.scan tabWidth = (.ok t, c')) (ht : t.isEndOfFile = false)
    (hlast : isBlank x = false ∨ t.endsBlock = false ∨ c'.rest ≠ []) :
    (c.extend (x :: q)).scan tabWidth = (.ok t, c'.extend (x :: q)) := by
  have hrest : (c.skipBlanks tabWidth).skipComment.rest ≠ [] := by
    intro hnil
    simp only [scan, readToken, hnil] at h
    cases h
    cases ht
  have hblanks : (c.skipBlanks tabWidth).rest ≠ [] := by
    intro hnil
    have hsuffix := skipComment_suffix (c.skipBlanks tabWidth)
    rw [hnil, List.suffix_nil] at hsuffix
    exact hrest hsuffix
  rw [scan, skipBlanks_front hblanks, skipComment_front hx.slash hrest]
  exact readToken_front hx hrest h hlast

/-- Tokens are scanned in the same way if more is written behind the text. -/
theorem Scans.front (hx : Parts x) (h : Scans tabWidth c ts d)
    (hlast : isBlank x = false ∨ ∀ t ∈ ts.getLast?, t.endsBlock = false) :
    Scans tabWidth (c.extend (x :: q)) ts (d.extend (x :: q)) := by
  induction h with
  | done => exact .done
  | @next c c' d t ts h ht hts ih =>
    cases hts with
    | done => exact .next (scan_front hx h ht (hlast.imp_right fun h => .inl (h t rfl))) ht .done
    | @next _ c'' _ u us hu hu' hus =>
      have hne : c'.rest ≠ [] := by
        intro hnil
        have hlength := scan_length hu hu'
        simp [hnil] at hlength
      refine .next (scan_front hx h ht (.inr (.inr hne))) ht (ih (hlast.imp_right fun h => ?_))
      simpa [List.getLast?_cons_cons] using h

/-- Tokens behind a blank. -/
theorem Scans.behind_blank {q : List Char} (hc : c.rest = ' ' :: q) (hts : ts ≠ [])
    (h : Scans tabWidth (c.advance 1) ts d) : Scans tabWidth c ts d := by
  obtain ⟨t, ts, rfl⟩ := List.exists_cons_of_ne_nil hts
  refine h.of_scan_eq ?_
  have hskip : c.skipBlanks tabWidth = (c.advance 1).skipBlanks tabWidth := by
    have hblank : isBlank ' ' = true := rfl
    simp [skipBlanks, advance, hc, hblank, blanksWidth, blankWidth, Nat.add_assoc]
    omega
  rw [scan, scan, hskip]

/-- A punctuator behind blanks. -/
theorem Scans.punctuator (tabWidth : Nat) (k : Punctuator) (tail : List Char) {blanks : List Char}
    (hpage : c.OnPage) (hc : c.rest = blanks ++ (k.text.toList ++ tail))
    (hblanks : ∀ y ∈ blanks, isBlank y = true)
    (hk : Punctuator.ofChars? (k.text.toList ++ tail) = some k) (hdot : k ≠ .dot)
    (hslash : k = .slash → tail.head? ≠ some '/') :
    ∃ t d, Scans tabWidth c [t] d ∧ t.kind = .punctuator k ∧ t.line = d.line ∧ d.OnPage ∧
      d.rest = tail := by
  obtain ⟨t, d, hscan, hkind, -, hline, hrest, hd⟩ := scan_punctuator tabWidth hc hblanks hk hdot
    hslash
  have hscans : Scans tabWidth c [t] d := .next hscan (by simp [Token.isEndOfFile, hkind]) .done
  exact ⟨t, d, hscans, hkind, hline.trans hd.symm, hscans.onPage hpage, hrest⟩

/-- Wherever a text stands it is the text alone, at that place. -/
theorem exists_shift {source : String} {more : List Char} (hpage : c.OnPage)
    (hc : c.rest = source.toList ++ more) :
    ∃ lines offset indent, c = ((ofSource source).extend more).shift lines offset indent ∧
      (Placement.shift lines offset indent).line 1 = c.line := by
  obtain ⟨rest, offset, line, column⟩ := c
  have hline : 1 ≤ line := hpage.line
  have hcolumn : 1 ≤ column := hpage.column
  simp only at hc
  refine ⟨line - 1, offset, column - 1, ?_, ?_⟩
  · simp only [shift, extend, ofSource, hc, if_true, Cursor.mk.injEq, true_and]
    omega
  · simp only [Placement.shift]
    omega

end Cursor

/-- Tokens make up a text: they are scanned one behind the other, and only blanks are left behind
the last of them. -/
def Tokenizes (tabWidth : Nat) (source : String) (ts : List Token) : Prop :=
  ∃ d : Cursor, Cursor.Scans tabWidth (.ofSource source) ts d ∧ ∀ y ∈ d.rest, isBlank y = true

namespace Tokenizes

variable {tabWidth : Nat} {source : String} {ts : List Token} {c : Cursor} {x : Char}
  {q : List Char}

/-- A text in front of a blank or a parenthesis keeps its tokens. -/
theorem inFront (h : Tokenizes tabWidth source ts) (hx : Parts x)
    (hlast : isBlank x = false ∨ ∀ t ∈ ts.getLast?, t.endsBlock = false) (hpage : c.OnPage)
    (hc : c.rest = source.toList ++ x :: q) :
    ∃ (p : Placement) (blanks : List Char) (d : Cursor), p.line 1 = c.line ∧
      Cursor.Scans tabWidth c (ts.map (Token.relocate p)) d ∧ d.OnPage ∧
      d.rest = blanks ++ x :: q ∧ ∀ y ∈ blanks, isBlank y = true := by
  obtain ⟨d, hscans, hblanks⟩ := h
  obtain ⟨lines, offset, indent, hplace, hline⟩ := Cursor.exists_shift hpage hc
  obtain ⟨hshift, -⟩ := (hscans.front (q := q) hx hlast).shift lines offset indent
    ⟨Nat.le_refl 1, Nat.le_refl 1⟩
  rw [← hplace] at hshift
  exact ⟨_, d.rest, _, hline, hshift, hshift.onPage hpage, rfl, hblanks⟩

/-- A text at the end of another one, behind a blank, keeps its tokens. -/
theorem atEnd (h : Tokenizes tabWidth source ts) (hts : ts ≠ []) (hpage : c.OnPage)
    (hc : c.rest = ' ' :: source.toList) :
    ∃ (p : Placement) (d : Cursor) (last : Token) (d' : Cursor), p.line 1 = c.line ∧
      Cursor.Scans tabWidth c (ts.map (Token.relocate p)) d ∧ d.scan tabWidth = (.ok last, d') ∧
      last.kind = .endOfFile := by
  obtain ⟨d, hscans, hblanks⟩ := h
  have hrest : (c.advance 1).rest = source.toList ++ [] := by simp [hc]
  obtain ⟨lines, offset, indent, hplace, hline⟩ := Cursor.exists_shift (hpage.advance 1) hrest
  obtain ⟨hshift, -⟩ := hscans.shift lines offset indent (Cursor.ofSource_onPage source)
  rw [show (Cursor.ofSource source).extend [] = Cursor.ofSource source by
    simp [Cursor.extend]] at hplace
  rw [← hplace] at hshift
  obtain ⟨last, d', hend, hlast⟩ := Cursor.scan_end (c := d.shift lines offset indent) tabWidth
    hblanks
  exact ⟨_, _, last, d', hline, .behind_blank hc (by simpa using hts) hshift, hend, hlast⟩

end Tokenizes

end LineScript
