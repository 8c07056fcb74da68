import LineScript.Proofs.Token.Breaks
import Mathlib.Data.List.TakeWhile

/-!
# A line in front of a source text

A line without quotes is scanned in front of a line break as it is alone, its errors included: what
is behind an error is passed over up to the line break and not further. Main statement: the tokens
of the line, a line end, and the tokens of the text behind it, one line down, are the tokens of both
together.
-/

namespace LineScript

/-- Line breaks, and the characters that open a string, a list or a map. -/
def Scan.spanning : List Char := ['\n', '\r', '"', '[', '\x7b']

/-- A token on a line that opens no list and no map, and does not end the source. -/
structure Token.Stands (line : Nat) (t : Token) : Prop where
  line : t.line = line
  list : t.kind ≠ .punctuator .bracketOpen
  map : t.kind ≠ .punctuator .braceOpen
  source : t.kind ≠ .endOfFile

theorem Token.Stands.not_endOfFile {line : Nat} {t : Token} (h : t.Stands line) :
    t.isEndOfFile = false := by
  simp [isEndOfFile, h.source]

open Scan

/-- Only brackets and braces write brackets and braces. -/
theorem Punctuator.ofChars?_flat {x : Char} {xs : List Char} (hx : x ∉ spanning) {p : Punctuator}
    (h : ofChars? (x :: xs) = some p) : p ≠ bracketOpen ∧ p ≠ braceOpen := by
  constructor
  all_goals
    rintro rfl
    refine hx ?_
    unfold ofChars? at h
    split at h <;> cases h
    next heq =>
      cases heq
      simp [spanning]

theorem Scan.wordKind_not_punctuator (first text : String) (p : Punctuator) :
    wordKind first text ≠ .punctuator p := by
  have plain : plainWordKind text ≠ .punctuator p := by
    unfold plainWordKind
    split
    · simp
    split <;> simp
  unfold wordKind
  split
  · split
    · simp
    · exact plain
  · exact plain

namespace Cursor

variable {tabWidth : Nat} {c d : Cursor} {more : List Char}

/-- The characters ahead break no line and open no string, list or map. -/
def Flat (c : Cursor) : Prop := ∀ x ∈ c.rest, x ∉ spanning

theorem Flat.suffix (h : c.Flat) (hd : d.rest <:+ c.rest) : d.Flat :=
  fun x hx => h x (hd.subset hx)

/-- A cursor in front of a line break and other lines. -/
def inFront (c : Cursor) (more : List Char) : Cursor := c.extend ('\n' :: more)

theorem inFront_rest : (c.inFront more).rest = c.rest ++ '\n' :: more := rfl

theorem inFront_rest_nil (h : c.rest = []) : (c.inFront more).rest = '\n' :: more := by
  rw [inFront_rest, h]
  rfl

theorem skipBlanks_inFront :
    (c.inFront more).skipBlanks tabWidth = (c.skipBlanks tabWidth).inFront more := by
  have hstop : (c.rest ++ '\n' :: more).takeWhile isBlank = c.rest.takeWhile isBlank :=
    takeWhile_stop rfl
  simp only [skipBlanks, inFront, extend, hstop, drop_stop length_takeWhile_le]

theorem skipLine_inFront : (c.inFront more).skipLine = c.skipLine.inFront more := by
  have hstop : (c.rest ++ '\n' :: more).takeWhile (fun x => !isLineBreak x) =
      c.rest.takeWhile fun x => !isLineBreak x := takeWhile_stop rfl
  simp only [skipLine, inFront_rest, hstop]
  exact advance_extend length_takeWhile_le

theorem skipComment_inFront : (c.inFront more).skipComment = c.skipComment.inFront more := by
  unfold skipComment
  split
  next q hq =>
    rw [inFront_rest] at hq
    split
    · exact skipLine_inFront
    next hplain =>
      match hc : c.rest with
      | [] => simp [hc] at hq
      | [a] => simp [hc] at hq
      | a :: b :: p =>
        simp only [hc, List.cons_append, List.cons.injEq] at hq
        exact absurd (by rw [hc, hq.1, hq.2.1]) (hplain p)
  next hplain =>
    split
    next q hq => exact absurd (by rw [inFront_rest, hq]; rfl) (hplain (q ++ '\n' :: more))
    · rfl

/-- At the end of a line without line breaks nothing is left. -/
theorem Flat.skipLine_rest (h : c.Flat) : c.skipLine.rest = [] := by
  rw [skipLine, advance_rest, drop_length_takeWhile, List.dropWhile_eq_nil_iff]
  intro x hx
  have := h x hx
  simp only [spanning, List.mem_cons, List.not_mem_nil, or_false, not_or] at this
  simp [isLineBreak, this]

theorem plainToken_inFront {n : Nat} {kind : TokenKind} (hn : n ≤ c.rest.length)
    (hlist : kind ≠ .punctuator .bracketOpen) (hmap : kind ≠ .punctuator .braceOpen)
    (hsource : kind ≠ .endOfFile) (more : List Char) :
    (c.inFront more).plainToken n kind = ((c.plainToken n kind).1, (c.advance n).inFront more) ∧
      (c.plainToken n kind).1.Stands c.line :=
  ⟨plainToken_extend hn kind, rfl, hlist, hmap, hsource⟩

theorem wordToken_inFront (c : Cursor) (more : List Char) :
    (c.inFront more).wordToken =
        (c.wordToken.1, (c.advance (wordLength c.rest)).inFront more) ∧
      c.wordToken.1.Stands c.line := by
  have hbreak : Stops '\n' := .of_lineBreak rfl
  have hlength : wordLength (c.inFront more).rest = wordLength c.rest :=
    wordLength_stop hbreak (.inl rfl)
  have hword : word (c.inFront more).rest = word c.rest := word_stop hbreak
  have hle : wordLength c.rest ≤ c.rest.length := wordLength_le
  have hpeek : (c.inFront more).peekText (wordLength c.rest) = c.peekText (wordLength c.rest) :=
    peekText_extend hle
  simp only [wordToken, hlength, hword, hpeek]
  exact plainToken_inFront hle (wordKind_not_punctuator _ _ _) (wordKind_not_punctuator _ _ _)
    (wordKind_not_terminator _ _).2 more

/-- A token of a line, or an error on it, does not depend on what is behind the line. -/
theorem Flat.readToken (h : c.Flat) (hc : c.rest ≠ []) (more : List Char) :
    (∃ t n, c.readToken = (.ok t, c.advance n) ∧
      (c.inFront more).readToken = (.ok t, (c.advance n).inFront more) ∧ t.Stands c.line) ∨
    ∃ e, c.readToken = (.error e, c) ∧ (c.inFront more).readToken = (.error e, c.inFront more) ∧
      e.line = c.line := by
  have hbreak : Stops '\n' := .of_lineBreak rfl
  have hsame : lexeme? (c.inFront more).rest = lexeme? c.rest := lexeme?_stop hbreak hc
  obtain ⟨x, xs, hx⟩ := List.exists_cons_of_ne_nil hc
  have hflat : x ∉ spanning := h x (by simp [hx])
  cases hl : lexeme? c.rest with
  | none =>
    have hfront : (c.inFront more).rest = x :: (xs ++ '\n' :: more) := by simp [inFront_rest, hx]
    exact .inr ⟨_, readToken_of_lexeme?_none hx hl,
      readToken_of_lexeme?_none hfront (hsame.trans hl), rfl⟩
  | some l =>
    rw [readToken_of_lexeme? hl, readToken_of_lexeme? (hsame.trans hl)]
    have hbegins := begins_of_lexeme? hl
    rw [hx] at hbegins
    cases hbegins with
    | lineBreak hend =>
      simp only [isLineBreak, Bool.or_eq_true, beq_iff_eq] at hend
      obtain rfl | rfl := hend <;> simp [spanning] at hflat
    | word =>
      obtain ⟨htoken, hstands⟩ := wordToken_inFront c more
      exact .inl ⟨c.wordToken.1, wordLength c.rest, rfl, by rw [readLexeme, htoken], hstands⟩
    | string => simp [spanning] at hflat
    | number =>
      have hlength : numberLength (c.inFront more).rest = numberLength c.rest :=
        numberLength_stop hbreak
      obtain ⟨htoken, hstands⟩ := plainToken_inFront numberLength_le (show .number ≠ _ by simp)
        (by simp) (by simp) more
      exact .inl ⟨_, numberLength c.rest, rfl, by rw [readLexeme, readPlain, hlength, htoken],
        hstands⟩
    | semicolon =>
      have hle : 1 ≤ c.rest.length := List.length_pos_of_ne_nil hc
      obtain ⟨htoken, hstands⟩ := plainToken_inFront hle (show .endOfLine ≠ _ by simp) (by simp)
        (by simp) more
      exact .inl ⟨_, 1, rfl, by rw [readLexeme, readPlain, htoken], hstands⟩
    | @punctuator _ _ p _ hp =>
      obtain ⟨hlist, hmap⟩ := Punctuator.ofChars?_flat hflat hp
      have hle : p.width ≤ c.rest.length := hx ▸ Punctuator.width_le hp
      obtain ⟨htoken, hstands⟩ := plainToken_inFront hle
        (show .punctuator p ≠ _ by simpa using hlist) (by simpa using hmap) (by simp) more
      exact .inl ⟨_, p.width, rfl, by rw [readLexeme, readPlain, htoken], hstands⟩

/-- Scanning from a line gives a token of it, or an error on it, or it has nothing more and the line
break behind it is scanned. -/
inductive ScansFront (tabWidth : Nat) (more : List Char) (c : Cursor) : Prop where
  | token {t : Token} {d : Cursor} (alone : c.scan tabWidth = (.ok t, d))
      (front : (c.inFront more).scan tabWidth = (.ok t, d.inFront more)) (ht : t.Stands c.line)
      (hd : d.line = c.line)
  | error {e : LexError} {d : Cursor} (alone : c.scan tabWidth = (.error e, d))
      (front : (c.inFront more).scan tabWidth = (.error e, d.inFront more)) (he : e.line = c.line)
      (hd : d.line = c.line) (suffix : d.rest <:+ c.rest)
  | last {e : Token} {d : Cursor} (alone : c.scan tabWidth = (.ok e, d))
      (he : e.isEndOfFile = true) (hd : d.line = c.line) (rest : d.rest = [])
      (front : (c.inFront more).scan tabWidth =
        (.ok (d.inFront more).lineBreak.1, (d.inFront more).lineBreak.2))

/-- Behind the last character is the end of the source. -/
theorem scan_nil (tabWidth : Nat) (hc : c.rest = []) :
    ∃ e, c.scan tabWidth = (.ok e, c) ∧ e.isEndOfFile = true := by
  have hskip : (c.skipBlanks tabWidth).skipComment = c := by
    obtain ⟨rest, offset, line, column⟩ := c
    simp only at hc
    subst hc
    rfl
  refine ⟨c.tokenTo c .endOfFile "<eof>", ?_, rfl⟩
  simp only [scan, hskip, Cursor.readToken, hc]

theorem skipComment_line (c : Cursor) : c.skipComment.line = c.line := by
  unfold skipComment
  split <;> rfl

theorem Flat.scansFront (h : c.Flat) (tabWidth : Nat) (more : List Char) :
    ScansFront tabWidth more c := by
  have hline : (c.skipBlanks tabWidth).skipComment.line = c.line := skipComment_line _
  have hsuffix : (c.skipBlanks tabWidth).skipComment.rest <:+ c.rest :=
    (skipComment_suffix _).trans (skipBlanks_suffix tabWidth c)
  have hfront : (c.inFront more).scan tabWidth =
      ((c.skipBlanks tabWidth).skipComment.inFront more).readToken := by
    rw [scan, skipBlanks_inFront, skipComment_inFront]
  have halone : c.scan tabWidth = (c.skipBlanks tabWidth).skipComment.readToken := rfl
  generalize (c.skipBlanks tabWidth).skipComment = d at *
  by_cases hd : d.rest = []
  · refine .last (e := d.tokenTo d .endOfFile "<eof>") (d := d) ?_ rfl hline hd ?_
    · simp only [halone, Cursor.readToken, hd]
    · simp only [hfront, Cursor.readToken, inFront_rest, hd, List.nil_append]
      rfl
  · obtain ⟨t, n, h₁, h₂, ht⟩ | ⟨e, h₁, h₂, he⟩ := (h.suffix hsuffix).readToken hd more
    · exact .token (halone.trans h₁) (hfront.trans h₂) (hline ▸ ht) hline
    · exact .error (halone.trans h₁) (hfront.trans h₂) (hline ▸ he) hline hsuffix

end Cursor

namespace Scanner

variable {n : Nat} {c : Cursor} {errors : List LexError} {more : List Char}

/-- Behind the line break a scanner goes on at the front of the next line. -/
theorem drain_lineBreak (hm : more.head? ≠ some '\r') {d : Cursor} (hd : d.rest = []) {s : Scanner}
    {mode : ReadingMode} (h : s.next = (.ok (d.inFront more).lineBreak.1,
      ⟨mode, (d.inFront more).lineBreak.2, errors⟩)) :
    drain (n + 1) s = ((d.inFront more).lineBreak.1 ::
      (drain n ⟨mode, ⟨more, d.offset + 1, d.line + 1, 1⟩, errors⟩).1,
      (drain n ⟨mode, ⟨more, d.offset + 1, d.line + 1, 1⟩, errors⟩).2) := by
  rw [Cursor.lineBreak_single (Cursor.inFront_rest_nil hd) (Cursor.lineBreakLength_newline hm)] at h
  rw [drain, h]
  rfl

/-- A lenient scanner reads a token of the line, or the line has no more of them: it comes to the
end of the source if the line is alone, and to the line break if other lines are behind. -/
theorem next_line (tabWidth : Nat) (errors : List LexError) (hc : c.Flat) (more : List Char) :
    (∃ t d, next ⟨⟨true, tabWidth⟩, c, errors⟩ = (.ok t, ⟨⟨true, tabWidth⟩, d, errors⟩) ∧
      next ⟨⟨true, tabWidth⟩, c.inFront more, errors⟩ =
        (.ok t, ⟨⟨true, tabWidth⟩, d.inFront more, errors⟩) ∧
      t.Stands c.line ∧ d.line = c.line ∧ d.Flat ∧ d.rest.length < c.rest.length) ∨
    ∃ e d found, next ⟨⟨true, tabWidth⟩, c, errors⟩ =
        (.ok e, ⟨⟨true, tabWidth⟩, d, errors ++ found⟩) ∧
      next ⟨⟨true, tabWidth⟩, c.inFront more, errors⟩ = (.ok (d.inFront more).lineBreak.1,
        ⟨⟨true, tabWidth⟩, (d.inFront more).lineBreak.2, errors ++ found⟩) ∧
      e.isEndOfFile = true ∧ (∀ x ∈ found, x.line = c.line) ∧ d.line = c.line ∧ d.rest = [] := by
  cases hc.scansFront tabWidth more with
  | @token t d alone front ht hd =>
    refine .inl ⟨t, d, by simp [next, alone], by simp [next, front], ht, hd, ?_, ?_⟩
    · exact hc.suffix (Cursor.scan_suffix alone)
    · exact Cursor.scan_length alone ht.not_endOfFile
  | @error e d alone front he hd suffix =>
    -- The line is passed over, and scanned again at its end.
    have hrest := (hc.suffix suffix).skipLine_rest
    obtain ⟨f, hend, hf⟩ := Cursor.scan_nil tabWidth hrest
    have hbreak : (d.skipLine.inFront more).scan tabWidth =
        (.ok (d.skipLine.inFront more).lineBreak.1, (d.skipLine.inFront more).lineBreak.2) :=
      Cursor.scan_break (Cursor.inFront_rest_nil hrest) rfl
    refine .inr ⟨f, d.skipLine, [e], ?_, ?_, hf, by simp [he], hd, hrest⟩
    · simp [next, alone, hend]
    · simp [next, front, Cursor.skipLine_inFront, hbreak]
  | @last e d alone he hd rest front =>
    exact .inr ⟨e, d, [], by simp [next, alone], by simp [next, front], he, by simp, hd, rest⟩

/-- A lenient scanner reads a line in front of other lines as it does alone, then the line break,
and goes on with the other lines. -/
theorem drain_line (tabWidth : Nat) (errors : List LexError) (hc : c.Flat)
    (hm : more.head? ≠ some '\r') (hn : c.rest.length < n) :
    ∃ us e line offset found,
      drain n ⟨⟨true, tabWidth⟩, c, errors⟩ = (us ++ [e], none, errors ++ found) ∧
      (∀ u ∈ us, u.Stands c.line) ∧ (∀ x ∈ found, x.line = c.line) ∧
      line.isEndOfLine = true ∧ line.line = c.line ∧
      ∀ k, ∃ j, k ≤ j ∧
        drain (n + k) ⟨⟨true, tabWidth⟩, c.inFront more, errors⟩ =
          (us ++ line ::
            (drain j ⟨⟨true, tabWidth⟩, ⟨more, offset, c.line + 1, 1⟩, errors ++ found⟩).1,
            (drain j ⟨⟨true, tabWidth⟩, ⟨more, offset, c.line + 1, 1⟩, errors ++ found⟩).2) := by
  induction n generalizing c with
  | zero => omega
  | succ n ih =>
    obtain ⟨t, d, alone, front, ht, hd, hflat, hlt⟩ |
      ⟨e, d, found, alone, front, he, hfound, hd, hrest⟩ := next_line tabWidth errors hc more
    · obtain ⟨us, e, line, offset, found, h₁, h₂, h₃, h₄, h₅, h₆⟩ := ih hflat (by omega)
      rw [hd] at h₂ h₃ h₅ h₆
      refine ⟨t :: us, e, line, offset, found, ?_, List.forall_mem_cons.2 ⟨ht, h₂⟩, h₃, h₄, h₅, ?_⟩
      · simp [drain, alone, ht.not_endOfFile, h₁]
      · intro k
        obtain ⟨j, hj, h⟩ := h₆ k
        refine ⟨j, hj, ?_⟩
        rw [Nat.add_right_comm]
        simp [drain, front, ht.not_endOfFile, h]
    · refine ⟨[], e, (d.inFront more).lineBreak.1, d.offset + 1, found, ?_, by simp, hfound, rfl,
        hd, fun k => ⟨n + k, Nat.le_add_left _ _, ?_⟩⟩
      · simp [drain, alone, he]
      · rw [Nat.add_right_comm, drain_lineBreak hm hrest front, hd]
        rfl

end Scanner

/-- A lenient scanner reads a text without errors one line down as a strict one reads it alone. -/
theorem Scanner.drain_down {tabWidth j : Nat} {source : String} (offset : Nat)
    (errors : List LexError) (hs : (TokenStream.ofSource ⟨false, tabWidth⟩ source).stop = none)
    (hj : source.length < j) :
    drain j ⟨⟨true, tabWidth⟩, ⟨source.toList, offset, 2, 1⟩, errors⟩ =
      ((TokenStream.ofSource ⟨false, tabWidth⟩ source).tokens.map
        (Token.relocate (.shift 1 offset 0)), none, errors) := by
  obtain ⟨ts, d, t, d', hts, hd, ht, htokens⟩ := TokenStream.ofSource_scans hs
  have hcursor : (Cursor.ofSource source).shift 1 offset 0 = ⟨source.toList, offset, 2, 1⟩ := by
    simp [Cursor.shift, Cursor.ofSource]
  obtain ⟨hshift, hpage⟩ := hts.shift 1 offset 0 (Cursor.ofSource_onPage source)
  rw [hcursor] at hshift
  have hstrict := drain_of_scans hshift (Cursor.scan_shift 1 offset 0 hpage hd).1
    (by rw [Token.isEndOfFile_relocate, ht]) (n := j) (by rwa [String.length_toList])
  have hlenient := drain_strict_lenient j tabWidth ⟨source.toList, offset, 2, 1⟩ errors
  simp only [hstrict, true_and] at hlenient
  rw [htokens, List.map_append]
  exact Prod.ext hlenient.1 (Prod.ext (drain_lenient rfl) hlenient.2)

/-- The tokens of a line in front of a source text: those of the line alone, a line end, and those
of the source text one line down. -/
theorem TokenStream.ofSource_line {tabWidth : Nat} {line source : String}
    (hline : ∀ x ∈ line.toList, x ∉ spanning) (hm : source.toList.head? ≠ some '\r')
    (hs : (ofSource ⟨false, tabWidth⟩ source).stop = none) :
    ∃ us e stop offset found,
      ofSource ⟨true, tabWidth⟩ line = ⟨us ++ [e], none, found⟩ ∧
      (∀ u ∈ us, u.Stands 1) ∧ (∀ x ∈ found, x.line = 1) ∧
      stop.isEndOfLine = true ∧ stop.line = 1 ∧
      ofSource ⟨true, tabWidth⟩ (line ++ "\n" ++ source) =
        ⟨us ++ stop :: (ofSource ⟨false, tabWidth⟩ source).tokens.map
          (Token.relocate (.shift 1 offset 0)), none, found⟩ := by
  have hflat : (Cursor.ofSource line).Flat := hline
  obtain ⟨us, e, stop, offset, found, h₁, h₂, h₃, h₄, h₅, h₆⟩ := Scanner.drain_line tabWidth []
    hflat hm (Nat.lt_succ_of_le (Nat.le_of_eq String.length_toList))
  refine ⟨us, e, stop, offset, found, ?_, h₂, h₃, h₄, h₅, ?_⟩
  · simp only [ofSource, Scanner.ofSource, h₁, List.nil_append]
  · obtain ⟨j, hj, h⟩ := h₆ (source.length + 1)
    have hcursor : (Cursor.ofSource line).inFront source.toList =
        .ofSource (line ++ "\n" ++ source) := by
      simp [Cursor.inFront, Cursor.extend, Cursor.ofSource]
    have hlength : (line ++ "\n" ++ source).length + 1 =
        line.length + 1 + (source.length + 1) := by
      rw [String.length_append, String.length_append, show "\n".length = 1 from rfl]
      omega
    have hdown := Scanner.drain_down offset found hs (Nat.lt_of_succ_le hj)
    rw [hcursor] at h
    simp only [ofSource, Scanner.ofSource, hlength]
    rw [h]
    simp only [List.nil_append, show (Cursor.ofSource line).line + 1 = 2 from rfl]
    rw [hdown]
    rfl

end LineScript
