import LineScript.Proofs.Grammar.Relocation
import LineScript.Proofs.Token.Locality

/-!
# Tokens of texts that are put together

Lines that scan alone scan in the same way in front of other lines and behind them. In front of
other lines the tokens are the same; behind them their lines and offsets are shifted.
-/

namespace LineScript

open Scan

namespace Cursor

/-- A cursor with more characters behind. -/
def extend (c : Cursor) (more : List Char) : Cursor := { c with rest := c.rest ++ more }

/-- The characters ahead end with a line break. -/
def EndsLine (c : Cursor) : Prop := ∃ p, c.rest = p ++ ['\n']

variable {c : Cursor} {more : List Char}

theorem extend_rest {p : List Char} (h : c.rest = p ++ ['\n']) :
    (c.extend more).rest = p ++ '\n' :: more := by
  simp [extend, h]

theorem advance_extend {n : Nat} (h : n ≤ c.rest.length) :
    (c.extend more).advance n = (c.advance n).extend more := by
  simp [advance, extend, List.drop_append_of_le_length h]

theorem breakLine_extend {n : Nat} (h : n ≤ c.rest.length) :
    (c.extend more).breakLine n = (c.breakLine n).extend more := by
  simp [breakLine, extend, List.drop_append_of_le_length h]

theorem peekText_extend {n : Nat} (h : n ≤ c.rest.length) :
    (c.extend more).peekText n = c.peekText n := by
  simp [peekText, extend, List.take_append_of_le_length h]

theorem plainToken_extend {n : Nat} (h : n ≤ c.rest.length) (kind : TokenKind) :
    (c.extend more).plainToken n kind =
      ((c.plainToken n kind).1, (c.plainToken n kind).2.extend more) := by
  simp only [plainToken, advance_extend h, peekText_extend h]
  rfl

theorem across_extend {cs : List Char} (h : cs.length ≤ c.rest.length) :
    (c.extend more).across cs = (c.across cs).extend more := by
  fun_induction c.across cs with
  | case1 c cs ih | case2 c cs ih =>
    simp only [List.length_cons] at h
    rw [across, breakLine_extend (by omega)]
    exact ih (by simp only [breakLine_rest, List.length_drop]; omega)
  | case3 c cs h' ih | case4 c cs h' ih =>
    simp only [List.length_cons] at h
    rw [across, breakLine_extend (by omega)]
    · exact ih (by simp only [breakLine_rest, List.length_drop]; omega)
    · exact h'
  | case5 c x cs h₁ h₂ h₃ h₄ ih =>
    simp only [List.length_cons] at h
    rw [across, advance_extend (by omega)]
    · exact ih (by simp only [advance_rest, List.length_drop]; omega)
    all_goals assumption
  | case6 => rw [across]

theorem EndsLine.drop {n : Nat} {p : List Char} (h : c.rest = p ++ ['\n']) (hn : n ≤ p.length) :
    (c.advance n).EndsLine :=
  ⟨p.drop n, by rw [advance_rest, h, List.drop_append_of_le_length hn]⟩

theorem skipBlanks_extend (tabWidth : Nat) (more : List Char) (h : c.EndsLine) :
    (c.extend more).skipBlanks tabWidth = (c.skipBlanks tabWidth).extend more ∧
      (c.skipBlanks tabWidth).EndsLine := by
  obtain ⟨p, hp⟩ := h
  have hb : c.rest.takeWhile isBlank = p.takeWhile isBlank := by
    rw [hp]
    exact takeWhile_stop rfl
  have hle : (p.takeWhile isBlank).length ≤ p.length := length_takeWhile_le
  constructor
  · simp only [skipBlanks, hb, extend_rest hp, takeWhile_stop (show isBlank '\n' = false from rfl)]
    simp [extend, hp, drop_stop hle]
  · refine ⟨p.drop (p.takeWhile isBlank).length, ?_⟩
    simp only [skipBlanks, hb]
    rw [hp, List.drop_append_of_le_length hle]

theorem skipLine_extend (more : List Char) (h : c.EndsLine) :
    (c.extend more).skipLine = c.skipLine.extend more ∧ c.skipLine.EndsLine := by
  obtain ⟨p, hp⟩ := h
  have hb : ∀ q, (p ++ '\n' :: q).takeWhile (fun x => !isLineBreak x) =
      p.takeWhile fun x => !isLineBreak x := fun q => takeWhile_stop rfl
  have hle : (p.takeWhile fun x => !isLineBreak x).length ≤ p.length := length_takeWhile_le
  simp only [skipLine, extend_rest hp, hp, hb]
  refine ⟨advance_extend ?_, EndsLine.drop hp hle⟩
  simp only [hp, List.length_append]
  omega

theorem skipComment_extend (more : List Char) (h : c.EndsLine) :
    (c.extend more).skipComment = c.skipComment.extend more ∧ c.skipComment.EndsLine := by
  have hline := skipLine_extend more h
  obtain ⟨p, hp⟩ := h
  have same : (∃ q, (c.extend more).rest = '/' :: '/' :: q) ↔ ∃ q, c.rest = '/' :: '/' :: q := by
    rw [extend_rest hp, hp]
    match p with
    | [] => simp
    | [a] => simp
    | a :: b :: p => simp
  by_cases hc : ∃ q, c.rest = '/' :: '/' :: q
  · obtain ⟨q', hq'⟩ := same.2 hc
    obtain ⟨q, hq⟩ := hc
    simp only [skipComment, hq, hq']
    exact hline
  · have plain : ∀ d : Cursor, (¬ ∃ q, d.rest = '/' :: '/' :: q) → d.skipComment = d := by
      intro d hd
      unfold skipComment
      split
      next q hq => exact absurd ⟨q, hq⟩ hd
      · rfl
    rw [plain _ hc, plain _ (mt same.1 hc)]
    exact ⟨rfl, p, hp⟩

theorem lineBreakLength_le {cs : List Char} (h : cs ≠ []) : lineBreakLength cs ≤ cs.length := by
  have := List.length_pos_of_ne_nil h
  unfold lineBreakLength
  split
  · simp
  · simp
  · omega

theorem lineBreakLength_extend {p : List Char} (hm : more.head? ≠ some '\r') :
    lineBreakLength (p ++ '\n' :: more) = lineBreakLength (p ++ ['\n']) := by
  match p with
  | [] =>
    cases more with
    | nil => rfl
    | cons a more =>
      have ha : a ≠ '\r' := by simpa using hm
      simp [lineBreakLength, ha]
  | [a] =>
    by_cases ha : a = '\r'
    · subst ha
      rfl
    · simp [lineBreakLength, ha]
  | a :: b :: p =>
    simp only [List.cons_append, lineBreakLength]
    split <;> simp_all

/-- A line break in front of other lines. -/
theorem lineBreak_extend (hc : c.EndsLine) (hm : more.head? ≠ some '\r') :
    (c.extend more).lineBreak = (c.lineBreak.1, c.lineBreak.2.extend more) := by
  obtain ⟨p, hp⟩ := hc
  have hle : lineBreakLength c.rest ≤ c.rest.length := lineBreakLength_le (by simp [hp])
  simp only [lineBreak, extend_rest hp, lineBreakLength_extend hm]
  rw [← hp, breakLine_extend hle, advance_extend (by omega)]
  rfl

theorem wordToken_extend (more : List Char) (hc : c.EndsLine) :
    (c.extend more).wordToken = (c.wordToken.1, c.wordToken.2.extend more) := by
  obtain ⟨p, hp⟩ := hc
  have hx : Stops '\n' := .of_lineBreak rfl
  have hle : wordLength c.rest ≤ c.rest.length := wordLength_le
  have hn : wordLength (p ++ '\n' :: more) = wordLength c.rest := by
    rw [hp, wordLength_stop hx (.inl rfl), wordLength_stop hx (.inl rfl)]
  have hw : word (p ++ '\n' :: more) = word c.rest := by
    rw [hp, word_stop hx, word_stop hx]
  simp only [wordToken, extend_rest hp, hn, hw, plainToken_extend hle, peekText_extend hle]

theorem stringToken_extend (more : List Char) (hc : c.EndsLine) (hq : c.rest.head? = some '"')
    {t : Token} {c' : Cursor} (h : c.stringToken = (.ok t, c')) :
    (c.extend more).stringToken = (.ok t, c'.extend more) ∧ c'.EndsLine := by
  obtain ⟨p, hp⟩ := hc
  cases p with
  | nil => simp [hp] at hq
  | cons a p =>
    have hdrop : c.rest.drop 1 = p ++ ['\n'] := by simp [hp]
    have hdrop' : (c.extend more).rest.drop 1 = p ++ '\n' :: more := by simp [extend_rest hp]
    have hadv : (c.extend more).advance 1 = (c.advance 1).extend more :=
      advance_extend (by simp [hp])
    unfold stringToken at h ⊢
    simp only [hdrop, hdrop', hadv] at h ⊢
    obtain hbody | ⟨hlt, hsame⟩ := quotedBody_stop p
    · have hnil : ((c.advance 1).across (quotedBody (p ++ ['\n']))).rest = [] := by
        simp [hbody, hp]
      simp only [hnil] at h
      cases h
    · have hrest : ((c.advance 1).across (quotedBody (p ++ ['\n']))).rest =
          p.drop (quotedBody (p ++ ['\n'])).length ++ ['\n'] := by
        rw [across_rest, advance_rest, hdrop, List.drop_append_of_le_length (Nat.le_of_lt hlt)]
      have hle : (quotedBody (p ++ ['\n'])).length ≤ (c.advance 1).rest.length := by
        simp only [advance_rest, hdrop, List.length_append]
        omega
      rw [hsame more, across_extend hle]
      generalize hi : (c.advance 1).across (quotedBody (p ++ ['\n'])) = inner at h hrest
      have hpos : 0 < (p.drop (quotedBody (p ++ ['\n'])).length).length := by
        rw [List.length_drop]
        omega
      obtain ⟨y, ys, hy⟩ := List.exists_cons_of_length_pos hpos
      rw [hy] at hrest
      simp only [hrest, List.cons_append] at h
      cases h
      have hext : (inner.extend more).rest = y :: (ys ++ '\n' :: more) := by
        simp [extend, hrest]
      simp only [hext]
      rw [advance_extend (by simp [hrest])]
      refine ⟨rfl, ys, ?_⟩
      simp [hrest]

/-- What is left behind a token of lines: lines, or nothing if the token is the last line break. -/
def LeavesLines (t : Token) (c : Cursor) : Prop :=
  c.EndsLine ∨ c.rest = [] ∧ t.isEndOfLine = true

theorem lexeme?_extend (more : List Char) (hc : c.EndsLine) :
    lexeme? (c.extend more).rest = lexeme? c.rest := by
  obtain ⟨p, hp⟩ := hc
  rw [extend_rest hp, hp]
  cases p with
  | nil => rfl
  | cons a p =>
    have hx : Stops '\n' := .of_lineBreak rfl
    rw [lexeme?_stop hx (by simp), lexeme?_stop hx (by simp)]

/-- Behind a line break that is not the last one are lines. -/
theorem lineBreak_leaves (hc : c.EndsLine) : LeavesLines c.lineBreak.1 c.lineBreak.2 := by
  obtain ⟨p, hp⟩ := hc
  have hle : lineBreakLength c.rest ≤ c.rest.length := lineBreakLength_le (by simp [hp])
  by_cases hn : lineBreakLength c.rest ≤ p.length
  · refine .inl ⟨p.drop (lineBreakLength c.rest), ?_⟩
    change c.rest.drop _ = _
    rw [← List.drop_append_of_le_length hn, hp]
  · refine .inr ⟨?_, rfl⟩
    change c.rest.drop _ = _
    refine List.drop_eq_nil_of_le ?_
    simp only [hp, List.length_append, List.length_cons, List.length_nil] at hle hn ⊢
    omega

theorem readToken_extend (hc : c.EndsLine) {t : Token} {c' : Cursor}
    (h : c.readToken = (.ok t, c')) (hm : t.isEndOfLine = true → more.head? ≠ some '\r') :
    (c.extend more).readToken = (.ok t, c'.extend more) ∧ LeavesLines t c' := by
  obtain ⟨hnil, -⟩ | ⟨l, hl, h⟩ := readToken_ok h
  · obtain ⟨p, hp⟩ := hc
    simp [hp] at hnil
  rw [readToken_of_lexeme? ((lexeme?_extend more hc).trans hl)]
  obtain ⟨p, hp⟩ := hc
  have hx : Stops '\n' := .of_lineBreak rfl
  -- A token that is not a line break stands in front of the last one.
  have plain : ∀ {n kind}, n ≤ p.length →
      (c.extend more).readPlain n kind =
        (.ok (c.plainToken n kind).1, (c.advance n).extend more) ∧
      LeavesLines (c.plainToken n kind).1 (c.advance n) := by
    intro n kind hn
    have hle : n ≤ c.rest.length := by
      simp only [hp, List.length_append]
      omega
    rw [readPlain, plainToken_extend hle]
    exact ⟨rfl, .inl (EndsLine.drop hp hn)⟩
  have hbegins := begins_of_lexeme? hl
  generalize hcs : c.rest = cs at hbegins
  cases hbegins with
  | lineBreak =>
    cases h
    rw [readLexeme, lineBreak_extend ⟨p, hp⟩ (hm rfl)]
    exact ⟨rfl, lineBreak_leaves ⟨p, hp⟩⟩
  | word =>
    cases h
    rw [readLexeme, wordToken_extend more ⟨p, hp⟩]
    refine ⟨rfl, .inl (EndsLine.drop hp ?_)⟩
    rw [hp, wordLength_stop hx (.inl rfl)]
    exact wordLength_le
  | string =>
    obtain ⟨h₁, h₂⟩ := stringToken_extend more ⟨p, hp⟩ (by simp [hcs]) h
    exact ⟨h₁, .inl h₂⟩
  | number =>
    cases h
    have hn : numberLength (c.extend more).rest = numberLength c.rest := by
      rw [extend_rest hp, hp, numberLength_stop hx, numberLength_stop hx]
    rw [readLexeme, hn]
    refine plain ?_
    rw [hp, numberLength_stop hx]
    exact numberLength_le
  | semicolon =>
    cases h
    refine plain (List.length_pos_of_ne_nil ?_)
    rintro rfl
    cases hp.symm.trans hcs
  | @punctuator x xs q hbreak hq =>
    cases h
    have hne : p ≠ [] := by
      rintro rfl
      cases hp.symm.trans hcs
      cases hbreak
    rw [← hcs, hp, Punctuator.ofChars?_stop hx hne] at hq
    exact plain (Punctuator.width_le hq)

/-- Lines in front of other lines are scanned as they are alone. -/
theorem scan_extend {tabWidth : Nat} (hc : c.EndsLine) {t : Token} {c' : Cursor}
    (h : c.scan tabWidth = (.ok t, c')) (hm : t.isEndOfLine = true → more.head? ≠ some '\r') :
    (c.extend more).scan tabWidth = (.ok t, c'.extend more) ∧ LeavesLines t c' := by
  obtain ⟨hb, hc⟩ := skipBlanks_extend tabWidth more hc
  obtain ⟨hs, hc⟩ := skipComment_extend more hc
  rw [scan, hb, hs]
  exact readToken_extend hc h hm

/-- The end of the source is not in front of a line. -/
theorem scan_not_end {tabWidth : Nat} (hc : c.EndsLine) {t : Token} {c' : Cursor}
    (h : c.scan tabWidth = (.ok t, c')) : t.isEndOfFile = false := by
  obtain ⟨_, hb⟩ := skipBlanks_extend tabWidth [] hc
  obtain ⟨_, p, hp⟩ := skipComment_extend [] hb
  by_contra ht
  have hnil := readToken_end h (by simpa using ht)
  simp [hnil] at hp

end Cursor

/-- The place a number of lines down. -/
def Position.down (lines : Nat) (p : Position) : Position := ⟨p.line + lines, p.column⟩

/-- Moves everything a number of lines down and a number of characters on, and the first line a
number of columns to the right. -/
def Placement.shift (lines offset indent : Nat) : Placement where
  place p := ⟨p.line + lines,
    if p.line = 1 then p.column + min indent (Cursor.lastColumn - p.column) else p.column⟩
  line n := n + lines
  span s := .between (s.start + offset) (s.stop + offset)
  line_place _ := rfl
  line_injective _ _ h := Nat.add_right_cancel h

theorem Placement.shift_place (lines offset : Nat) :
    (shift lines offset 0).place = Position.down lines := by
  funext p
  simp [shift, Position.down]

namespace Cursor

/-- A cursor in front of the same characters, some lines down and some characters on, and to the
right if it is on the first line. -/
def shift (c : Cursor) (lines offset indent : Nat) : Cursor :=
  { c with
    line := c.line + lines
    offset := c.offset + offset
    column := if c.line = 1 then c.column + indent else c.column }

variable {c : Cursor} (lines offset indent : Nat)

theorem shift_rest : (c.shift lines offset indent).rest = c.rest := rfl

theorem position_shift :
    (c.shift lines offset indent).position =
      (Placement.shift lines offset indent).place c.position := by
  simp only [position, shift, Placement.shift]
  split
  · congr 1
    omega
  · rfl

theorem advance_shift (n : Nat) :
    (c.shift lines offset indent).advance n = (c.advance n).shift lines offset indent := by
  simp only [advance, shift, Nat.add_right_comm]
  split <;> simp

theorem breakLine_shift (hc : 1 ≤ c.line) (n : Nat) :
    (c.shift lines offset indent).breakLine n = (c.breakLine n).shift lines offset indent := by
  have hne : c.line ≠ 0 := by omega
  simp [breakLine, shift, Nat.add_right_comm, hne]

theorem across_shift (hc : 1 ≤ c.line) (cs : List Char) :
    (c.shift lines offset indent).across cs = (c.across cs).shift lines offset indent := by
  fun_induction c.across cs with
  | case1 c cs ih | case2 c cs ih =>
    rw [across, breakLine_shift _ _ _ hc, ih (Nat.le_add_left 1 _)]
  | case3 c cs h ih | case4 c cs h ih =>
    rw [across, breakLine_shift _ _ _ hc, ih (Nat.le_add_left 1 _)]
    exact h
  | case5 c x cs h₁ h₂ h₃ h₄ ih =>
    rw [across, advance_shift, ih hc]
    all_goals assumption
  | case6 => rw [across]

theorem tokenTo_shift (d : Cursor) (kind : TokenKind) (value : String) :
    (c.shift lines offset indent).tokenTo (d.shift lines offset indent) kind value =
      (c.tokenTo d kind value).relocate (.shift lines offset indent) := by
  have hspan := Span.between_add c.offset d.offset offset
  simp only [tokenTo, position_shift, Token.relocate, Placement.shift, hspan]
  rfl

theorem plainToken_shift (n : Nat) (kind : TokenKind) :
    (c.shift lines offset indent).plainToken n kind =
      ((c.plainToken n kind).1.relocate (.shift lines offset indent),
        (c.plainToken n kind).2.shift lines offset indent) := by
  simp only [plainToken, advance_shift, tokenTo_shift]
  rfl

theorem skipBlanks_shift (tabWidth : Nat) :
    (c.shift lines offset indent).skipBlanks tabWidth =
      (c.skipBlanks tabWidth).shift lines offset indent := by
  simp only [skipBlanks, shift, Nat.add_right_comm]
  split <;> simp

theorem skipComment_shift :
    (c.shift lines offset indent).skipComment = c.skipComment.shift lines offset indent := by
  unfold skipComment skipLine
  simp only [advance_shift, shift_rest]
  split <;> rfl

/-- Lines and columns count from one. -/
structure OnPage (c : Cursor) : Prop where
  line : 1 ≤ c.line
  column : 1 ≤ c.column

theorem ofSource_onPage (source : String) : (ofSource source).OnPage :=
  ⟨Nat.le_refl 1, Nat.le_refl 1⟩

theorem OnPage.advance (h : c.OnPage) (n : Nat) : (c.advance n).OnPage :=
  ⟨h.line, Nat.le_add_right_of_le h.column⟩

theorem breakLine_onPage (n : Nat) : (c.breakLine n).OnPage :=
  ⟨Nat.le_add_left 1 c.line, Nat.le_refl 1⟩

theorem OnPage.across (h : c.OnPage) (cs : List Char) : (c.across cs).OnPage := by
  fun_induction c.across cs with
  | case1 c cs ih | case2 c cs ih | case3 c cs _ ih | case4 c cs _ ih =>
    exact ih (breakLine_onPage _)
  | case5 c x cs _ _ _ _ ih => exact ih (h.advance 1)
  | case6 => exact h

theorem OnPage.skipBlanks (h : c.OnPage) (tabWidth : Nat) : (c.skipBlanks tabWidth).OnPage :=
  ⟨h.line, Nat.le_add_right_of_le h.column⟩

theorem OnPage.skipComment (h : c.OnPage) : c.skipComment.OnPage := by
  unfold Cursor.skipComment
  split
  · exact h.advance _
  · exact h

theorem readToken_shift {t : Token} {c' : Cursor} (hpage : c.OnPage)
    (h : c.readToken = (.ok t, c')) :
    (c.shift lines offset indent).readToken =
      (.ok (t.relocate (.shift lines offset indent)), c'.shift lines offset indent) ∧
      c'.OnPage := by
  obtain ⟨hnil, rfl, rfl⟩ | ⟨l, hl, h⟩ := readToken_ok h
  · simp only [readToken, shift_rest, hnil]
    exact ⟨by rw [tokenTo_shift], hpage⟩
  rw [readToken_of_lexeme? (show lexeme? (c.shift lines offset indent).rest = some l from hl)]
  cases l with
  | lineBreak =>
    cases h
    refine ⟨?_, breakLine_onPage _⟩
    simp only [readLexeme, lineBreak, shift_rest, advance_shift, breakLine_shift _ _ _ hpage.line,
      tokenTo_shift]
  | word =>
    cases h
    simp only [readLexeme, wordToken, plainToken_shift, shift_rest]
    exact ⟨rfl, hpage.advance _⟩
  | string =>
    unfold readLexeme stringToken at h ⊢
    dsimp only at h ⊢
    simp only [advance_shift, shift_rest, across_shift _ _ _ (hpage.advance 1).line]
    split at h
    · cases h
    · cases h
      exact ⟨by rw [tokenTo_shift], ((hpage.advance 1).across _).advance 1⟩
  | number =>
    cases h
    rw [readLexeme, readPlain, plainToken_shift, shift_rest]
    exact ⟨rfl, hpage.advance _⟩
  | semicolon =>
    cases h
    rw [readLexeme, readPlain, plainToken_shift]
    exact ⟨rfl, hpage.advance _⟩
  | punctuator =>
    cases h
    rw [readLexeme, readPlain, plainToken_shift]
    exact ⟨rfl, hpage.advance _⟩

/-- The same characters are scanned to the same tokens elsewhere. -/
theorem scan_shift {tabWidth : Nat} {t : Token} {c' : Cursor} (hpage : c.OnPage)
    (h : c.scan tabWidth = (.ok t, c')) :
    (c.shift lines offset indent).scan tabWidth =
      (.ok (t.relocate (.shift lines offset indent)), c'.shift lines offset indent) ∧
      c'.OnPage := by
  rw [scan, skipBlanks_shift, skipComment_shift]
  exact readToken_shift lines offset indent (hpage.skipBlanks tabWidth).skipComment h

/-- Scanning reads tokens, none of which is the end of the source, and leads to another place. -/
inductive Scans (tabWidth : Nat) : Cursor → List Token → Cursor → Prop where
  | done {c : Cursor} : Scans tabWidth c [] c
  | next {c c' d : Cursor} {t : Token} {ts : List Token} (h : c.scan tabWidth = (.ok t, c'))
      (ht : t.isEndOfFile = false) (hts : Scans tabWidth c' ts d) : Scans tabWidth c (t :: ts) d

namespace Scans

variable {tabWidth : Nat} {c d e : Cursor} {ts us : List Token}

theorem not_end (h : Scans tabWidth c ts d) : ∀ t ∈ ts, t.isEndOfFile = false := by
  induction h with
  | done => simp
  | next _ ht _ ih =>
    intro u hu
    obtain rfl | hu := List.mem_cons.1 hu
    · exact ht
    · exact ih u hu

theorem append (h₁ : Scans tabWidth c ts d) (h₂ : Scans tabWidth d us e) :
    Scans tabWidth c (ts ++ us) e := by
  induction h₁ with
  | done => exact h₂
  | next h ht _ ih => exact .next h ht (ih h₂)

theorem shift (lines offset indent : Nat) (hpage : c.OnPage) (h : Scans tabWidth c ts d) :
    Scans tabWidth (c.shift lines offset indent)
      (ts.map (Token.relocate (.shift lines offset indent))) (d.shift lines offset indent) ∧
      d.OnPage := by
  induction h with
  | done => exact ⟨.done, hpage⟩
  | next h ht _ ih =>
    obtain ⟨hs, hpage'⟩ := scan_shift lines offset indent hpage h
    obtain ⟨hts, hd⟩ := ih hpage'
    exact ⟨.next hs ht hts, hd⟩

theorem suffix (h : Scans tabWidth c ts d) : d.rest <:+ c.rest := by
  induction h with
  | done => exact List.suffix_refl _
  | next h _ _ ih => exact ih.trans (scan_suffix h)

theorem onPage (hpage : c.OnPage) (h : Scans tabWidth c ts d) : d.OnPage :=
  (h.shift 0 0 0 hpage).2

/-- Tokens are scanned from where the first of them is scanned. -/
theorem of_scan_eq {c' : Cursor} {t : Token} (h : Scans tabWidth c (t :: ts) d)
    (hc : c'.scan tabWidth = c.scan tabWidth) : Scans tabWidth c' (t :: ts) d := by
  cases h with
  | next h ht hts => exact .next (hc.trans h) ht hts

/-- What is scanned from one place is scanned in one way. -/
theorem cancel (h : Scans tabWidth c ts d) (h' : Scans tabWidth c us e) {x : Token} {e' : Cursor}
    (he : e.scan tabWidth = (.ok x, e')) (hx : x.isEndOfFile = true) :
    ∃ vs, us = ts ++ vs ∧ Scans tabWidth d vs e := by
  induction h generalizing us with
  | done => exact ⟨us, rfl, h'⟩
  | next h ht _ ih =>
    cases h' with
    | done =>
      rw [h] at he
      cases he
      rw [ht] at hx
      cases hx
    | next h₁ _ hus =>
      rw [h] at h₁
      cases h₁
      obtain ⟨vs, rfl, hvs⟩ := ih hus
      exact ⟨vs, rfl, hvs⟩

/-- Lines that scan alone, up to their end, scan in the same way in front of other lines, and the
last of their tokens ends a line. -/
theorem extend {more : List Char} (hm : more.head? ≠ some '\r') (h : Scans tabWidth c ts d)
    (hc : c.EndsLine) {e : Token} {d' : Cursor} (hd : d.scan tabWidth = (.ok e, d'))
    (he : e.isEndOfFile = true) :
    d.rest = [] ∧ Scans tabWidth (c.extend more) ts (d.extend more) ∧
      ∃ t, ts.getLast? = some t ∧ t.isEndOfLine = true := by
  induction h with
  | done => exact absurd he (by simp [scan_not_end hc hd])
  | @next c c' d t ts h ht hts ih =>
    obtain ⟨hs, hleft⟩ := scan_extend hc h fun _ => hm
    obtain hline | ⟨hnil, heol⟩ := hleft
    · obtain ⟨hnil, h₁, u, hu, heol⟩ := ih hline hd
      refine ⟨hnil, .next hs ht h₁, u, ?_, heol⟩
      rw [List.getLast?_cons, hu]
      rfl
    · cases hts with
      | done => exact ⟨hnil, .next hs ht .done, t, rfl, heol⟩
      | next h' ht' _ =>
        have := scan_length h' ht'
        simp [hnil] at this

/-- Tokens of which none ends a line scan in the same way whatever is behind the line. -/
theorem extend_line (more : List Char) (h : Scans tabWidth c ts d) (hc : c.EndsLine)
    (hts : ∀ t ∈ ts, t.isEndOfLine = false) :
    Scans tabWidth (c.extend more) ts (d.extend more) ∧ d.EndsLine := by
  induction h with
  | done => exact ⟨.done, hc⟩
  | next h ht _ ih =>
    obtain ⟨hu, hts⟩ := List.forall_mem_cons.1 hts
    obtain ⟨hs, hleft⟩ := scan_extend hc h (by simp [hu])
    obtain hline | ⟨_, heol⟩ := hleft
    · obtain ⟨h₁, hd⟩ := ih hline hts
      exact ⟨.next hs ht h₁, hd⟩
    · rw [hu] at heol
      cases heol

/-- Tokens can be scanned one part after the other. -/
theorem split (h : Scans tabWidth c (ts ++ us) e) :
    ∃ d, Scans tabWidth c ts d ∧ Scans tabWidth d us e := by
  induction ts generalizing c with
  | nil => exact ⟨c, .done, h⟩
  | cons t ts ih =>
    cases h with
    | next h ht hts =>
      obtain ⟨d, h₁, h₂⟩ := ih hts
      exact ⟨d, .next h ht h₁, h₂⟩

end Scans

end Cursor

namespace Scanner

open Cursor (Scans)

variable {tabWidth : Nat} {c d d' : Cursor} {ts : List Token} {t : Token} {n : Nat}

/-- A strict scanner that comes to the end of the source has scanned all of it. -/
theorem drain_scans (h : (drain n ⟨⟨false, tabWidth⟩, c, []⟩).2.1 = none)
    (hn : c.rest.length < n) : ∃ ts d t d', Scans tabWidth c ts d ∧
      d.scan tabWidth = (.ok t, d') ∧ t.isEndOfFile = true ∧
      (drain n ⟨⟨false, tabWidth⟩, c, []⟩).1 = ts ++ [t] := by
  induction n generalizing c with
  | zero => omega
  | succ n ih =>
    cases hc : c.scan tabWidth with
    | mk r c' =>
      cases r with
      | error e => simp [drain, next, hc] at h
      | ok t =>
        have hnext : next ⟨⟨false, tabWidth⟩, c, []⟩ = (.ok t, ⟨⟨false, tabWidth⟩, c', []⟩) := by
          simp [next, hc]
        simp only [drain, hnext] at h ⊢
        split
        next ht => exact ⟨[], c, t, c', .done, hc, ht, rfl⟩
        next ht =>
          rw [if_neg ht] at h
          have ht : t.isEndOfFile = false := by simpa using ht
          have hlt := Cursor.scan_length hc ht
          obtain ⟨ts, d, u, d', hts, hd, hu, htokens⟩ := ih h (by omega)
          exact ⟨t :: ts, d, u, d', .next hc ht hts, hd, hu, by rw [htokens]; rfl⟩

/-- What scans up to the end of the source is what a strict scanner reads. -/
theorem drain_of_scans (h : Scans tabWidth c ts d) (hd : d.scan tabWidth = (.ok t, d'))
    (ht : t.isEndOfFile = true) (hn : c.rest.length < n) :
    drain n ⟨⟨false, tabWidth⟩, c, []⟩ = (ts ++ [t], none, []) := by
  induction h generalizing n with
  | @done c =>
    obtain ⟨n, rfl⟩ : ∃ m, n = m + 1 := ⟨n - 1, by omega⟩
    simp [drain, next, hd, ht]
  | @next c c' d u us h hu _ ih =>
    obtain ⟨n, rfl⟩ : ∃ m, n = m + 1 := ⟨n - 1, by omega⟩
    have hlt := Cursor.scan_length h hu
    simp [drain, next, h, hu, ih hd (n := n) (by omega)]

end Scanner

namespace TokenStream

open Cursor (Scans)

variable {tabWidth : Nat} {source : String}

/-- A source text without errors of characters is scanned up to its end. -/
theorem ofSource_scans (h : (ofSource ⟨false, tabWidth⟩ source).stop = none) :
    ∃ ts d t d', Scans tabWidth (.ofSource source) ts d ∧ d.scan tabWidth = (.ok t, d') ∧
      t.isEndOfFile = true ∧ (ofSource ⟨false, tabWidth⟩ source).tokens = ts ++ [t] :=
  Scanner.drain_scans h (Nat.lt_succ_of_le (Nat.le_of_eq String.length_toList))

theorem ofSource_of_scans {ts : List Token} {d d' : Cursor} {t : Token}
    (h : Scans tabWidth (.ofSource source) ts d) (hd : d.scan tabWidth = (.ok t, d'))
    (ht : t.isEndOfFile = true) :
    ofSource ⟨false, tabWidth⟩ source = ⟨ts ++ [t], none, []⟩ := by
  have := Scanner.drain_of_scans h hd ht
    (Nat.lt_succ_of_le (Nat.le_of_eq (String.length_toList (s := source))))
  simp only [ofSource, Scanner.ofSource, this]

end TokenStream

end LineScript
