import LineScript.Proofs.Token.Columns

/-!
# Where tokens stand

A token knows the line and the column at which it begins, and a string literal also those at which
it ends. Main statement: whatever the source text, the line of a token is told by the line breaks in
front of it, and its column by the characters in front of it on its line, where a tab is wide if it
was skipped as a blank between tokens: not inside a token, not in a comment and not passed over with
an error. What is inside a token, in a comment or passed over is told by the spans of the tokens and
of the errors alone.
-/

namespace LineScript

open Scan

/-- Whether an offset lies in a span. -/
def Span.holds (s : Span) (i : Nat) : Bool := s.start ≤ i && i < s.stop

namespace TokenStream

/-- Whether a character lies in a token. -/
def isInToken (stream : TokenStream) (i : Nat) : Bool := stream.tokens.any (·.span.holds i)

/-- Whether a character is in a comment: in front of it on its line, or at it, are two slashes that
no token holds. -/
def isInComment (stream : TokenStream) (source : List Char) (i : Nat) : Bool :=
  (List.range (i + 1)).any fun j =>
    ['/', '/'].isPrefixOf (source.drop j) && !stream.isInToken j && lineStart source (i + 1) ≤ j

/-- Whether a character was passed over with an error: it is in the span of the error, or behind its
front on the same line. -/
def isPassedOver (stream : TokenStream) (source : List Char) (i : Nat) : Bool :=
  stream.errors.any fun e =>
    e.span.start ≤ i && (i < e.span.stop || lineStart source (i + 1) ≤ e.span.start)

/-- Whether a character is a tab that was skipped as a blank between tokens. -/
def isSkippedTab (stream : TokenStream) (source : List Char) (i : Nat) : Bool :=
  source[i]? == some '\t' &&
    !(stream.isInToken i || stream.isInComment source i || stream.isPassedOver source i)

/-- The place of an offset: one line more than there are line breaks in front of it, and one column
more than the characters in front of it on its line take. -/
def place (stream : TokenStream) (source : List Char) (tabWidth : Nat) (p : Nat) : Position :=
  ⟨1 + lineBreaks (source.take p),
    min (columnAt source tabWidth (stream.isSkippedTab source) p) Cursor.lastColumn⟩

end TokenStream

namespace Scanner

/-- How a scanner comes to a token: over blanks and a comment, and there at once, or at the end of
the line behind an error. -/
inductive Comes (s : Scanner) (t : Token) (s' : Scanner) : Prop where
  | atOnce
      (hread : (s.cursor.skipBlanks s.mode.tabWidth).skipComment.readToken = (.ok t, s'.cursor))
      (herrors : s'.errors = s.errors)
  | behindError {e : LexError} {c : Cursor}
      (hfail : (s.cursor.skipBlanks s.mode.tabWidth).skipComment.readToken = (.error e, c))
      (hread : c.skipLine.readToken = (.ok t, s'.cursor)) (herrors : s'.errors = s.errors ++ [e])

/-- At the end of a line there is no blank and no comment. -/
theorem skip_skipLine (tabWidth : Nat) (c : Cursor) :
    (c.skipLine.skipBlanks tabWidth).skipComment = c.skipLine := by
  have hstop := c.skipLine_stop
  generalize c.skipLine = d at hstop
  cases hd : d.rest with
  | nil =>
    obtain ⟨rest, offset, line, column⟩ := d
    subst hd
    rfl
  | cons x xs => exact Cursor.skip_break hd (hstop x (by simp [hd]))

theorem next_comes {s s' : Scanner} {t : Token} (h : s.next = (.ok t, s')) : Comes s t s' := by
  unfold next at h
  split at h
  next hscan =>
    cases h
    exact .atOnce hscan rfl
  next e c hscan =>
    split at h
    · dsimp only at h
      have ht := congrArg Prod.fst h
      have hs := congrArg Prod.snd h
      dsimp only at ht hs
      subst hs
      refine .behindError hscan ?_ rfl
      rw [Cursor.scan, skip_skipLine] at ht ⊢
      exact Prod.ext ht rfl
    · cases h

end Scanner

/-- The line of a character is over at an offset: a line break is between them, or the source is at
its end. -/
def Over (source : List Char) (j o : Nat) : Prop := o = source.length ∨ j < lineStart source o

namespace Over

variable {source : List Char} {j o p i : Nat}

theorem mono (h : Over source j o) (hop : o ≤ p) (hp : p ≤ source.length) : Over source j p := by
  rcases h with rfl | hlt
  · exact .inl (Nat.le_antisymm hp hop)
  · exact .inr (Nat.lt_of_lt_of_le hlt (lineStart_mono source hop))

theorem lt_lineStart (h : Over source j o) (hoi : o ≤ i) (hi : i < source.length) :
    j < lineStart source (i + 1) := by
  rcases h with rfl | hlt
  · omega
  · exact Nat.lt_of_lt_of_le hlt (lineStart_mono source (by omega))

end Over

/-- What a scanner has left behind at an offset: the tokens and the errors lie in front of it, and
the lines of the errors, and of the slashes that are in no token, are over. -/
structure Past (source : List Char) (read : List Token) (errors : List LexError) (o : Nat) :
    Prop where
  token : ∀ t ∈ read, t.span.stop ≤ o
  error : ∀ e ∈ errors, e.span.stop ≤ o ∧ Over source e.span.start o
  slash : ∀ j < o, source[j]? = some '/' → (∀ t ∈ read, t.span.holds j = false) → Over source j o

theorem Span.holds_iff {s : Span} {i : Nat} : s.holds i = true ↔ s.start ≤ i ∧ i < s.stop := by
  simp [holds]

section Covering

variable {source : List Char} {stream : TokenStream} {read : List Token} {errors : List LexError}
  {o p i : Nat}

theorem slash_of_isPrefixOf {j : Nat} (h : ['/', '/'].isPrefixOf (source.drop j) = true) :
    source[j]? = some '/' := by
  obtain ⟨cs, hcs⟩ := List.isPrefixOf_iff_prefix.1 h
  rw [← List.head?_drop, ← hcs]
  rfl

namespace Past

/-- Nothing in front of an offset and nothing behind another one reaches a character between them.
-/
theorem isInToken (h : Past source read errors o)
    (htokens : ∀ t ∈ stream.tokens, t ∈ read ∨ p ≤ t.span.start) (hoi : o ≤ i) (hip : i < p) :
    stream.isInToken i = false := by
  refine List.any_eq_false.2 fun t ht hholds => ?_
  obtain ⟨hstart, hstop⟩ := Span.holds_iff.1 hholds
  rcases htokens t ht with hread | hlater
  · have hpast := h.token t hread
    omega
  · omega

theorem isInComment (h : Past source read errors o)
    (hread : ∀ t ∈ read, t ∈ stream.tokens) (hoi : o ≤ i) (hi : i < source.length)
    (hslash : ∀ j, o ≤ j → j ≤ i → source[j]? ≠ some '/') :
    stream.isInComment source i = false := by
  refine List.any_eq_false.2 fun j hj hcomment => ?_
  simp only [Bool.and_eq_true, Bool.not_eq_true', decide_eq_true_eq] at hcomment
  obtain ⟨⟨hopened, houtside⟩, hline⟩ := hcomment
  have hj : j ≤ i := by
    have := List.mem_range.1 hj
    omega
  have hchar := slash_of_isPrefixOf hopened
  by_cases hoj : o ≤ j
  · exact hslash j hoj hj hchar
  · have hover := h.slash j (by omega) hchar fun t ht => by
      simpa using List.any_eq_false.1 houtside t (hread t ht)
    have hlt := hover.lt_lineStart hoi hi
    omega

theorem isPassedOver (h : Past source read errors o)
    (herrors : ∀ e ∈ stream.errors, e ∈ errors ∨ p ≤ e.span.start) (hoi : o ≤ i) (hip : i < p)
    (hi : i < source.length) : stream.isPassedOver source i = false := by
  refine List.any_eq_false.2 fun e he hpassed => ?_
  simp only [Bool.and_eq_true, Bool.or_eq_true, decide_eq_true_eq] at hpassed
  obtain ⟨hstart, htail⟩ := hpassed
  rcases herrors e he with hpast | hlater
  · obtain ⟨hstop, hover⟩ := h.error e hpast
    have hlt := hover.lt_lineStart hoi hi
    omega
  · omega

/-- Characters between the tokens and errors in front and those behind, with no slash among them,
are in no token and in no comment and were not passed over: their tabs were skipped as blanks. -/
theorem isSkippedTab (h : Past source read errors o) (hread : ∀ t ∈ read, t ∈ stream.tokens)
    (htokens : ∀ t ∈ stream.tokens, t ∈ read ∨ p ≤ t.span.start)
    (herrors : ∀ e ∈ stream.errors, e ∈ errors ∨ p ≤ e.span.start) (hoi : o ≤ i) (hip : i < p)
    (hslash : ∀ j, o ≤ j → j ≤ i → source[j]? ≠ some '/') :
    stream.isSkippedTab source i = (source[i]? == some '\t') := by
  unfold TokenStream.isSkippedTab
  by_cases hi : i < source.length
  · rw [h.isInToken htokens hoi hip, h.isInComment hread hoi hi hslash,
      h.isPassedOver herrors hoi hip hi]
    simp
  · simp [List.getElem?_eq_none (Nat.le_of_not_lt hi)]

end Past

/-- No tab in a token is skipped as a blank. -/
theorem not_isSkippedTab_of_token {t : Token} (ht : t ∈ stream.tokens) (hstart : t.span.start ≤ i)
    (hstop : i < t.span.stop) : stream.isSkippedTab source i = false := by
  have htoken : stream.isInToken i = true :=
    List.any_eq_true.2 ⟨t, ht, Span.holds_iff.2 ⟨hstart, hstop⟩⟩
  simp [TokenStream.isSkippedTab, htoken]

/-- No tab in a comment is skipped as a blank. -/
theorem not_isSkippedTab_of_comment {j : Nat}
    (hopened : ['/', '/'].isPrefixOf (source.drop j) = true) (houtside : stream.isInToken j = false)
    (hji : j ≤ i) (hline : lineStart source (i + 1) ≤ j) :
    stream.isSkippedTab source i = false := by
  have hcomment : stream.isInComment source i = true := by
    refine List.any_eq_true.2 ⟨j, List.mem_range.2 (by omega), ?_⟩
    simp [hopened, houtside, hline]
  simp [TokenStream.isSkippedTab, hcomment]

/-- No tab that was passed over with an error is skipped as a blank. -/
theorem not_isSkippedTab_of_error {e : LexError} (he : e ∈ stream.errors)
    (hstart : e.span.start ≤ i)
    (htail : i < e.span.stop ∨ lineStart source (i + 1) ≤ e.span.start) :
    stream.isSkippedTab source i = false := by
  have hpassed : stream.isPassedOver source i = true := by
    refine List.any_eq_true.2 ⟨e, he, ?_⟩
    simpa [hstart] using htail
  simp [TokenStream.isSkippedTab, hpassed]

end Covering

namespace Cursor

section Skipping

variable {source : List Char} {stream : TokenStream} {read : List Token} {errors : List LexError}
  {tabWidth : Nat} {c : Cursor}

theorem skipComment_cases (c : Cursor) :
    (∃ cs, c.rest = '/' :: '/' :: cs ∧ c.skipComment = c.skipLine) ∨ c.skipComment = c := by
  unfold skipComment
  split
  next cs hc => exact .inl ⟨cs, hc, rfl⟩
  · exact .inr rfl

/-- There is no slash among blanks. -/
theorem Stands.slash_skipBlanks (h : c.Stands source) {j : Nat} (hle : c.offset ≤ j)
    (hlt : j < (c.skipBlanks tabWidth).offset) : source[j]? ≠ some '/' := by
  obtain ⟨k, rfl⟩ := Nat.exists_eq_add_of_le hle
  obtain ⟨x, hx, hblank⟩ := exists_of_lt_takeWhile (Nat.lt_of_add_lt_add_left hlt)
  rw [h.getElem?, hx]
  rintro ⟨⟩
  cases hblank

/-- A slash among blanks and a comment is in the comment, which reaches to the end of the line. -/
theorem Stands.slash_skip (h : c.Stands source) {j : Nat} (hle : c.offset ≤ j)
    (hlt : j < (c.skipBlanks tabWidth).skipComment.offset) (hslash : source[j]? = some '/') :
    ∀ x ∈ (c.skipBlanks tabWidth).skipComment.rest.head?, isLineBreak x = true := by
  have hblanks : (c.skipBlanks tabWidth).offset ≤ j := by
    by_contra hnot
    exact h.slash_skipBlanks hle (Nat.lt_of_not_le hnot) hslash
  rcases skipComment_cases (c.skipBlanks tabWidth) with ⟨_, _, hskip⟩ | hskip
  · rw [hskip]
    exact skipLine_stop _
  · rw [hskip] at hlt
    omega

/-- Blanks and a comment are skipped with lines and columns counted along. -/
theorem Placed.skip (h : c.Placed source tabWidth (stream.isSkippedTab source))
    (hpast : Past source read errors c.offset) (hread : ∀ t ∈ read, t ∈ stream.tokens)
    (htokens : ∀ t ∈ stream.tokens,
      t ∈ read ∨ (c.skipBlanks tabWidth).skipComment.offset ≤ t.span.start)
    (herrors : ∀ e ∈ stream.errors,
      e ∈ errors ∨ (c.skipBlanks tabWidth).skipComment.offset ≤ e.span.start) :
    (c.skipBlanks tabWidth).skipComment.Placed source tabWidth (stream.isSkippedTab source) := by
  have hfront : c.offset ≤ (c.skipBlanks tabWidth).offset := Nat.le_add_right _ _
  have hblanks : (c.skipBlanks tabWidth).offset ≤ (c.skipBlanks tabWidth).skipComment.offset →
      (c.skipBlanks tabWidth).Placed source tabWidth (stream.isSkippedTab source) := by
    intro hle
    refine h.skipBlanks fun i hoi hlt => ?_
    refine hpast.isSkippedTab hread htokens herrors hoi (Nat.lt_of_lt_of_le hlt hle) ?_
    exact fun j hoj hji => h.stands.slash_skipBlanks hoj (Nat.lt_of_le_of_lt hji hlt)
  rcases skipComment_cases (c.skipBlanks tabWidth) with ⟨cs, hc, hskip⟩ | hskip
  · rw [hskip] at htokens hblanks ⊢
    have hplaced := hblanks (Nat.le_add_right _ _)
    refine hplaced.skipLine fun i hle hlt => ?_
    refine not_isSkippedTab_of_comment ?_ ?_ hle (hplaced.stands.skipLine_inLine hle hlt)
    · rw [hplaced.stands.rest, hc]
      rfl
    · exact hpast.isInToken htokens hfront (Nat.lt_of_le_of_lt hle hlt)
  · rw [hskip] at hblanks ⊢
    exact hblanks (Nat.le_refl _)

end Skipping

/-- Behind the span of a token is no more of it than the last character of a line break. -/
theorem Passes.slash {source : List Char} {c c' : Cursor} {t : Token} (h : Passes c t c')
    (hfits : c'.offset ≤ Span.lastOffset) (hstands : c.Stands source) {j : Nat}
    (hle : t.span.stop ≤ j) (hlt : j < c'.offset) : source[j]? ≠ some '/' := by
  cases h with
  | atEnd _ _ hspan =>
    rw [hspan, Span.between_eq (Nat.le_refl _) hfits] at hle
    exact absurd hlt (Nat.not_lt.2 hle)
  | lineBreak hrest hx _ hspan =>
    simp only [Cursor.breakLine] at hfits hlt
    rw [hspan, Span.between_eq (Nat.le_add_right _ _) (by omega)] at hle
    have hlast : j = c.offset + (lineBreakLength c.rest - 1) := by
      dsimp only at hle
      omega
    obtain ⟨y, hy, hbreak⟩ := lineBreak_last _ hx
    rw [hlast, hstands.getElem?, hrest, hy]
    rintro ⟨⟩
    cases hbreak
  | inLine _ _ _ _ _ hspan =>
    rw [hspan, Span.between_eq (Nat.le_add_right _ _) hfits] at hle
    exact absurd hlt (Nat.not_lt.2 hle)
  | @string body _ _ hspan =>
    rw [hspan, Span.between_eq (offset_le_string c body) hfits] at hle
    exact absurd hlt (Nat.not_lt.2 hle)

end Cursor

open Cursor

section Reading

variable {source : List Char} {stream : TokenStream} {read : List Token} {errors : List LexError}
  {o tabWidth : Nat} {c c' : Cursor} {t : Token}

/-- A token more is left behind. A slash between it and what was left behind before stands in a
comment or in a line that was passed over, so that the token ends a line. -/
theorem Past.reads (h : Past source read errors o) (hfits : source.length ≤ Span.lastOffset)
    (hpasses : Passes c t c') (hstands : c.Stands source) (hoc : o ≤ c.offset)
    (hslash : ∀ j, o ≤ j → j < c.offset → source[j]? = some '/' →
      ∀ x ∈ c.rest.head?, isLineBreak x = true) :
    Past source (read ++ [t]) errors c'.offset := by
  have hinside := (hpasses.stands hstands).inside
  have hfits' := Nat.le_trans hinside hfits
  obtain ⟨hstart, hstop, hend⟩ := hpasses.span hfits'
  have hoc' : o ≤ c'.offset := by omega
  constructor
  · intro u hu
    rcases List.mem_append.1 hu with hu | hu
    · have hpast := h.token u hu
      omega
    · rw [List.mem_singleton.1 hu]
      exact hend
  · intro e he
    obtain ⟨hpast, hover⟩ := h.error e he
    exact ⟨by omega, hover.mono hoc' hinside⟩
  · intro j hj hchar houtside
    by_cases hjo : j < o
    · have hover := h.slash j hjo hchar fun u hu => houtside u (List.mem_append_left _ hu)
      exact hover.mono hoc' hinside
    by_cases hjc : j < c.offset
    · rcases hpasses.ends_line hstands (hslash j (by omega) hjc hchar) with hlast | hline
      · exact .inl hlast
      · right
        omega
    by_cases hjt : j < t.span.stop
    · have hin := houtside t (by simp)
      rw [Span.holds_iff.2 ⟨by omega, hjt⟩] at hin
      cases hin
    · exact absurd hchar (hpasses.slash hfits' hstands (by omega) hj)

theorem Past.fails (h : Past source read errors o) {e : LexError} (hstop : e.span.stop ≤ o)
    (hover : Over source e.span.start o) : Past source read (errors ++ [e]) o := by
  refine { h with error := fun f hf => ?_ }
  rcases List.mem_append.1 hf with hf | hf
  · exact h.error f hf
  · rw [List.mem_singleton.1 hf]
    exact ⟨hstop, hover⟩

/-- A cursor stands at the place of its offset. -/
theorem Cursor.Placed.position (h : c.Placed source tabWidth (stream.isSkippedTab source)) :
    c.position = stream.place source tabWidth c.offset := by
  rw [Cursor.position, h.line, h.column]
  rfl

/-- A token that is read where lines and columns were counted along knows its place. -/
theorem token_place (hfits : source.length ≤ Span.lastOffset)
    (hc : c.Placed source tabWidth (stream.isSkippedTab source))
    (h : c.readToken = (.ok t, c')) (ht : t ∈ stream.tokens) :
    c'.Placed source tabWidth (stream.isSkippedTab source) ∧
      t.start = stream.place source tabWidth t.span.start ∧
      (t.kind = .string → t.stop = stream.place source tabWidth t.span.stop) := by
  obtain ⟨hstart, hpasses⟩ := readToken_passes h
  have hfits' := (hpasses.stands hc.stands).fits hfits
  have hc' := hpasses.placed hfits' hc fun i => not_isSkippedTab_of_token ht
  refine ⟨hc', ?_, ?_⟩
  · rw [hstart, hc.position, (hpasses.span hfits').1]
  · intro hk
    obtain ⟨hposition, hoffset⟩ := hpasses.string_stop hfits' hk
    rw [hposition, hc'.position, hoffset]

end Reading

namespace Scanner

variable {s s' : Scanner} {t : Token} {source : List Char} {stream : TokenStream}

theorem skip_stands (tabWidth : Nat) {c : Cursor} (h : c.Stands source) :
    (c.skipBlanks tabWidth).skipComment.Stands source := by
  obtain ⟨gap, hrest, _, hoffset⟩ := c.skip_gap tabWidth
  exact h.move hrest rfl hoffset

/-- A token is read off the source by a cursor that stands in it. -/
theorem Comes.reads (h : Comes s t s') (hs : s.cursor.Stands source) :
    ∃ c : Cursor, c.Stands source ∧ c.readToken = (.ok t, s'.cursor) := by
  have hskip := skip_stands s.mode.tabWidth hs
  cases h with
  | atOnce hread => exact ⟨_, hskip, hread⟩
  | behindError hfail hread => exact ⟨_, ((readToken_fails hfail).stands hskip).skipLine, hread⟩

theorem Comes.stands (h : Comes s t s') (hs : s.cursor.Stands source) :
    s'.cursor.Stands source := by
  obtain ⟨c, hc, hread⟩ := h.reads hs
  exact (readToken_passes hread).2.stands hc

/-- A scanner does not go back: the token, and an error in front of it, lie ahead. -/
theorem Comes.ahead (h : Comes s t s') (hfits : source.length ≤ Span.lastOffset)
    (hs : s.cursor.Stands source) :
    (s.cursor.skipBlanks s.mode.tabWidth).skipComment.offset ≤ t.span.start ∧
      (s.cursor.skipBlanks s.mode.tabWidth).skipComment.offset ≤ s'.cursor.offset ∧
      ∀ e ∈ s'.errors, e ∈ s.errors ∨
        (s.cursor.skipBlanks s.mode.tabWidth).skipComment.offset ≤ e.span.start := by
  have hfits' := (h.stands hs).fits hfits
  cases h with
  | atOnce hread herrors =>
    obtain ⟨hstart, hstop, hend⟩ := (readToken_passes hread).2.span hfits'
    refine ⟨by omega, by omega, ?_⟩
    rw [herrors]
    exact fun e he => .inl he
  | behindError hfail hread herrors =>
    have hfail := readToken_fails hfail
    have hline := (hfail.stands (skip_stands s.mode.tabWidth hs)).skipLine
    obtain ⟨hstart, hstop, hend⟩ := (readToken_passes hread).2.span hfits'
    obtain ⟨hfront, hbehind, htail⟩ := hfail.span (hline.fits hfits)
    refine ⟨by omega, by omega, ?_⟩
    rw [herrors]
    intro e he
    rcases List.mem_append.1 he with he | he
    · exact .inl he
    · rw [List.mem_singleton.1 he]
      exact .inr (by omega)

theorem skip_offset (tabWidth : Nat) (c : Cursor) :
    c.offset ≤ (c.skipBlanks tabWidth).skipComment.offset := by
  obtain ⟨gap, _, _, hoffset⟩ := c.skip_gap tabWidth
  omega

/-- One token more: it knows its place, and behind it lines and columns are counted along. -/
theorem Comes.placed {read : List Token} (h : Comes s t s')
    (hfits : source.length ≤ Span.lastOffset)
    (hplaced : s.cursor.Placed source s.mode.tabWidth (stream.isSkippedTab source))
    (hpast : Past source read s.errors s.cursor.offset)
    (hread : ∀ u ∈ read ++ [t], u ∈ stream.tokens) (hpassed : ∀ e ∈ s'.errors, e ∈ stream.errors)
    (htokens : ∀ u ∈ stream.tokens, u ∈ read ++ [t] ∨ s'.cursor.offset ≤ u.span.start)
    (herrors : ∀ e ∈ stream.errors, e ∈ s'.errors ∨ s'.cursor.offset ≤ e.span.start) :
    s'.cursor.Placed source s.mode.tabWidth (stream.isSkippedTab source) ∧
      Past source (read ++ [t]) s'.errors s'.cursor.offset ∧
      t.start = stream.place source s.mode.tabWidth t.span.start ∧
      (t.kind = .string → t.stop = stream.place source s.mode.tabWidth t.span.stop) := by
  obtain ⟨htoken, hoffset, herror⟩ := h.ahead hfits hplaced.stands
  have hfront := skip_offset s.mode.tabWidth s.cursor
  have hskip := hplaced.skip hpast (fun u hu => hread u (List.mem_append_left _ hu))
    (fun u hu => by
      rcases htokens u hu with hu | hu
      · rcases List.mem_append.1 hu with hu | hu
        · exact .inl hu
        · rw [List.mem_singleton.1 hu]
          exact .inr htoken
      · exact .inr (Nat.le_trans hoffset hu))
    (fun e he => by
      rcases herrors e he with he | he
      · exact herror e he
      · exact .inr (Nat.le_trans hoffset he))
  have hmember := hread t (by simp)
  cases h with
  | atOnce hreads hsame =>
    obtain ⟨hplaced', hplace⟩ := token_place hfits hskip hreads hmember
    have hpasses := (readToken_passes hreads).2
    refine ⟨hplaced', ?_, hplace⟩
    rw [hsame]
    exact hpast.reads hfits hpasses hskip.stands hfront
      fun j hle hlt => hplaced.stands.slash_skip hle hlt
  | @behindError e c hfails hreads hmore =>
    have hfail := readToken_fails hfails
    have hfits' := (hfail.stands hskip.stands).skipLine.fits hfits
    obtain ⟨hstart, hstop, hend⟩ := hfail.span hfits'
    have hline := hfail.placed hskip fun i hle hlt =>
      not_isSkippedTab_of_error (hpassed e (by simp [hmore])) (by omega)
        (hfail.tail hfits' hskip.stands hle hlt)
    obtain ⟨hplaced', hplace⟩ := token_place hfits hline hreads hmember
    have hpasses := (readToken_passes hreads).2
    refine ⟨hplaced', ?_, hplace⟩
    rw [hmore]
    have hbehind := hpast.reads hfits hpasses hline.stands (by omega)
      fun _ _ _ _ => c.skipLine_stop
    obtain ⟨_, hspan, hspan'⟩ := hpasses.span (hplaced'.stands.fits hfits)
    refine hbehind.fails (by omega) ?_
    rcases hpasses.ends_line hline.stands c.skipLine_stop with hlast | hlast
    · exact .inl hlast
    · exact .inr (by omega)

theorem next_error {e : LexError} (h : s.next = (.error e, s')) : s'.errors = s.errors := by
  unfold next at h
  split at h
  · cases h
  next c _ =>
    split at h
    · obtain ⟨t, c', hscan⟩ := c.scan_skipLine s.mode.tabWidth
      simp [hscan] at h
    · cases h
      rfl

/-- All that a scanner reads and passes over lies ahead of it. -/
theorem drain_ahead (hfits : source.length ≤ Span.lastOffset) (n : Nat) {s : Scanner}
    (hs : s.cursor.Stands source) :
    (∀ t ∈ (s.drain n).1, s.cursor.offset ≤ t.span.start) ∧
      ∀ e ∈ (s.drain n).2.2, e ∈ s.errors ∨ s.cursor.offset ≤ e.span.start := by
  induction n generalizing s with
  | zero => exact ⟨by simp [drain], fun e he => .inl he⟩
  | succ n ih =>
    unfold drain
    split
    next hnext =>
      rw [next_error hnext]
      exact ⟨by simp, fun e he => .inl he⟩
    next t s' hnext =>
      have hcomes := next_comes hnext
      obtain ⟨hstart, hoffset, herrors⟩ := hcomes.ahead hfits hs
      have hfront := skip_offset s.mode.tabWidth s.cursor
      have herror : ∀ e ∈ s'.errors, e ∈ s.errors ∨ s.cursor.offset ≤ e.span.start := fun e he =>
        (herrors e he).imp_right (Nat.le_trans hfront)
      obtain ⟨htokens, hlater⟩ := ih (hcomes.stands hs)
      split
      · exact ⟨by simp; omega, herror⟩
      · refine ⟨?_, ?_⟩
        · intro u hu
          rcases List.mem_cons.1 hu with rfl | hu
          · omega
          · have := htokens u hu
            omega
        · intro e he
          rcases hlater e he with he | he
          · exact herror e he
          · exact .inr (by omega)

/-- All tokens that a scanner reads know their places. -/
theorem drain_places (hfits : source.length ≤ Span.lastOffset) (n : Nat) {read : List Token}
    (hplaced : s.cursor.Placed source s.mode.tabWidth (stream.isSkippedTab source))
    (hpast : Past source read s.errors s.cursor.offset)
    (htokens : stream.tokens = read ++ (s.drain n).1) (herrors : stream.errors = (s.drain n).2.2) :
    ∀ t ∈ (s.drain n).1, t.start = stream.place source s.mode.tabWidth t.span.start ∧
      (t.kind = .string → t.stop = stream.place source s.mode.tabWidth t.span.stop) := by
  induction n generalizing s read with
  | zero => simp [drain]
  | succ n ih =>
    rcases hnext : s.next with ⟨e | t, s'⟩
    · simp [drain, hnext]
    have hmode := (next_ok hnext).1
    have hcomes := next_comes hnext
    by_cases hlast : t.isEndOfFile = true
    · have hdrain : s.drain (n + 1) = ([t], none, s'.errors) := by simp [drain, hnext, hlast]
      rw [hdrain] at htokens herrors ⊢
      dsimp only at herrors
      obtain ⟨_, _, hplace⟩ := hcomes.placed hfits hplaced hpast (fun u hu => htokens ▸ hu)
        (fun e he => herrors ▸ he) (fun u hu => .inl (htokens ▸ hu)) fun e he => .inl (herrors ▸ he)
      intro u hu
      rw [List.mem_singleton.1 hu]
      exact hplace
    · have hdrain : s.drain (n + 1) = (t :: (s'.drain n).1, (s'.drain n).2) := by
        simp [drain, hnext, hlast]
      rw [hdrain] at htokens herrors ⊢
      have hsplit : stream.tokens = (read ++ [t]) ++ (s'.drain n).1 := by
        rw [htokens, List.append_assoc]
        rfl
      obtain ⟨hahead, hlater⟩ := drain_ahead hfits n (hcomes.stands hplaced.stands)
      obtain ⟨hplaced', hpast', hplace⟩ := hcomes.placed hfits hplaced hpast
        (fun u hu => hsplit ▸ List.mem_append_left _ hu)
        (fun e he => herrors ▸ (drain_errors n s').subset he)
        (fun u hu => (List.mem_append.1 (hsplit ▸ hu)).imp_right (hahead u))
        (fun e he => hlater e (herrors ▸ he))
      rw [← hmode] at hplaced' hplace ⊢
      intro u hu
      rcases List.mem_cons.1 hu with rfl | hu
      · exact hplace
      · exact ih hplaced' hpast' hsplit herrors u hu

end Scanner

namespace TokenStream

/-- Every token of a source text whose offsets are all told apart knows its place. It begins on the
line and in the column that the source text in front of it tells, and a string literal ends where
the text in front of its end tells. -/
theorem token_positions (mode : ReadingMode) (source : String)
    (hfits : source.length ≤ Span.lastOffset) {t : Token}
    (ht : t ∈ (ofSource mode source).tokens) :
    t.start = (ofSource mode source).place source.toList mode.tabWidth t.span.start ∧
      (t.kind = .string →
        t.stop = (ofSource mode source).place source.toList mode.tabWidth t.span.stop) := by
  have hpast : Past source.toList [] [] 0 := by
    constructor
    · simp
    · simp
    · intro j hj
      omega
  rw [← String.length_toList] at hfits
  exact Scanner.drain_places hfits (source.length + 1)
    (Cursor.ofSource_placed source mode.tabWidth _) hpast rfl rfl t ht

/-- Tabs in front of a string literal, in it, behind it, in a comment, behind a character that
begins no token, and in a closing word. -/
def tabbed : String := "\t\"a\t\r\nb\"\t\"c\" // \t\n\t? \t\n\rend\tif\tx"

theorem token_positions_tabbed :
    tabbed.length ≤ Span.lastOffset ∧
      (⟨.string, "c", ⟨9, 12⟩, ⟨⟨2, 7⟩, ⟨2, 10⟩⟩⟩ : Token) ∈ (ofSource ⟨true, 4⟩ tabbed).tokens ∧
      (⟨.identifier, "x", ⟨31, 32⟩, ⟨⟨4, 11⟩, ⟨4, 12⟩⟩⟩ : Token) ∈
        (ofSource ⟨true, 4⟩ tabbed).tokens ∧
      (ofSource ⟨true, 4⟩ tabbed).place tabbed.toList 4 9 = ⟨2, 7⟩ ∧
      (ofSource ⟨true, 4⟩ tabbed).place tabbed.toList 4 12 = ⟨2, 10⟩ ∧
      (ofSource ⟨true, 4⟩ tabbed).place tabbed.toList 4 31 = ⟨4, 11⟩ := by
  have hstring : (⟨.string, "c", ⟨9, 12⟩, ⟨⟨2, 7⟩, ⟨2, 10⟩⟩⟩ : Token) ∈
      (ofSource ⟨true, 4⟩ tabbed).tokens := by decide +kernel
  have hname : (⟨.identifier, "x", ⟨31, 32⟩, ⟨⟨4, 11⟩, ⟨4, 12⟩⟩⟩ : Token) ∈
      (ofSource ⟨true, 4⟩ tabbed).tokens := by decide +kernel
  have hfits : tabbed.length ≤ Span.lastOffset := by decide +kernel
  obtain ⟨hstart, hstop⟩ := token_positions ⟨true, 4⟩ tabbed hfits hstring
  obtain ⟨hbegin, _⟩ := token_positions ⟨true, 4⟩ tabbed hfits hname
  exact ⟨hfits, hstring, hname, hstart.symm, (hstop rfl).symm, hbegin.symm⟩

end TokenStream

end LineScript
