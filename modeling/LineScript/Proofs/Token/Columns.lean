import LineScript.Proofs.Token.Breaks
import LineScript.Proofs.Token.Lossless

/-!
# Counting lines and columns

A cursor counts its line and its column along: in one way over blanks, in another at a line break,
and in a third over the text of a string literal. Main statement: each move of a cursor keeps its
line the number of line breaks behind it, pairs taken from the left, and its column the number of
characters behind it on its line, where some tabs are told to be wide and take more than one column.
-/

namespace LineScript

namespace Scan

/-- The characters in front of the first that fails a test pass it. -/
theorem exists_of_lt_takeWhile {test : Char → Bool} {cs : List Char} {k : Nat}
    (h : k < (cs.takeWhile test).length) : ∃ x, cs[k]? = some x ∧ test x = true := by
  have hsplit : cs.takeWhile test ++ cs.dropWhile test = cs := List.takeWhile_append_dropWhile
  refine ⟨(cs.takeWhile test)[k], ?_, List.all_eq_true.1 List.all_takeWhile _ (List.getElem_mem h)⟩
  conv_lhs => rw [← hsplit, List.getElem?_append_left h]
  exact List.getElem?_eq_getElem h

/-- How many line breaks a text has. Two different line break characters in a row are one line
break, paired from the left. -/
def lineBreaks : List Char → Nat
  | '\n' :: '\r' :: cs => lineBreaks cs + 1
  | '\r' :: '\n' :: cs => lineBreaks cs + 1
  | '\n' :: cs => lineBreaks cs + 1
  | '\r' :: cs => lineBreaks cs + 1
  | _ :: cs => lineBreaks cs
  | [] => 0

/-- The offset of the first character of the line that an offset is on. -/
def lineStart (source : List Char) : Nat → Nat
  | 0 => 0
  | p + 1 => if source[p]?.any isLineBreak then p + 1 else lineStart source p

/-- The column of an offset, where the tabs that are told wide take their whole width. -/
def columnAt (source : List Char) (tabWidth : Nat) (isWide : Nat → Bool) (p : Nat) : Nat :=
  let start := lineStart source p
  1 + (p - start) + (max tabWidth 1 - 1) * (List.range' start (p - start)).countP isWide

theorem lineStart_le (source : List Char) (p : Nat) : lineStart source p ≤ p := by
  induction p with
  | zero => exact Nat.le_refl 0
  | succ p ih =>
    rw [lineStart]
    split <;> omega

theorem lineStart_mono (source : List Char) {p q : Nat} (h : p ≤ q) :
    lineStart source p ≤ lineStart source q := by
  induction q with
  | zero =>
    obtain rfl : p = 0 := by omega
    exact Nat.le_refl _
  | succ q ih =>
    by_cases hpq : p = q + 1
    · subst hpq
      exact Nat.le_refl _
    · have hle := ih (by omega)
      have hstart := lineStart_le source q
      rw [lineStart]
      split <;> omega

/-- The line goes on behind characters that break no line. -/
theorem lineStart_add {source : List Char} {p n : Nat}
    (h : ∀ k < n, source[p + k]?.any isLineBreak = false) :
    lineStart source (p + n) = lineStart source p := by
  induction n with
  | zero => rfl
  | succ n ih =>
    rw [← Nat.add_assoc, lineStart, h n (Nat.lt_succ_self n)]
    exact ih fun k hk => h k (by omega)

/-- Along a line every character takes a column, and the wide tabs take the rest of their width. -/
theorem columnAt_add {source : List Char} {tabWidth : Nat} {isWide : Nat → Bool} {p n : Nat}
    (h : ∀ k < n, source[p + k]?.any isLineBreak = false) :
    columnAt source tabWidth isWide (p + n) = columnAt source tabWidth isWide p + n +
      (max tabWidth 1 - 1) * (List.range' p n).countP isWide := by
  have hle := lineStart_le source p
  have hsplit : List.range' (lineStart source p) (p + n - lineStart source p) =
      List.range' (lineStart source p) (p - lineStart source p) ++ List.range' p n := by
    have hsize : p + n - lineStart source p = p - lineStart source p + n := by omega
    have hstart : lineStart source p + (p - lineStart source p) = p := by omega
    rw [hsize, ← List.range'_append_1, hstart]
  simp only [columnAt, lineStart_add h, hsplit, List.countP_append, Nat.mul_add]
  omega

/-- Behind a line break a line begins. -/
theorem columnAt_break {source : List Char} {tabWidth : Nat} {isWide : Nat → Bool} {p : Nat}
    {x : Char} (hx : source[p]? = some x) (hbreak : isLineBreak x = true) :
    columnAt source tabWidth isWide (p + 1) = 1 := by
  simp [columnAt, lineStart, hx, hbreak]

/-- A text that breaks no line adds no line break in front of another text. -/
theorem lineBreaks_append {text : List Char} (h : ∀ x ∈ text, isLineBreak x = false)
    (cs : List Char) : lineBreaks (text ++ cs) = lineBreaks cs := by
  induction text with
  | nil => rfl
  | cons x text ih =>
    have hx := h x (by simp)
    rw [List.cons_append, lineBreaks, ih fun y hy => h y (by simp [hy])]
    all_goals
      intros
      subst_vars
      simp [isLineBreak] at hx

/-- The line break in front is one line break, whether it is a single character or a pair. -/
theorem lineBreaks_take {x : Char} {xs : List Char} (hx : isLineBreak x = true) (m : Nat) :
    lineBreaks ((x :: xs).take (lineBreakLength (x :: xs) + m)) =
      lineBreaks (((x :: xs).drop (lineBreakLength (x :: xs))).take m) + 1 := by
  have hhead : ∀ y, xs.head? ≠ some y → ∀ cs, xs.take m ≠ y :: cs := by
    intro y hy cs hcs
    cases xs with
    | nil => simp at hcs
    | cons z xs => cases m <;> simp_all
  have hx : x = '\n' ∨ x = '\r' := by simpa [isLineBreak] using hx
  rcases hx with rfl | rfl
  · by_cases hpair : xs.head? = some '\r'
    · obtain ⟨ys, rfl⟩ := List.head?_eq_some_iff.1 hpair
      rw [show lineBreakLength ('\n' :: '\r' :: ys) = 2 from rfl, Nat.add_comm 2 m]
      rfl
    · rw [Cursor.lineBreakLength_newline hpair, Nat.add_comm 1 m, List.take_succ_cons, lineBreaks]
      · rfl
      · exact hhead '\r' hpair
  · by_cases hpair : xs.head? = some '\n'
    · obtain ⟨ys, rfl⟩ := List.head?_eq_some_iff.1 hpair
      rw [show lineBreakLength ('\r' :: '\n' :: ys) = 2 from rfl, Nat.add_comm 2 m]
      rfl
    · rw [Cursor.lineBreakLength_return hpair, Nat.add_comm 1 m, List.take_succ_cons, lineBreaks]
      · rfl
      · exact hhead '\n' hpair

/-- The last character of the line break in front breaks a line too. -/
theorem lineBreak_last {x : Char} (xs : List Char) (hx : isLineBreak x = true) :
    ∃ y, (x :: xs)[lineBreakLength (x :: xs) - 1]? = some y ∧ isLineBreak y = true := by
  rcases lineBreakLength_cases (x :: xs) with hlength | ⟨y, ys, hxs, hy, hlength⟩
  · exact ⟨x, by rw [hlength]; rfl, hx⟩
  · exact ⟨y, by rw [hlength, hxs]; rfl, hy⟩

end Scan

open Scan

theorem Punctuator.isLineBreak_text (p : Punctuator) :
    ∀ x ∈ p.text.toList, isLineBreak x = false := by
  have hall : p.text.toList.all (fun x => !isLineBreak x) = true := by cases p <;> rfl
  intro x hx
  simpa using List.all_eq_true.1 hall x hx

namespace Cursor

/-- A cursor has counted its line and its column along. From where it stands the line breaks ahead
can be counted apart from those behind it, so it does not part a pair. -/
structure Placed (source : List Char) (tabWidth : Nat) (isWide : Nat → Bool) (c : Cursor) :
    Prop where
  stands : c.Stands source
  line : c.line = 1 + lineBreaks (source.take c.offset)
  column : c.column = columnAt source tabWidth isWide c.offset
  whole : ∀ n, lineBreaks (source.take (c.offset + n)) =
    lineBreaks (source.take c.offset) + lineBreaks (c.rest.take n)

section Moves

variable {source : List Char} {tabWidth : Nat} {isWide : Nat → Bool} {c : Cursor}

theorem Stands.getElem? (h : c.Stands source) (k : Nat) : source[c.offset + k]? = c.rest[k]? := by
  rw [← h.rest, List.getElem?_drop]

/-- In a source whose offsets are all told apart the offset of a cursor is. -/
theorem Stands.fits (h : c.Stands source) (hfits : source.length ≤ Span.lastOffset) :
    c.offset ≤ Span.lastOffset :=
  Nat.le_trans h.inside hfits

theorem Stands.atEnd (h : c.Stands source) (hc : c.rest = []) : c.offset = source.length := by
  have hsize := congrArg List.length h.rest
  have hinside := h.inside
  rw [hc, List.length_drop, List.length_nil] at hsize
  omega

/-- A move over characters that are ahead. -/
theorem Stands.move (h : c.Stands source) {text behind : List Char} (hc : c.rest = text ++ behind)
    {d : Cursor} (hrest : d.rest = behind) (hoffset : d.offset = c.offset + text.length) :
    d.Stands source := by
  have hsize := congrArg List.length (h.rest.trans hc)
  have hinside := h.inside
  simp only [List.length_drop, List.length_append] at hsize
  constructor
  · omega
  · rw [hoffset, ← List.drop_drop, h.rest, hc, List.drop_left, hrest]

theorem Stands.advance (h : c.Stands source) {n : Nat} (hn : n ≤ c.rest.length) :
    (c.advance n).Stands source := by
  refine h.move (List.take_append_drop n c.rest).symm rfl ?_
  rw [List.length_take, Nat.min_eq_left hn]
  rfl

theorem Stands.breakLine (h : c.Stands source) {n : Nat} (hn : n ≤ c.rest.length) :
    (c.breakLine n).Stands source := by
  refine h.move (List.take_append_drop n c.rest).symm rfl ?_
  rw [List.length_take, Nat.min_eq_left hn]
  rfl

theorem Stands.skipLine (h : c.Stands source) : c.skipLine.Stands source :=
  h.advance length_takeWhile_le

theorem ofSource_placed (source : String) (tabWidth : Nat) (isWide : Nat → Bool) :
    (ofSource source).Placed source.toList tabWidth isWide where
  stands := ofSource_stands source
  line := rfl
  column := by simp [ofSource, columnAt, lineStart]
  whole n := by simp [ofSource, lineBreaks]

/-- A move along the line, over characters of which some are wide tabs. -/
theorem Placed.inLine (h : c.Placed source tabWidth isWide) {text behind : List Char}
    (hc : c.rest = text ++ behind) (htext : ∀ x ∈ text, isLineBreak x = false) {width : Nat}
    (hwidth : width = text.length +
      (max tabWidth 1 - 1) * (List.range' c.offset text.length).countP isWide) :
    Placed source tabWidth isWide
      ⟨behind, c.offset + text.length, c.line, c.column + width⟩ := by
  have hchar : ∀ k < text.length, source[c.offset + k]?.any isLineBreak = false := by
    intro k hk
    rw [h.stands.getElem?, hc, List.getElem?_append_left hk, List.getElem?_eq_getElem hk]
    exact htext _ (List.getElem_mem hk)
  have htake : ∀ m, c.rest.take (text.length + m) = text ++ behind.take m := by
    intro m
    rw [hc, List.take_length_add_append]
  have hbreaks : lineBreaks (source.take (c.offset + text.length)) =
      lineBreaks (source.take c.offset) := by
    have hwhole := h.whole text.length
    have hline := htake 0
    rw [Nat.add_zero, List.take_zero] at hline
    rw [hline, lineBreaks_append htext] at hwhole
    exact hwhole
  constructor
  · exact h.stands.move hc rfl rfl
  · rw [hbreaks]
    exact h.line
  · rw [columnAt_add hchar, ← h.column, hwidth, Nat.add_assoc]
  · intro m
    have hwhole := h.whole (text.length + m)
    rw [htake, lineBreaks_append htext, ← Nat.add_assoc] at hwhole
    rw [hbreaks]
    exact hwhole

theorem countP_range'_eq_zero {p n : Nat} (h : ∀ i, p ≤ i → i < p + n → isWide i = false) :
    (List.range' p n).countP isWide = 0 := by
  rw [List.countP_eq_zero]
  intro i hi
  obtain ⟨hle, hlt⟩ := List.mem_range'_1.1 hi
  simp [h i hle hlt]

/-- A move along the line over characters none of which is a wide tab. -/
theorem Placed.advance (h : c.Placed source tabWidth isWide) {n : Nat} (hn : n ≤ c.rest.length)
    (htext : ∀ x ∈ c.rest.take n, isLineBreak x = false)
    (hnarrow : ∀ i, c.offset ≤ i → i < c.offset + n → isWide i = false) :
    (c.advance n).Placed source tabWidth isWide := by
  have hsize : (c.rest.take n).length = n := by rw [List.length_take, Nat.min_eq_left hn]
  have hplaced := h.inLine (List.take_append_drop n c.rest).symm htext rfl
  rw [hsize, countP_range'_eq_zero hnarrow, Nat.mul_zero] at hplaced
  exact hplaced

theorem Placed.quote (h : c.Placed source tabWidth isWide) {xs : List Char}
    (hc : c.rest = '"' :: xs) (hnarrow : isWide c.offset = false) :
    (c.advance 1).Placed source tabWidth isWide := by
  refine h.advance (by simp [hc]) (by simp [hc, isLineBreak]) ?_
  intro i hle hlt
  obtain rfl : i = c.offset := by omega
  exact hnarrow

/-- A line break is one line more, and its end is the front of a line. -/
theorem Placed.breakLine (h : c.Placed source tabWidth isWide) {x : Char} {xs : List Char}
    (hc : c.rest = x :: xs) (hx : isLineBreak x = true) :
    (c.breakLine (lineBreakLength c.rest)).Placed source tabWidth isWide := by
  have hpos := lineBreakLength_pos c.rest
  have hle : lineBreakLength c.rest ≤ c.rest.length := lineBreakLength_le (by simp [hc])
  have hlines : ∀ m, lineBreaks (source.take (c.offset + (lineBreakLength c.rest + m))) =
      lineBreaks (source.take c.offset) +
        (lineBreaks ((c.rest.drop (lineBreakLength c.rest)).take m) + 1) := by
    intro m
    rw [h.whole, hc, lineBreaks_take hx]
  have hfront : lineBreaks (source.take (c.offset + lineBreakLength c.rest)) =
      lineBreaks (source.take c.offset) + 1 := by
    have hlines := hlines 0
    rwa [Nat.add_zero, List.take_zero] at hlines
  constructor
  · exact h.stands.breakLine hle
  · change c.line + 1 = 1 + lineBreaks (source.take (c.offset + lineBreakLength c.rest))
    rw [hfront, h.line, Nat.add_assoc]
  · obtain ⟨y, hy, hbreak⟩ := lineBreak_last xs hx
    rw [← hc, ← h.stands.getElem?] at hy
    have hstart : columnAt source tabWidth isWide _ = 1 := columnAt_break hy hbreak
    rw [Nat.add_assoc, Nat.sub_add_cancel hpos] at hstart
    exact hstart.symm
  · intro m
    change lineBreaks (source.take (c.offset + lineBreakLength c.rest + m)) =
      lineBreaks (source.take (c.offset + lineBreakLength c.rest)) + _
    rw [Nat.add_assoc, hlines, hfront]
    rw [Nat.add_assoc, Nat.add_comm 1]
    rfl

theorem Placed.breakLine_of {n : Nat} (h : c.Placed source tabWidth isWide) {x : Char}
    {xs : List Char} (hc : c.rest = x :: xs) (hx : isLineBreak x = true)
    (hn : lineBreakLength (x :: xs) = n) : (c.breakLine n).Placed source tabWidth isWide := by
  have hbreak := h.breakLine hc hx
  rwa [hc, hn] at hbreak

/-- A move over a text with its line breaks, behind which the line goes on. -/
theorem Placed.across {body behind : List Char} (h : c.Placed source tabWidth isWide)
    (hc : c.rest = body ++ behind) (hbehind : ∀ x ∈ behind.head?, isLineBreak x = false)
    (hnarrow : ∀ i, c.offset ≤ i → i < (c.across body).offset → isWide i = false) :
    (c.across body).Placed source tabWidth isWide := by
  -- A line break at the end of the text makes no pair with what is behind it.
  have hsingle : ∀ y, isLineBreak y = true → ∀ cs, (∀ ds, cs = y :: ds → False) →
      (cs ++ behind).head? ≠ some y := by
    intro y hy cs hcs hhead
    cases cs with
    | nil =>
      have := hbehind y hhead
      simp [hy] at this
    | cons z cs =>
      cases hhead
      exact hcs cs rfl
  have hlater : ∀ {o n p : Nat}, (∀ i, o ≤ i → i < p → isWide i = false) →
      ∀ i, o + n ≤ i → i < p → isWide i = false :=
    fun hnarrow i hle hlt => hnarrow i (by omega) hlt
  fun_induction c.across body with
  | case1 c cs ih =>
    exact ih (h.breakLine_of hc rfl rfl) (by simp [hc]) (hlater hnarrow)
  | case2 c cs ih =>
    exact ih (h.breakLine_of hc rfl rfl) (by simp [hc]) (hlater hnarrow)
  | case3 c cs hne ih =>
    have hlength := lineBreakLength_newline (hsingle '\r' rfl cs hne)
    exact ih (h.breakLine_of hc rfl hlength) (by simp [hc]) (hlater hnarrow)
  | case4 c cs hne ih =>
    have hlength := lineBreakLength_return (hsingle '\n' rfl cs hne)
    exact ih (h.breakLine_of hc rfl hlength) (by simp [hc]) (hlater hnarrow)
  | case5 c x cs _ _ hnewline hreturn ih =>
    have hx : isLineBreak x = false := by
      simpa [isLineBreak] using ⟨hnewline, hreturn⟩
    have hend : c.offset + 1 ≤ ((c.advance 1).across cs).offset := by
      rw [across_offset]
      exact Nat.le_add_right _ _
    refine ih (h.advance (by simp [hc]) (by simp [hc, hx]) ?_) (by simp [hc]) (hlater hnarrow)
    exact fun i hle hlt => hnarrow i hle (by omega)
  | case6 c => exact h

/-- Blanks take a column each, and their tabs the rest of their width. -/
theorem blanksWidth_eq {text : List Char} {o : Nat}
    (hwide : ∀ k < text.length, isWide (o + k) = (text[k]? == some '\t')) :
    blanksWidth tabWidth text =
      text.length + (max tabWidth 1 - 1) * (List.range' o text.length).countP isWide := by
  induction text generalizing o with
  | nil => rfl
  | cons x text ih =>
    have hfirst : isWide o = (x == '\t') := by simpa using hwide 0 (by simp)
    have hothers := ih (o := o + 1) fun k hk => by
      have := hwide (k + 1) (by simpa using hk)
      rwa [Nat.add_comm k 1, ← Nat.add_assoc, Nat.add_comm 1 k, List.getElem?_cons_succ] at this
    have hwidth : blanksWidth tabWidth (x :: text) =
        blankWidth tabWidth x + blanksWidth tabWidth text := rfl
    rw [hwidth, hothers, List.length_cons, List.range'_succ, List.countP_cons, hfirst, blankWidth]
    have hpos : 1 ≤ max tabWidth 1 := Nat.le_max_right _ _
    cases x == '\t' with
    | false =>
      simp only [Bool.false_eq_true, if_false, Nat.add_zero]
      omega
    | true =>
      simp only [if_true, Nat.mul_add, Nat.mul_one]
      omega

/-- A move over blanks. Their tabs are wide. -/
theorem Placed.skipBlanks (h : c.Placed source tabWidth isWide)
    (hwide : ∀ i, c.offset ≤ i → i < (c.skipBlanks tabWidth).offset →
      isWide i = (source[i]? == some '\t')) :
    (c.skipBlanks tabWidth).Placed source tabWidth isWide := by
  have hline : ∀ x ∈ c.rest.takeWhile isBlank, isLineBreak x = false := by
    intro x hx
    have hblank : isBlank x = true := List.all_eq_true.1 List.all_takeWhile x hx
    cases hbreak : isLineBreak x with
    | false => rfl
    | true =>
      rw [isBlank_lineBreak hbreak] at hblank
      cases hblank
  have hsplit : c.rest =
      c.rest.takeWhile isBlank ++ c.rest.drop (c.rest.takeWhile isBlank).length := by
    rw [drop_length_takeWhile]
    exact List.takeWhile_append_dropWhile.symm
  refine h.inLine hsplit hline (blanksWidth_eq ?_)
  intro k hk
  have hahead : c.rest[k]? = (c.rest.takeWhile isBlank)[k]? := by
    conv_lhs => rw [hsplit, List.getElem?_append_left hk]
  rw [hwide _ (Nat.le_add_right _ _) (Nat.add_lt_add_left hk _), h.stands.getElem?, hahead]

/-- A move to the end of the line. -/
theorem Placed.skipLine (h : c.Placed source tabWidth isWide)
    (hnarrow : ∀ i, c.offset ≤ i → i < c.skipLine.offset → isWide i = false) :
    c.skipLine.Placed source tabWidth isWide := by
  refine h.advance length_takeWhile_le ?_ hnarrow
  intro x hx
  rw [← List.prefix_iff_eq_take.1 (List.takeWhile_prefix _)] at hx
  simpa using List.all_eq_true.1 List.all_takeWhile x hx

end Moves

/-- A length that no line break in the text behind can change does not reach beyond the line. -/
theorem inLine_of_stop {length : List Char → Nat}
    (hstop : ∀ {p q : List Char} {x : Char}, isLineBreak x = true →
      length (p ++ x :: q) = length p)
    (hle : ∀ {p : List Char}, length p ≤ p.length) (cs : List Char) :
    ∀ x ∈ cs.take (length cs), isLineBreak x = false := by
  intro x hx
  cases hbreak : isLineBreak x with
  | false => rfl
  | true =>
    obtain ⟨front, behind, htake⟩ := List.append_of_mem hx
    have hcs : cs = front ++ x :: (behind ++ cs.drop (length cs)) := by
      rw [← List.cons_append, ← List.append_assoc, ← htake, List.take_append_drop]
    have hreach : length cs ≤ front.length := by
      rw [hcs, hstop hbreak]
      exact hle
    have hsize := congrArg List.length htake
    simp only [List.length_take, List.length_append, List.length_cons] at hsize
    omega

/-- What a cursor passes over when it reads a token: nothing at the end of the source; a line break;
characters of the same line; or the text of a string literal between its quotes, which may break
lines. -/
inductive Passes (c : Cursor) (t : Token) : Cursor → Prop where
  | atEnd (hc : c.rest = []) (hk : t.kind ≠ .string)
      (hspan : t.span = .between c.offset c.offset) : Passes c t c
  | lineBreak {x : Char} {xs : List Char} (hc : c.rest = x :: xs) (hx : isLineBreak x = true)
      (hk : t.kind ≠ .string)
      (hspan : t.span = .between c.offset (c.offset + (lineBreakLength c.rest - 1))) :
      Passes c t (c.breakLine (lineBreakLength c.rest))
  | inLine {n : Nat} {x : Char} {xs : List Char} (hc : c.rest = x :: xs)
      (hx : isLineBreak x = false) (hn : n ≤ c.rest.length)
      (hline : ∀ x ∈ c.rest.take n, isLineBreak x = false)
      (hk : t.kind ≠ .string) (hspan : t.span = .between c.offset (c.offset + n)) :
      Passes c t (c.advance n)
  | string {body behind : List Char} (hc : c.rest = '"' :: (body ++ '"' :: behind))
      (hspan : t.span = .between c.offset (((c.advance 1).across body).advance 1).offset)
      (hstop : t.stop = (((c.advance 1).across body).advance 1).position) :
      Passes c t (((c.advance 1).across body).advance 1)

theorem stringToken_passes {c c' : Cursor} {xs : List Char} {t : Token} (hc : c.rest = '"' :: xs)
    (h : c.stringToken = (.ok t, c')) : t.start = c.position ∧ Passes c t c' := by
  have hbody : c.rest.drop 1 = xs := by rw [hc]; rfl
  unfold stringToken at h
  dsimp only at h
  rw [hbody] at h
  split at h
  · cases h
  next hrest =>
    cases h
    refine ⟨rfl, ?_⟩
    rcases quotedBody_append xs with hxs | ⟨behind, hxs⟩
    · have hnil : xs.drop (quotedBody xs).length = [] := by
        rw [← hxs]
        exact List.drop_length
      rw [across_rest, advance_rest, hbody, hnil] at hrest
      cases hrest
    · exact .string (by rw [hc, ← hxs]) rfl rfl

/-- Every token begins where the cursor stands that reads it. -/
theorem readToken_passes {c c' : Cursor} {t : Token} (h : c.readToken = (.ok t, c')) :
    t.start = c.position ∧ Passes c t c' := by
  obtain ⟨hc, rfl, rfl⟩ | ⟨l, hl, h⟩ := readToken_ok h
  · exact ⟨rfl, .atEnd hc (by simp [tokenTo]) rfl⟩
  have hbegins := begins_of_lexeme? hl
  generalize hc : c.rest = cs at hbegins
  cases hbegins with
  | lineBreak hx =>
    cases h
    exact ⟨rfl, .lineBreak hc hx (by simp [Cursor.lineBreak, tokenTo]) rfl⟩
  | word hbreak =>
    have hkind := (wordKind_word (String.ofList (word c.rest))
      (c.peekText (wordLength c.rest))).1
    cases h
    refine ⟨rfl, .inLine hc hbreak wordLength_le (inLine_of_stop ?_ wordLength_le _) hkind rfl⟩
    exact fun hbreak => wordLength_stop (.of_lineBreak hbreak) (.inl (isBlank_lineBreak hbreak))
  | string => exact stringToken_passes hc h
  | number hbreak =>
    cases h
    exact ⟨rfl, .inLine hc hbreak numberLength_le
      (inLine_of_stop (fun hbreak => numberLength_stop (.of_lineBreak hbreak)) numberLength_le _)
      (by simp [plainToken, tokenTo]) rfl⟩
  | semicolon =>
    cases h
    exact ⟨rfl, .inLine hc rfl (by simp [hc]) (by simp [hc, isLineBreak])
      (by simp [plainToken, tokenTo]) rfl⟩
  | @punctuator _ _ p hbreak hp =>
    cases h
    rw [← hc] at hp
    refine ⟨rfl, .inLine hc hbreak (Punctuator.width_le hp) ?_ (by simp [plainToken, tokenTo]) rfl⟩
    rw [Punctuator.take_width hp]
    exact Punctuator.isLineBreak_text p

/-- What a cursor passes over when it finds no token: a string literal that is not closed reaches up
to the end of the source, and a character that begins no token stays ahead. -/
inductive Fails (c : Cursor) (e : LexError) : Cursor → Prop where
  | unclosed {body : List Char} (hc : c.rest = '"' :: body)
      (hspan : e.span = .between c.offset ((c.advance 1).across body).offset) :
      Fails c e ((c.advance 1).across body)
  | invalid {x : Char} {xs : List Char} (hc : c.rest = x :: xs) (hx : isLineBreak x = false)
      (hspan : e.span = .between c.offset (c.offset + 1)) : Fails c e c

theorem readToken_fails {c c' : Cursor} {e : LexError} (h : c.readToken = (.error e, c')) :
    Fails c e c' := by
  obtain ⟨hl, h⟩ | ⟨x, xs, hc, hx, rfl, rfl⟩ := readToken_error h
  · have hbegins := begins_of_lexeme? hl
    obtain ⟨xs, hc⟩ := hbegins.exists_string
    have hbody : c.rest.drop 1 = xs := by rw [hc]; rfl
    unfold stringToken at h
    dsimp only at h
    rw [hbody] at h
    split at h
    next hrest =>
      cases h
      rcases quotedBody_append xs with hxs | ⟨behind, hxs⟩
      · exact .unclosed (by rw [hc, ← hxs]) rfl
      · rw [across_rest, advance_rest, hbody] at hrest
        have := congrArg List.length hrest
        rw [List.length_drop] at this
        have := congrArg List.length hxs
        simp only [List.length_append, List.length_cons, List.length_nil] at *
        omega
    · cases h
  · exact .invalid hc hx rfl

namespace Passes

variable {c c' : Cursor} {t : Token}

theorem offset_le_string (c : Cursor) (body : List Char) :
    c.offset ≤ (((c.advance 1).across body).advance 1).offset := by
  simp only [Cursor.advance, across_offset]
  omega

/-- A token reaches from where the cursor stands into what it passes over. -/
theorem reach (h : Passes c t c') :
    ∃ stop, t.span = .between c.offset stop ∧ c.offset ≤ stop ∧ stop ≤ c'.offset := by
  cases h with
  | atEnd _ _ hspan => exact ⟨_, hspan, Nat.le_refl _, Nat.le_refl _⟩
  | lineBreak _ _ _ hspan =>
    exact ⟨_, hspan, Nat.le_add_right _ _, Nat.add_le_add_left (Nat.sub_le _ _) _⟩
  | inLine _ _ _ _ _ hspan => exact ⟨_, hspan, Nat.le_add_right _ _, Nat.le_refl _⟩
  | @string body _ _ hspan => exact ⟨_, hspan, offset_le_string c body, Nat.le_refl _⟩

/-- As far as offsets are told apart, the span of a token begins where the cursor stands and ends in
what it passes over. -/
theorem span (h : Passes c t c') (hfits : c'.offset ≤ Span.lastOffset) :
    t.span.start = c.offset ∧ c.offset ≤ t.span.stop ∧ t.span.stop ≤ c'.offset := by
  obtain ⟨stop, hspan, hstart, hstop⟩ := h.reach
  rw [hspan, Span.between_eq hstart (Nat.le_trans hstop hfits)]
  exact ⟨rfl, hstart, hstop⟩

theorem stands {source : List Char} (h : Passes c t c') (hc : c.Stands source) :
    c'.Stands source := by
  cases h with
  | atEnd => exact hc
  | lineBreak hrest =>
    exact hc.breakLine (lineBreakLength_le (by simp [hrest]))
  | inLine _ _ hn => exact hc.advance hn
  | @string body behind hrest =>
    have hsplit : c.rest = ('"' :: body ++ ['"']) ++ behind := by simp [hrest]
    refine hc.move hsplit (by simp [hrest]) ?_
    simp only [Cursor.advance, across_offset, List.length_append, List.length_cons, List.length_nil]
    omega

/-- A string literal ends where the cursor stands behind it. -/
theorem string_stop (h : Passes c t c') (hfits : c'.offset ≤ Span.lastOffset)
    (hk : t.kind = .string) : t.stop = c'.position ∧ t.span.stop = c'.offset := by
  cases h with
  | atEnd _ hne => exact absurd hk hne
  | lineBreak _ _ hne => exact absurd hk hne
  | inLine _ _ _ _ hne => exact absurd hk hne
  | @string body _ _ hspan hstop =>
    rw [hspan, Span.between_eq (offset_le_string c body) hfits]
    exact ⟨hstop, rfl⟩

/-- Reading a token counts lines and columns along. No tab in a token is wide. -/
theorem placed {source : List Char} {tabWidth : Nat} {isWide : Nat → Bool} (h : Passes c t c')
    (hfits : c'.offset ≤ Span.lastOffset) (hc : c.Placed source tabWidth isWide)
    (hnarrow : ∀ i, t.span.start ≤ i → i < t.span.stop → isWide i = false) :
    c'.Placed source tabWidth isWide := by
  cases h with
  | atEnd => exact hc
  | lineBreak hrest hx => exact hc.breakLine hrest hx
  | inLine _ _ hn hline _ hspan =>
    rw [hspan, Span.between_eq (Nat.le_add_right _ _) hfits] at hnarrow
    exact hc.advance hn hline hnarrow
  | @string body behind hrest hspan =>
    have hinner : ((c.advance 1).across body).offset = c.offset + 1 + body.length :=
      across_offset _ _
    have hnarrow : ∀ i, c.offset ≤ i → i < c.offset + 1 + body.length + 1 → isWide i = false := by
      rw [hspan, Span.between_eq (offset_le_string c body) hfits] at hnarrow
      rw [← hinner]
      exact hnarrow
    have hopened := hc.quote hrest (hnarrow _ (Nat.le_refl _) (by omega))
    have hread := hopened.across (by rw [advance_rest, hrest]; rfl) (by simp [isLineBreak])
      fun i hle hlt => hnarrow i (Nat.le_of_succ_le hle) (by omega)
    have hquote : ((c.advance 1).across body).rest = '"' :: behind := by simp [hrest]
    exact hread.quote hquote (hnarrow _ (by omega) (by omega))

/-- At the end of a line a line break is read, or the end of the source. -/
theorem ends_line {source : List Char} (h : Passes c t c') (hstands : c.Stands source)
    (hc : ∀ x ∈ c.rest.head?, isLineBreak x = true) :
    c'.offset = source.length ∨ lineStart source c'.offset = c'.offset := by
  cases h with
  | atEnd hrest => exact .inl (hstands.atEnd hrest)
  | lineBreak hrest hx =>
    obtain ⟨y, hy, hbreak⟩ := lineBreak_last _ hx
    have hpos := lineBreakLength_pos c.rest
    rw [← hrest, ← hstands.getElem?] at hy
    right
    change lineStart source (c.offset + lineBreakLength c.rest) = c.offset + lineBreakLength c.rest
    have hlast : c.offset + lineBreakLength c.rest =
        c.offset + (lineBreakLength c.rest - 1) + 1 := by omega
    rw [hlast, lineStart, hy, Option.any_some, hbreak]
    rfl
  | @inLine _ x _ hrest hx =>
    have := hc x (by simp [hrest])
    simp [hx] at this
  | string hrest =>
    have := hc '"' (by simp [hrest])
    simp [isLineBreak] at this

end Passes

theorem skipLine_stop (c : Cursor) : ∀ x ∈ c.skipLine.rest.head?, isLineBreak x = true := by
  have hrest : c.skipLine.rest = c.rest.dropWhile fun x => !isLineBreak x :=
    drop_length_takeWhile _ c.rest
  intro x hx
  have hhead := List.head?_dropWhile_not (fun x => !isLineBreak x) c.rest
  rw [← hrest, hx] at hhead
  simpa using hhead

/-- There is no line break in front of the end of the line. -/
theorem Stands.skipLine_inLine {source : List Char} {c : Cursor} (h : c.Stands source) {i : Nat}
    (hle : c.offset ≤ i) (hlt : i < c.skipLine.offset) : lineStart source (i + 1) ≤ c.offset := by
  obtain ⟨k, rfl⟩ := Nat.exists_eq_add_of_le hle
  have hsize : k < (c.rest.takeWhile fun x => !isLineBreak x).length :=
    Nat.lt_of_add_lt_add_left hlt
  have hline : ∀ j < k + 1, source[c.offset + j]?.any isLineBreak = false := by
    intro j hj
    obtain ⟨x, hx, hline⟩ := exists_of_lt_takeWhile (Nat.lt_of_lt_of_le hj hsize)
    rw [h.getElem?, hx]
    simpa using hline
  rw [Nat.add_assoc, lineStart_add hline]
  exact lineStart_le _ _

theorem skipLine_nil {c : Cursor} (hc : c.rest = []) : c.skipLine = c := by
  obtain ⟨rest, offset, line, column⟩ := c
  subst hc
  rfl

namespace Fails

variable {c c' : Cursor} {e : LexError}

/-- An error reaches from where the cursor stands into what is passed over with its line. -/
theorem reach (h : Fails c e c') : ∃ stop, e.span = .between c.offset stop ∧ c.offset < stop ∧
    stop ≤ c'.skipLine.offset := by
  cases h with
  | @unclosed body hrest hspan =>
    rw [skipLine_nil (by simp [hrest])]
    refine ⟨_, hspan, ?_, Nat.le_refl _⟩
    rw [across_offset]
    exact Nat.le_add_right (c.offset + 1) _
  | invalid hrest hx hspan =>
    refine ⟨_, hspan, Nat.lt_succ_self _, Nat.add_le_add_left ?_ _⟩
    simp [hrest, hx]

/-- As far as offsets are told apart, the span of an error begins where the cursor stands and is
passed over with its line. -/
theorem span (h : Fails c e c') (hfits : c'.skipLine.offset ≤ Span.lastOffset) :
    e.span.start = c.offset ∧ c.offset < e.span.stop ∧ e.span.stop ≤ c'.skipLine.offset := by
  obtain ⟨stop, hspan, hstart, hstop⟩ := h.reach
  rw [hspan, Span.between_eq (Nat.le_of_lt hstart) (Nat.le_trans hstop hfits)]
  exact ⟨rfl, hstart, hstop⟩

theorem stands {source : List Char} (h : Fails c e c') (hc : c.Stands source) :
    c'.Stands source := by
  cases h with
  | @unclosed body hrest =>
    have hsplit : c.rest = ('"' :: body) ++ [] := by simp [hrest]
    refine hc.move hsplit (by simp [hrest]) ?_
    simp only [Cursor.advance, across_offset, List.length_cons]
    omega
  | invalid => exact hc

/-- What is passed over is in the span of the error or on the line that it begins on. -/
theorem tail {source : List Char} (h : Fails c e c') (hfits : c'.skipLine.offset ≤ Span.lastOffset)
    (hstands : c.Stands source) {i : Nat} (hle : c.offset ≤ i) (hlt : i < c'.skipLine.offset) :
    i < e.span.stop ∨ lineStart source (i + 1) ≤ e.span.start := by
  have hstart := (h.span hfits).1
  cases h with
  | @unclosed body hrest hspan =>
    rw [skipLine_nil (by simp [hrest])] at hlt hfits
    left
    rw [hspan, Span.between, Nat.min_eq_left hfits]
    exact hlt
  | invalid =>
    right
    rw [hstart]
    exact hstands.skipLine_inLine hle hlt

/-- Passing over an error counts lines and columns along. No tab in it is wide. -/
theorem placed {source : List Char} {tabWidth : Nat} {isWide : Nat → Bool} (h : Fails c e c')
    (hc : c.Placed source tabWidth isWide)
    (hnarrow : ∀ i, c.offset ≤ i → i < c'.skipLine.offset → isWide i = false) :
    c'.skipLine.Placed source tabWidth isWide := by
  cases h with
  | @unclosed body hrest hspan =>
    rw [skipLine_nil (by simp [hrest])] at hnarrow ⊢
    have hinner : ((c.advance 1).across body).offset = c.offset + 1 + body.length :=
      across_offset _ _
    have hopened := hc.quote hrest (hnarrow _ (Nat.le_refl _) (by omega))
    have hbody : (c.advance 1).rest = body ++ [] := by simp [hrest]
    exact hopened.across hbody (by simp) fun i hle hlt => hnarrow i (Nat.le_of_succ_le hle) hlt
  | invalid => exact hc.skipLine hnarrow

end Fails

end Cursor

end LineScript
