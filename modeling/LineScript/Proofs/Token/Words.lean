import LineScript.Proofs.Token.Splice
import Mathlib.Data.List.TakeWhile

/-!
# Scanning single words and marks

What one step of scanning gives at a word, a punctuator, a line break and the end of the source,
whatever stands behind.
-/

namespace LineScript

namespace Scan

/-- Whether characters make a single word, which is no part of a merged one. -/
def isSingleWord : List Char → Bool
  | x :: xs => isIdentifierStart x && xs.all isIdentifierPart && x :: xs != ['e', 'n', 'd'] &&
      x :: xs != ['e', 'l', 's', 'e']
  | [] => false

/-- Whether a text is a name: a word that is not reserved and no literal. -/
def isName (s : String) : Bool :=
  isSingleWord s.toList && !Keyword.isReserved s && s != "true" && s != "false" && s != "null"

/-- No further character of a word is in front. -/
def EndsWord (tail : List Char) : Prop := ∀ x ∈ tail.head?, isIdentifierPart x = false

theorem isSingleWord_eq {w : List Char} (h : isSingleWord w = true) : ∃ x xs, w = x :: xs ∧
    isIdentifierStart x = true ∧ (∀ y ∈ x :: xs, isIdentifierPart y = true) ∧
    x :: xs ≠ ['e', 'n', 'd'] ∧ x :: xs ≠ ['e', 'l', 's', 'e'] := by
  cases w with
  | nil => cases h
  | cons x xs =>
    simp only [isSingleWord, Bool.and_eq_true, List.all_eq_true, bne_iff_ne] at h
    obtain ⟨⟨⟨hx, hxs⟩, hend⟩, helse⟩ := h
    refine ⟨x, xs, rfl, hx, ?_, hend, helse⟩
    intro y hy
    obtain rfl | hy := List.mem_cons.1 hy
    · simp [isIdentifierPart, hx]
    · exact hxs y hy

theorem word_append {w tail : List Char} (hw : isSingleWord w = true) (ht : EndsWord tail) :
    word (w ++ tail) = w := by
  obtain ⟨x, xs, rfl, _, hall, _⟩ := isSingleWord_eq hw
  have htail : tail.takeWhile isIdentifierPart = [] := by
    cases tail with
    | nil => rfl
    | cons y tail => rw [List.takeWhile_cons, ht y rfl]; rfl
  rw [word, List.takeWhile_append_of_pos hall, htail, List.append_nil]

/-- A single word takes its own characters. -/
theorem wordLength_append {w tail : List Char} (hw : isSingleWord w = true)
    (ht : EndsWord tail) : wordLength (w ++ tail) = w.length := by
  unfold wordLength
  rw [word_append hw ht]
  obtain ⟨x, xs, rfl, _, _, hend, helse⟩ := isSingleWord_eq hw
  have hend : (x :: xs == ['e', 'n', 'd']) = false := beq_eq_false_iff_ne.2 hend
  have helse : (x :: xs == ['e', 'l', 's', 'e']) = false := beq_eq_false_iff_ne.2 helse
  simp only [hend, helse, Bool.false_and, Bool.false_eq_true, if_false]

theorem wordKind_of_isName {s : String} (h : isName s = true) : wordKind s s = .identifier := by
  simp only [isName, Bool.and_eq_true, Bool.not_eq_true', bne_iff_ne] at h
  obtain ⟨⟨⟨⟨_, hr⟩, h₁⟩, h₂⟩, h₃⟩ := h
  simp [wordKind, hr, plainWordKind, h₁, h₂, h₃]

theorem isSingleWord_of_isName {s : String} (h : isName s = true) :
    isSingleWord s.toList = true := by
  simp only [isName, Bool.and_eq_true] at h
  exact h.1.1.1.1

end Scan

namespace Cursor

open Scan

variable (tabWidth : Nat) {c : Cursor} {tail : List Char}

/-- One step of scanning behind blanks. -/
theorem scan_behind_blanks {blanks : List Char} {x : Char} (hc : c.rest = blanks ++ x :: tail)
    (hblanks : ∀ y ∈ blanks, isBlank y = true) (hx : isBlank x = false)
    (hslash : x = '/' → tail.head? ≠ some '/') :
    ∃ d : Cursor, c.scan tabWidth = d.readToken ∧ d.rest = x :: tail ∧ d.line = c.line := by
  have htake : c.rest.takeWhile isBlank = blanks := by
    rw [hc, List.takeWhile_append_of_pos hblanks, List.takeWhile_cons, hx]
    simp
  have hrest : (c.skipBlanks tabWidth).rest = x :: tail := by
    change c.rest.drop (c.rest.takeWhile isBlank).length = _
    rw [htake, hc, List.drop_left]
  have hcomment : (c.skipBlanks tabWidth).skipComment = c.skipBlanks tabWidth := by
    unfold skipComment
    rw [hrest]
    split
    next h =>
      cases h
      exact absurd rfl (hslash rfl)
    · rfl
  exact ⟨c.skipBlanks tabWidth, by rw [scan, hcomment], hrest, rfl⟩

/-- A word is scanned to one token. -/
theorem scan_word {blanks w : List Char} (hc : c.rest = blanks ++ (w ++ tail))
    (hblanks : ∀ y ∈ blanks, isBlank y = true) {x : Char} {xs : List Char} (hw : w = x :: xs)
    (hx : isIdentifierStart x = true) (hlen : wordLength (w ++ tail) = w.length) :
    ∃ t d, c.scan tabWidth = (.ok t, d) ∧
      t.kind = wordKind (String.ofList (word (w ++ tail))) (String.ofList w) ∧
      t.value = String.ofList w ∧ d.rest = tail ∧ d.line = c.line := by
  have hbreak : isLineBreak x = false := by
    by_contra h
    have := isIdentifierPart_lineBreak (by simpa using h)
    simp [isIdentifierPart, hx] at this
  have hblank : isBlank x = false := by
    by_contra h
    simp only [isBlank, Bool.not_eq_false, Bool.or_eq_true, beq_iff_eq] at h
    obtain rfl | rfl := h <;> exact absurd hx (by decide)
  have hslash : x ≠ '/' := by
    rintro rfl
    exact absurd hx (by decide)
  subst hw
  obtain ⟨d, hscan, hd, hline⟩ := scan_behind_blanks tabWidth
    (show c.rest = blanks ++ x :: (xs ++ tail) from hc) hblanks hblank fun h => absurd h hslash
  have hread : d.readToken = (.ok d.wordToken.1, d.wordToken.2) := by
    simp only [readToken, hd, hbreak, hx, Bool.false_eq_true, if_false, if_true]
  have htake : (x :: (xs ++ tail)).take (x :: xs).length = x :: xs := by
    rw [← List.cons_append, List.take_left]
  have hdrop : (x :: (xs ++ tail)).drop (x :: xs).length = tail := by
    rw [← List.cons_append, List.drop_left]
  rw [List.cons_append] at hlen
  refine ⟨_, _, hscan.trans hread, ?_, ?_, ?_, hline⟩
  · simp only [wordToken, plainToken, tokenTo, peekText, hd, hlen, htake, List.cons_append]
  · simp only [wordToken, plainToken, tokenTo, peekText, hd, hlen, htake]
  · simp only [wordToken, plainToken, advance_rest, hd, hlen, hdrop]

/-- A single word is scanned to one token. -/
theorem scan_singleWord {blanks : List Char} {s : String} (hs : isSingleWord s.toList = true)
    (hc : c.rest = blanks ++ (s.toList ++ tail)) (hblanks : ∀ y ∈ blanks, isBlank y = true)
    (ht : EndsWord tail) :
    ∃ t d, c.scan tabWidth = (.ok t, d) ∧ t.kind = wordKind s s ∧ t.value = s ∧ d.rest = tail ∧
      d.line = c.line := by
  obtain ⟨x, xs, hx, hstart, _⟩ := isSingleWord_eq hs
  obtain ⟨t, d, hscan, hkind, hvalue, hrest⟩ := scan_word tabWidth hc hblanks hx
    hstart (wordLength_append hs ht)
  rw [word_append hs ht, String.ofList_toList] at hkind
  rw [String.ofList_toList] at hvalue
  exact ⟨t, d, hscan, hkind, hvalue, hrest⟩

/-- A word that closes a block is scanned to one token at the end of the source. -/
theorem scan_closing {k : Keyword}
    (hk : k = .endIf ∨ k = .endFor ∨ k = .endWhile ∨ k = .endFunction)
    (hc : c.rest = k.text.toList) :
    ∃ t d, c.scan tabWidth = (.ok t, d) ∧ t.kind = .keyword k ∧ t.value = k.text ∧ d.rest = [] := by
  have hlen : wordLength k.text.toList = k.text.toList.length := by
    obtain rfl | rfl | rfl | rfl := hk <;> decide
  have hkind : wordKind (String.ofList (word k.text.toList)) k.text = .keyword k := by
    obtain rfl | rfl | rfl | rfl := hk <;> decide
  obtain ⟨x, xs, hx, hstart⟩ : ∃ x xs, k.text.toList = x :: xs ∧ isIdentifierStart x = true := by
    obtain rfl | rfl | rfl | rfl := hk <;> exact ⟨_, _, rfl, by decide⟩
  obtain ⟨t, d, hscan, ht, hvalue, hrest, -⟩ := scan_word tabWidth
    (show c.rest = [] ++ (k.text.toList ++ []) by simpa using hc) (by simp) hx hstart
    (by simpa using hlen)
  rw [List.append_nil, String.ofList_toList, hkind] at ht
  rw [String.ofList_toList] at hvalue
  exact ⟨t, d, hscan, ht, hvalue, hrest⟩

/-- A punctuator that is not the point is scanned to one token, unless it begins a comment. -/
theorem scan_punctuator {blanks : List Char} {q : Punctuator}
    (hc : c.rest = blanks ++ (q.text.toList ++ tail)) (hblanks : ∀ y ∈ blanks, isBlank y = true)
    (hq : Punctuator.ofChars? (q.text.toList ++ tail) = some q) (hdot : q ≠ .dot)
    (hslash : q = .slash → tail.head? ≠ some '/') :
    ∃ t d, c.scan tabWidth = (.ok t, d) ∧ t.kind = .punctuator q ∧ t.value = q.text ∧
      t.line = c.line ∧ d.rest = tail ∧ d.line = c.line := by
  obtain ⟨x, xs, htext, hplain⟩ : ∃ x xs, q.text.toList = x :: xs ∧
      (isBlank x = false ∧ isLineBreak x = false ∧ isIdentifierStart x = false ∧ x ≠ '"' ∧
        isDigit x = false ∧ x ≠ ';' ∧ x ≠ '.') := by
    cases q <;> first | exact absurd rfl hdot | exact ⟨_, _, rfl, by decide⟩
  obtain ⟨hblank, hbreak, hstart, hquote, hdigit, hsemicolon, hpoint⟩ := hplain
  have hcomment : x = '/' → (xs ++ tail).head? ≠ some '/' := by
    rintro rfl
    by_cases hq' : q = .slash
    · obtain rfl : xs = [] := by
        subst hq'
        exact (List.cons.inj htext).2.symm
      exact hslash hq'
    · obtain rfl : xs = ['='] := by
        cases q <;> first
          | exact (List.cons.inj htext).2.symm
          | exact absurd rfl hq'
          | exact absurd (List.cons.inj htext).1 (by decide)
      simp
  have hrest : q.text.toList ++ tail = x :: (xs ++ tail) := by rw [htext, List.cons_append]
  obtain ⟨d, hscan, hd, hline⟩ := scan_behind_blanks tabWidth (hc.trans (by rw [hrest])) hblanks
    hblank hcomment
  rw [hrest] at hq
  have hread : d.readToken = (.ok (d.plainToken q.width (.punctuator q)).1, d.advance q.width) := by
    simp only [readToken, hd, hbreak, hstart, hdigit, hq, beq_eq_false_iff_ne.2 hquote,
      beq_eq_false_iff_ne.2 hsemicolon, beq_eq_false_iff_ne.2 hpoint, Bool.false_and, Bool.or_false,
      Bool.false_eq_true, if_false]
    rfl
  have hwidth : q.width = q.text.toList.length := String.length_toList.symm
  refine ⟨_, _, hscan.trans hread, rfl, ?_, hline, ?_, hline⟩
  · simp only [plainToken, tokenTo, peekText, hd, ← hrest, hwidth, List.take_left,
      String.ofList_toList]
  · simp only [advance_rest, hd, ← hrest, hwidth, List.drop_left]

/-- A line break is scanned to one token. -/
theorem scan_lineBreak (hc : c.rest = '\n' :: tail) (ht : tail.head? ≠ some '\r') :
    ∃ t o, c.scan tabWidth = (.ok t, ⟨tail, o, c.line + 1, 1⟩) ∧ t.kind = .endOfLine := by
  obtain ⟨d, hscan, hd, hline⟩ := scan_behind_blanks tabWidth
    (show c.rest = [] ++ '\n' :: tail from hc) (by simp) rfl (fun h => absurd h (by decide))
  have hlen : lineBreakLength ('\n' :: tail) = 1 := by
    cases tail with
    | nil => rfl
    | cons y tail =>
      have hy : y ≠ '\r' := by simpa using ht
      simp [lineBreakLength, hy]
  have hread : d.readToken = (.ok d.lineBreak.1, d.lineBreak.2) := by
    simp only [readToken, hd, show isLineBreak '\n' = true from rfl, if_true]
  refine ⟨d.lineBreak.1, d.offset + 1, ?_, rfl⟩
  rw [hscan, hread]
  simp [lineBreak, breakLine, hd, hlen, hline]

/-- Behind the last token is the end of the source. -/
theorem scan_end (hc : ∀ y ∈ c.rest, isBlank y = true) :
    ∃ t d, c.scan tabWidth = (.ok t, d) ∧ t.kind = .endOfFile := by
  have hblanks : (c.skipBlanks tabWidth).rest = [] := by
    change c.rest.drop (c.rest.takeWhile isBlank).length = []
    rw [drop_length_takeWhile, List.dropWhile_eq_nil_iff]
    exact hc
  have hrest : (c.skipBlanks tabWidth).skipComment.rest = [] := by
    simp [skipComment, hblanks]
  simp only [scan, readToken, hrest]
  exact ⟨_, _, rfl, rfl⟩

end Cursor

end LineScript
