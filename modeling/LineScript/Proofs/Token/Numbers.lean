import LineScript.Proofs.Token.Locality

/-!
# Numbers in a source text

A number is written with digits in front of a point, behind it, or both, and then perhaps an
exponent. A character goes on with a number if the number could have it next: a digit always, the
mark of an exponent if there is no exponent yet, and a point if there is neither a point nor an
exponent. Main statement: a number in front of anything that does not go on with it is scanned to
one token, which is the longest number there, and scanning goes on right behind it.
-/

namespace LineScript

namespace Scan

/-- One digit or more. -/
structure Digits where
  chars : List Char
  ne_nil : chars ≠ []
  isDigit : ∀ c ∈ chars, isDigit c = true

/-- A number without its exponent. -/
inductive Mantissa where
  | whole (ds : Digits)
  | decimal (ds fs : Digits)
  | fraction (fs : Digits)

namespace Mantissa

/-- The digits in front of the point. -/
def wholeChars : Mantissa → List Char
  | whole ds => ds.chars
  | decimal ds _ => ds.chars
  | fraction _ => []

/-- The point and the digits behind it. -/
def fractionChars : Mantissa → List Char
  | whole _ => []
  | decimal _ fs => '.' :: fs.chars
  | fraction fs => '.' :: fs.chars

/-- Whether a point is written. -/
def hasPoint : Mantissa → Bool
  | whole _ => false
  | decimal _ _ => true
  | fraction _ => true

end Mantissa

/-- An exponent: its mark, a sign that may be missing, and digits. -/
structure Exponent where
  mark : Char
  sign : Option Char
  digits : Digits
  mark_mem : mark ∈ ['e', 'E']
  sign_mem : ∀ c ∈ sign, c ∈ ['+', '-']

/-- The mark, the sign if there is one, and the digits. -/
def Exponent.chars (x : Exponent) : List Char := x.mark :: (x.sign.toList ++ x.digits.chars)

/-- A number as it is written in a source text. -/
structure NumberText where
  mantissa : Mantissa
  exponent : Option Exponent

namespace NumberText

/-- The characters of the exponent, which are none if there is none. -/
def exponentChars (n : NumberText) : List Char := n.exponent.elim [] Exponent.chars

/-- The characters of a number, from its first to its last. -/
def chars (n : NumberText) : List Char :=
  n.mantissa.wholeChars ++ (n.mantissa.fractionChars ++ n.exponentChars)

/-- Whether a character behind a number goes on with it. -/
def goesOn (n : NumberText) (c : Char) : Bool :=
  isDigit c || (n.exponent.isNone && (c == 'e' || c == 'E')) ||
    (n.exponent.isNone && !n.mantissa.hasPoint && c == '.')

/-- Nothing behind a number goes on with it. -/
def EndsBefore (n : NumberText) (rest : List Char) : Prop := ∀ c ∈ rest.head?, n.goesOn c = false

end NumberText

variable {n : NumberText} {rest : List Char}

theorem digitsLength_eq_zero (hrest : ∀ c ∈ rest.head?, isDigit c = false) :
    digitsLength rest = 0 := by
  cases rest with
  | nil => rfl
  | cons c rest => rw [digitsLength, List.takeWhile_cons, hrest c rfl]; rfl

/-- Digits are taken up to the first character that is none. -/
theorem digitsLength_append (ds : Digits) (hrest : ∀ c ∈ rest.head?, isDigit c = false) :
    digitsLength (ds.chars ++ rest) = ds.chars.length := by
  have hsum : digitsLength (ds.chars ++ rest) = ds.chars.length + digitsLength rest := by
    rw [digitsLength, List.takeWhile_append_of_pos ds.isDigit, List.length_append, digitsLength]
  rw [hsum, digitsLength_eq_zero hrest, Nat.add_zero]

theorem wholeLength_append (m : Mantissa) (hrest : ∀ c ∈ rest.head?, isDigit c = false) :
    digitsLength (m.wholeChars ++ rest) = m.wholeChars.length := by
  cases m with
  | whole ds => exact digitsLength_append ds hrest
  | decimal ds fs => exact digitsLength_append ds hrest
  | fraction fs => exact digitsLength_eq_zero hrest

theorem fractionLength_append (m : Mantissa) (hrest : ∀ c ∈ rest.head?, isDigit c = false)
    (hpoint : m.hasPoint = false → rest.head? ≠ some '.') :
    fractionLength (m.fractionChars ++ rest) = m.fractionChars.length := by
  have hlong : ∀ fs : Digits, fractionLength ('.' :: fs.chars ++ rest) = fs.chars.length + 1 := by
    intro fs
    rw [List.cons_append, fractionLength, digitsLength_append fs hrest, Nat.add_comm]
  cases m with
  | whole ds =>
    have hnone := hpoint rfl
    rw [Mantissa.fractionChars, List.nil_append, fractionLength.eq_def]
    split
    next => exact absurd rfl hnone
    next => rfl
  | decimal ds fs => exact hlong fs
  | fraction fs => exact hlong fs

theorem exponentDigitsLength_append (x : Exponent)
    (hrest : ∀ c ∈ rest.head?, isDigit c = false) :
    exponentDigitsLength (x.sign.toList ++ (x.digits.chars ++ rest)) =
      (x.sign.toList ++ x.digits.chars).length := by
  have hdigits := digitsLength_append x.digits hrest
  cases hsign : x.sign with
  | none =>
    obtain ⟨c, cs, hcs⟩ := List.exists_cons_of_ne_nil x.digits.ne_nil
    have hc := x.digits.isDigit c (hcs ▸ List.mem_cons_self)
    rw [Option.toList_none, List.nil_append, List.nil_append, ← hdigits, hcs, List.cons_append]
    -- A digit is no sign.
    unfold exponentDigitsLength
    split
    next heq =>
      cases heq
      cases hc
    next heq =>
      cases heq
      cases hc
    next => rfl
  | some c =>
    have hc := x.sign_mem c hsign
    simp only [List.mem_cons, List.not_mem_nil, or_false] at hc
    rw [Option.toList_some, List.singleton_append, List.singleton_append, List.length_cons,
      Nat.add_comm, ← hdigits]
    rcases hc with rfl | rfl <;> rfl

theorem exponentLength_append (hrest : n.EndsBefore rest) :
    exponentLength (n.exponentChars ++ rest) = n.exponentChars.length := by
  cases hexponent : n.exponent with
  | none =>
    rw [NumberText.exponentChars, hexponent]
    change exponentLength rest = 0
    unfold exponentLength
    split
    next => simpa [NumberText.goesOn, hexponent] using hrest 'e' rfl
    next => simpa [NumberText.goesOn, hexponent] using hrest 'E' rfl
    next => rfl
  | some x =>
    have hdigit : ∀ c ∈ rest.head?, isDigit c = false := by
      intro c hc
      have hc := hrest c hc
      rw [NumberText.goesOn, Bool.or_eq_false_iff, Bool.or_eq_false_iff] at hc
      exact hc.1.1
    have hbehind := exponentDigitsLength_append x hdigit
    have hmark := x.mark_mem
    simp only [List.mem_cons, List.not_mem_nil, or_false] at hmark
    rw [NumberText.exponentChars, hexponent]
    change exponentLength (x.mark :: (x.sign.toList ++ x.digits.chars) ++ rest) = _ + 1
    rw [List.cons_append, List.append_assoc, ← hbehind, Nat.add_comm]
    rcases hmark with hmark | hmark <;> rw [hmark] <;> rfl

/-- What stands behind the digits of a number is no digit, and no point unless there was one. -/
theorem exponent_head (hrest : n.EndsBefore rest) :
    ∀ c ∈ (n.exponentChars ++ rest).head?,
      isDigit c = false ∧ (n.mantissa.hasPoint = false → c ≠ '.') := by
  intro c hc
  rw [NumberText.exponentChars] at hc
  cases hexponent : n.exponent with
  | none =>
    rw [hexponent] at hc
    have hc := hrest c hc
    rw [NumberText.goesOn, Bool.or_eq_false_iff, Bool.or_eq_false_iff] at hc
    refine ⟨hc.1.1, fun hpoint hdot => ?_⟩
    simp [hexponent, hpoint, hdot] at hc
  | some x =>
    rw [hexponent, Option.elim_some] at hc
    have hmark := x.mark_mem
    simp only [List.mem_cons, List.not_mem_nil, or_false] at hmark
    rw [Exponent.chars, List.cons_append, List.head?_cons, Option.mem_some_iff] at hc
    rw [← hc]
    rcases hmark with hmark | hmark <;> rw [hmark] <;> exact ⟨rfl, fun _ => by decide⟩

theorem fraction_head (hrest : n.EndsBefore rest) :
    ∀ c ∈ (n.mantissa.fractionChars ++ (n.exponentChars ++ rest)).head?, isDigit c = false := by
  intro c hc
  cases hmantissa : n.mantissa with
  | whole ds =>
    rw [hmantissa] at hc
    exact (exponent_head hrest c hc).1
  | decimal ds fs =>
    rw [hmantissa] at hc
    cases hc
    rfl
  | fraction fs =>
    rw [hmantissa] at hc
    cases hc
    rfl

/-- A number takes its own characters. -/
theorem numberLength_append (hrest : n.EndsBefore rest) :
    numberLength (n.chars ++ rest) = n.chars.length := by
  have hwhole := wholeLength_append n.mantissa (fraction_head hrest)
  have hfraction := fractionLength_append n.mantissa
    (fun c hc => (exponent_head hrest c hc).1) fun hpoint hdot =>
      (exponent_head hrest '.' hdot).2 hpoint rfl
  have hexponent := exponentLength_append hrest
  rw [NumberText.chars, List.append_assoc, List.append_assoc, numberLength, hwhole, List.drop_left,
    hfraction, ← List.drop_drop, List.drop_left, List.drop_left, hexponent, List.length_append,
    List.length_append, Nat.add_assoc]

/-- Of the numbers that characters begin with, one is the longest that what is behind it does not go
on with. -/
theorem NumberText.longest (hrest : n.EndsBefore rest) (m : NumberText)
    (hm : m.chars <+: n.chars ++ rest) : m.chars.length ≤ n.chars.length := by
  by_contra hlong
  -- the shorter number begins the longer one, so it would be read out of it
  obtain ⟨more, hmore⟩ : n.chars <+: m.chars :=
    List.prefix_of_prefix_length_le (List.prefix_append _ _) hm (by omega)
  have hends : n.EndsBefore more := by
    intro c hc
    apply hrest c
    obtain ⟨behind, hbehind⟩ := hm
    rw [← hmore, List.append_assoc, List.append_cancel_left_eq] at hbehind
    rw [← hbehind, List.head?_append, hc]
    rfl
  have hshort := numberLength_append hends
  have hwhole : numberLength (m.chars ++ []) = m.chars.length := numberLength_append nofun
  rw [List.append_nil] at hwhole
  rw [hmore, hwhole] at hshort
  omega

/-- A number begins with a digit, or with a point and a digit. -/
theorem NumberText.chars_eq (n : NumberText) :
    (∃ c cs, n.chars = c :: cs ∧ isDigit c = true) ∨
      ∃ c cs, n.chars = '.' :: c :: cs ∧ isDigit c = true := by
  have hfirst : ∀ ds : Digits, ∃ c cs, ds.chars = c :: cs ∧ isDigit c = true := by
    intro ds
    obtain ⟨c, cs, hcs⟩ := List.exists_cons_of_ne_nil ds.ne_nil
    exact ⟨c, cs, hcs, ds.isDigit c (hcs ▸ List.mem_cons_self)⟩
  rw [chars]
  cases n.mantissa with
  | whole ds =>
    obtain ⟨c, cs, hcs, hc⟩ := hfirst ds
    exact .inl ⟨c, _, by rw [Mantissa.wholeChars, hcs, List.cons_append], hc⟩
  | decimal ds fs =>
    obtain ⟨c, cs, hcs, hc⟩ := hfirst ds
    exact .inl ⟨c, _, by rw [Mantissa.wholeChars, hcs, List.cons_append], hc⟩
  | fraction fs =>
    obtain ⟨c, cs, hcs, hc⟩ := hfirst fs
    refine .inr ⟨c, cs ++ n.exponentChars, ?_, hc⟩
    rw [Mantissa.wholeChars, Mantissa.fractionChars, hcs, List.nil_append, List.cons_append,
      List.cons_append]

end Scan

namespace Cursor

open Scan

variable {c : Cursor} {n : NumberText} {rest : List Char}

/-- In front of a character that is no blank and begins no comment nothing is skipped. -/
theorem skip_eq {x : Char} {xs : List Char} (tabWidth : Nat) (hc : c.rest = x :: xs)
    (hblank : isBlank x = false) (hslash : x ≠ '/') :
    (c.skipBlanks tabWidth).skipComment = c := by
  obtain ⟨ahead, offset, line, column⟩ := c
  subst hc
  have hskip : skipBlanks tabWidth ⟨x :: xs, offset, line, column⟩ =
      ⟨x :: xs, offset, line, column⟩ := by
    rw [skipBlanks, List.takeWhile_cons, hblank]
    rfl
  rw [hskip, skipComment]
  split
  next heq =>
    cases heq
    exact absurd rfl hslash
  next => rfl

/-- A digit begins no blank, no line break, no name, no string literal and no comment. -/
theorem isDigit_cases {x : Char} (h : isDigit x = true) : isBlank x = false ∧
    isLineBreak x = false ∧ isIdentifierStart x = false ∧ x ≠ '"' ∧ x ≠ '/' := by
  have hbounds : 48 ≤ x.toNat ∧ x.toNat ≤ 57 := by
    simp only [isDigit, Bool.and_eq_true, decide_eq_true_eq, Char.le_def,
      UInt32.le_iff_toNat_le] at h
    exact h
  have hne : ∀ y : Char, y.toNat < 48 → x ≠ y := by
    rintro y hy rfl
    omega
  refine ⟨?_, ?_, ?_, hne _ (by decide), hne _ (by decide)⟩
  · simp [isBlank, hne ' ' (by decide), hne '\t' (by decide)]
  · simp [isLineBreak, hne '\n' (by decide), hne '\r' (by decide)]
  · have hnot : x ≠ '_' := by
      rintro rfl
      exact absurd hbounds.2 (by decide)
    simp only [isIdentifierStart, Char.le_def, UInt32.le_iff_toNat_le, Bool.or_eq_false_iff,
      Bool.and_eq_false_iff, decide_eq_false_iff_not, beq_eq_false_iff_ne]
    refine ⟨⟨⟨.inl ?_, .inl ?_⟩, hnot⟩, by omega⟩
    · exact Nat.not_le.2 (Nat.lt_of_le_of_lt hbounds.2 (by decide))
    · exact Nat.not_le.2 (Nat.lt_of_le_of_lt hbounds.2 (by decide))

/-- Where a number stands a number is read. -/
theorem readToken_eq (hc : c.rest = n.chars ++ rest) :
    c.readToken = (.ok (c.plainToken (numberLength c.rest) .number).1,
      (c.plainToken (numberLength c.rest) .number).2) := by
  rcases n.chars_eq with ⟨x, xs, hchars, hx⟩ | ⟨x, xs, hchars, hx⟩
  · obtain ⟨-, hbreak, hstart, hquote, -⟩ := isDigit_cases hx
    have hrest : c.rest = x :: (xs ++ rest) := by rw [hc, hchars, List.cons_append]
    simp only [readToken, hrest, hbreak, hstart, hx, beq_eq_false_iff_ne.2 hquote, Bool.true_or,
      Bool.false_eq_true, if_false, if_true]
  · have hrest : c.rest = '.' :: x :: (xs ++ rest) := by
      rw [hc, hchars, List.cons_append, List.cons_append]
    have hnext : ((x :: (xs ++ rest)).take 1).any isDigit = true := by simp [hx]
    have hbreak : isLineBreak '.' = false := rfl
    have hstart : isIdentifierStart '.' = false := rfl
    have hquote : ('.' == '"') = false := rfl
    simp only [readToken, hrest, hnext, hbreak, hstart, hquote, beq_self_eq_true, Bool.and_self,
      Bool.or_true, Bool.false_eq_true, if_false, if_true]

/-- A number in front of anything that does not go on with it is scanned to one token. -/
theorem scan_number (tabWidth : Nat) (hc : c.rest = n.chars ++ rest) (hrest : n.EndsBefore rest) :
    c.scan tabWidth =
      (.ok (c.tokenTo (c.advance n.chars.length) .number (String.ofList n.chars)),
        c.advance n.chars.length) := by
  have hlength : numberLength c.rest = n.chars.length := by
    rw [hc]
    exact numberLength_append hrest
  have htext : c.peekText n.chars.length = String.ofList n.chars := by
    rw [peekText, hc, List.take_left]
  have hskip : (c.skipBlanks tabWidth).skipComment = c := by
    rcases n.chars_eq with ⟨x, xs, hchars, hx⟩ | ⟨x, xs, hchars, hx⟩
    · obtain ⟨hblank, -, -, -, hslash⟩ := isDigit_cases hx
      exact skip_eq tabWidth (by rw [hc, hchars]; rfl) hblank hslash
    · exact skip_eq tabWidth (by rw [hc, hchars]; rfl) rfl (by decide)
  rw [scan, hskip, readToken_eq hc, hlength, plainToken, htext]

end Cursor

namespace TokenStream

open Scan

/-- The tokens of a source text, behind one that is not its end. -/
theorem ofSource_cons {mode : ReadingMode} {source : String} {t : Token} {s : Scanner}
    (hnext : (Scanner.ofSource mode source).next = (.ok t, s)) (ht : t.isEndOfFile = false) :
    ofSource mode source = ⟨t :: (s.drain source.length).1, (s.drain source.length).2.1,
      (s.drain source.length).2.2⟩ := by
  rw [ofSource, Scanner.drain, hnext]
  simp only [ht, Bool.false_eq_true, if_false]

/-- Numbers are scanned by the longest match. In front of anything that does not go on with it, a
number is the first token of a strict scanner, with the number as its value and, as far as offsets
are told apart, as its span. No longer number stands there. The scanner goes on at the first
character behind the number, with the tokens that follow. -/
theorem number_longest_match (tabWidth : Nat) (n : NumberText) (rest : List Char)
    (hrest : n.EndsBefore rest) :
    let source := String.ofList (n.chars ++ rest)
    ∃ t s, (Scanner.ofSource ⟨false, tabWidth⟩ source).next = (.ok t, s) ∧
      t.kind = .number ∧ t.value = String.ofList n.chars ∧ t.span = .between 0 n.chars.length ∧
      (∀ m : NumberText, m.chars <+: n.chars ++ rest → m.chars.length ≤ n.chars.length) ∧
      s.cursor.rest = rest ∧ s.cursor.offset = n.chars.length ∧ s.errors = [] ∧
      ofSource ⟨false, tabWidth⟩ source =
        ⟨t :: (s.drain source.length).1, (s.drain source.length).2.1,
          (s.drain source.length).2.2⟩ := by
  intro source
  have hsource : (Cursor.ofSource source).rest = n.chars ++ rest := String.toList_ofList
  have hnext : (Scanner.ofSource ⟨false, tabWidth⟩ source).next = (.ok
      ((Cursor.ofSource source).tokenTo ((Cursor.ofSource source).advance n.chars.length) .number
        (String.ofList n.chars)),
      ⟨⟨false, tabWidth⟩, (Cursor.ofSource source).advance n.chars.length, []⟩) := by
    have hscan := Cursor.scan_number tabWidth hsource hrest
    simp only [Scanner.next, Scanner.ofSource, hscan]
  refine ⟨_, _, hnext, rfl, rfl, ?_, NumberText.longest hrest, ?_, ?_, rfl,
    ofSource_cons hnext rfl⟩
  · simp [Cursor.tokenTo, Cursor.advance, Cursor.ofSource]
  · rw [Cursor.advance_rest, hsource, List.drop_left]
  · simp [Cursor.advance, Cursor.ofSource]

/-- A number that begins with its point and has an exponent with a sign. -/
def halfThousand : NumberText where
  mantissa := .fraction ⟨['5'], List.cons_ne_nil _ _, List.forall_mem_singleton.2 rfl⟩
  exponent := some {
    mark := 'e'
    sign := some '+'
    digits := ⟨['3'], List.cons_ne_nil _ _, List.forall_mem_singleton.2 rfl⟩
    mark_mem := List.mem_cons_self
    sign_mem := by
      intro c hc
      cases hc
      exact List.mem_cons_self }

/-- A second point does not go on with a number that has one, nor does a second exponent. -/
theorem number_longest_match_halfThousand :
    halfThousand.EndsBefore ".7e1".toList ∧
      ∃ t s, (Scanner.ofSource ⟨false, 4⟩ ".5e+3.7e1").next = (.ok t, s) ∧ t.kind = .number ∧
        t.value = ".5e+3" ∧ t.span = ⟨0, 5⟩ ∧ s.cursor.rest = ".7e1".toList := by
  have hends : halfThousand.EndsBefore ".7e1".toList := by
    intro c hc
    cases hc
    rfl
  obtain ⟨t, s, hnext, hkind, hvalue, hspan, -, hrest, -⟩ :=
    number_longest_match 4 halfThousand ".7e1".toList hends
  exact ⟨hends, t, s, hnext, hkind, hvalue, hspan, hrest⟩

end TokenStream

end LineScript
