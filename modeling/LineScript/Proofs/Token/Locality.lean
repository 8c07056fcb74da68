import LineScript.Proofs.Token.Scanning

/-!
# Scanning does not look behind a mark

No token but a string literal reaches over a character that goes on with none of them, such as a
line break, so what is scanned in front of such a character does not depend on what stands behind
it.
-/

namespace LineScript

namespace Scan

variable {x : Char} {p q : List Char}

theorem isBlank_lineBreak (hx : isLineBreak x = true) : isBlank x = false := by
  simp only [isLineBreak, Bool.or_eq_true, beq_iff_eq] at hx
  obtain rfl | rfl := hx <;> rfl

theorem isIdentifierPart_lineBreak (hx : isLineBreak x = true) : isIdentifierPart x = false := by
  simp only [isLineBreak, Bool.or_eq_true, beq_iff_eq] at hx
  obtain rfl | rfl := hx <;> decide

/-- A character that goes on with no word, number or punctuator in front of it. -/
structure Stops (x : Char) : Prop where
  word : isIdentifierPart x = false
  mark : x ∉ ['.', '+', '-', '=', '<', '>']

theorem Stops.of_lineBreak (hx : isLineBreak x = true) : Stops x := by
  refine ⟨isIdentifierPart_lineBreak hx, ?_⟩
  simp only [isLineBreak, Bool.or_eq_true, beq_iff_eq] at hx
  obtain rfl | rfl := hx <;> decide

theorem Stops.isDigit (hx : Stops x) : isDigit x = false := by
  have h := hx.word
  rw [isIdentifierPart, Bool.or_eq_false_iff] at h
  exact h.2

theorem Stops.ne (hx : Stops x) {c : Char} (hc : c ∈ ['.', '+', '-', '=', '<', '>']) : x ≠ c := by
  rintro rfl
  exact hx.mark hc

theorem Stops.ne_letter (hx : Stops x) {c : Char} (hc : isIdentifierPart c = true) : x ≠ c := by
  rintro rfl
  rw [hx.word] at hc
  cases hc

theorem takeWhile_stop {f : Char → Bool} (hx : f x = false) :
    (p ++ x :: q).takeWhile f = p.takeWhile f := by
  induction p with
  | nil => simp [hx]
  | cons c p ih => simp only [List.cons_append, List.takeWhile_cons, ih]

theorem length_takeWhile_le {f : Char → Bool} : (p.takeWhile f).length ≤ p.length :=
  (List.takeWhile_prefix f).length_le

theorem digitsLength_le : digitsLength p ≤ p.length := length_takeWhile_le

theorem digitsLength_stop (hx : Stops x) :
    digitsLength (p ++ x :: q) = digitsLength p := by
  rw [digitsLength, takeWhile_stop hx.isDigit, digitsLength]

theorem word_stop (hx : Stops x) : word (p ++ x :: q) = word p :=
  takeWhile_stop hx.word

theorem drop_stop {n : Nat} (hn : n ≤ p.length) : (p ++ x :: q).drop n = p.drop n ++ x :: q :=
  List.drop_append_of_le_length hn

theorem fractionLength_stop (hx : Stops x) :
    fractionLength (p ++ x :: q) = fractionLength p := by
  cases p with
  | nil =>
    have := hx.ne (c := '.') (by simp)
    simp [fractionLength, this]
  | cons c p =>
    by_cases hc : c = '.'
    · subst hc
      simp [fractionLength, digitsLength_stop hx]
    · simp [fractionLength, hc]

theorem fractionLength_le : fractionLength p ≤ p.length := by
  unfold fractionLength
  split
  · have := digitsLength_le (p := ‹List Char›)
    simp only [List.length_cons]
    omega
  · omega

theorem exponentDigitsLength_stop (hx : Stops x) :
    exponentDigitsLength (p ++ x :: q) = exponentDigitsLength p := by
  cases p with
  | nil =>
    have h₁ := hx.ne (c := '+') (by simp)
    have h₂ := hx.ne (c := '-') (by simp)
    simp [exponentDigitsLength, h₁, h₂, digitsLength, hx.isDigit]
  | cons c p =>
    by_cases h₁ : c = '+'
    · subst h₁
      simp [exponentDigitsLength, digitsLength_stop hx]
    · by_cases h₂ : c = '-'
      · subst h₂
        simp [exponentDigitsLength, digitsLength_stop hx]
      · have plain : ∀ cs, exponentDigitsLength (c :: cs) = digitsLength (c :: cs) := by
          intro cs
          simp [exponentDigitsLength, h₁, h₂]
        rw [List.cons_append, plain, plain, ← List.cons_append, digitsLength_stop hx]

theorem exponentDigitsLength_le : exponentDigitsLength p ≤ p.length := by
  unfold exponentDigitsLength
  split
  next cs =>
    have := digitsLength_le (p := cs)
    simp only [List.length_cons]
    omega
  next cs =>
    have := digitsLength_le (p := cs)
    simp only [List.length_cons]
    omega
  · exact digitsLength_le

theorem exponentLength_stop (hx : Stops x) :
    exponentLength (p ++ x :: q) = exponentLength p := by
  cases p with
  | nil =>
    have h₁ := hx.ne_letter (c := 'e') (by decide)
    have h₂ := hx.ne_letter (c := 'E') (by decide)
    simp [exponentLength, h₁, h₂]
  | cons c p =>
    by_cases h₁ : c = 'e'
    · subst h₁
      simp [exponentLength, exponentDigitsLength_stop hx]
    · by_cases h₂ : c = 'E'
      · subst h₂
        simp [exponentLength, exponentDigitsLength_stop hx]
      · simp [exponentLength, h₁, h₂]

theorem exponentLength_le : exponentLength p ≤ p.length := by
  unfold exponentLength
  split
  next cs =>
    have := exponentDigitsLength_le (p := cs)
    simp only [List.length_cons]
    omega
  next cs =>
    have := exponentDigitsLength_le (p := cs)
    simp only [List.length_cons]
    omega
  · omega

theorem numberLength_le : numberLength p ≤ p.length := by
  have h₁ := digitsLength_le (p := p)
  have h₂ := fractionLength_le (p := p.drop (digitsLength p))
  have h₃ := exponentLength_le
    (p := p.drop (digitsLength p + fractionLength (p.drop (digitsLength p))))
  simp only [List.length_drop] at h₂ h₃
  simp only [numberLength]
  omega

/-- A number ends in front of a character that does not go on with it. -/
theorem numberLength_stop (hx : Stops x) :
    numberLength (p ++ x :: q) = numberLength p := by
  have h₁ := digitsLength_le (p := p)
  have h₂ := fractionLength_le (p := p.drop (digitsLength p))
  simp only [List.length_drop] at h₂
  simp only [numberLength, digitsLength_stop hx, drop_stop h₁, fractionLength_stop hx]
  rw [drop_stop (by omega), exponentLength_stop hx]

theorem continuesElseIf_stop (hx : Stops x) (h : isBlank x = false ∨ p ≠ []) :
    continuesElseIf (p ++ x :: q) = continuesElseIf p := by
  cases p with
  | nil =>
    have : x ≠ ' ' := by
      rintro rfl
      simp [isBlank] at h
    simp [continuesElseIf, this]
  | cons c p =>
    by_cases hc : c = ' '
    · subst hc
      simp [continuesElseIf, word_stop hx]
    · simp [continuesElseIf, hc]

theorem closingLength_stop (hx : Stops x) (h : isBlank x = false ∨ p ≠ []) :
    closingLength (p ++ x :: q) = closingLength p := by
  cases p with
  | nil =>
    have : isBlank x = false := by simpa using h
    simp [closingLength, this]
  | cons c p => simp [closingLength, word_stop hx]

theorem closingLength_le : closingLength p ≤ p.length := by
  cases p with
  | nil => simp [closingLength]
  | cons c p =>
    have := length_takeWhile_le (p := p) (f := isIdentifierPart)
    simp only [closingLength, word, List.length_cons]
    split <;> omega

/-- A word ends in front of a character that does not go on with it. Only a blank may go on with a
word that is all there is, if that takes another word along. -/
theorem wordLength_stop (hx : Stops x)
    (hp : isBlank x = false ∨ p ∉ [['e', 'n', 'd'], ['e', 'l', 's', 'e']]) :
    wordLength (p ++ x :: q) = wordLength p := by
  have hle : (word p).length ≤ p.length := length_takeWhile_le
  have behind : word p ∈ [['e', 'n', 'd'], ['e', 'l', 's', 'e']] →
      isBlank x = false ∨ p.drop (word p).length ≠ [] := by
    intro hw
    refine hp.imp_right fun hp hnil => hp ?_
    have hlength : (word p).length = p.length := by
      rw [List.drop_eq_nil_iff] at hnil
      omega
    rwa [show word p = p from (List.takeWhile_prefix _).eq_of_length hlength] at hw
  simp only [wordLength, word_stop hx, drop_stop hle]
  split
  next he => rw [closingLength_stop hx (behind (by simp_all))]
  · by_cases he : word p = ['e', 'l', 's', 'e']
    · rw [continuesElseIf_stop hx (behind (by simp [he]))]
    · simp [he]

theorem length_le_of_continuesElseIf (h : continuesElseIf p = true) : 3 ≤ p.length := by
  unfold continuesElseIf at h
  split at h
  next cs =>
    have hw : word cs = ['i', 'f'] := by simpa using h
    have := length_takeWhile_le (p := cs) (f := isIdentifierPart)
    rw [show cs.takeWhile isIdentifierPart = ['i', 'f'] from hw] at this
    simpa using this
  · cases h

theorem wordLength_le : wordLength p ≤ p.length := by
  have h : (word p).length ≤ p.length := length_takeWhile_le
  simp only [wordLength]
  split
  next he =>
    have he : word p = ['e', 'n', 'd'] := by simpa using he
    have := closingLength_le (p := p.drop (word p).length)
    rw [he] at h this ⊢
    simp only [List.length_drop, List.length_cons, List.length_nil] at h this ⊢
    omega
  · split
    next he =>
      simp only [Bool.and_eq_true, beq_iff_eq] at he
      have := length_le_of_continuesElseIf he.2
      rw [he.1] at h this
      simp only [List.length_drop, List.length_cons, List.length_nil] at h this
      omega
    · exact h

theorem quotedBody_cons {c : Char} (hc : c ≠ '"') (cs : List Char) :
    quotedBody (c :: cs) = c :: quotedBody cs := by
  rw [quotedBody]
  · exact fun _ h => absurd h hc
  · exact hc

/-- A string literal that ends in front of a line break does not depend on what is behind it. -/
theorem quotedBody_stop (p : List Char) :
    quotedBody (p ++ ['\n']) = p ++ ['\n'] ∨
      (quotedBody (p ++ ['\n'])).length < p.length ∧
        ∀ q, quotedBody (p ++ '\n' :: q) = quotedBody (p ++ ['\n']) := by
  induction p using quotedBody.induct with
  | case1 cs ih =>
    simp only [List.cons_append, quotedBody]
    obtain h | ⟨h₁, h₂⟩ := ih
    · exact .inl (by rw [h])
    · exact .inr ⟨by simpa using h₁, fun q => by rw [h₂ q]⟩
  | case2 cs h =>
    refine .inr ?_
    cases cs with
    | nil => simp [quotedBody]
    | cons c cs =>
      have hc : c ≠ '"' := by
        rintro rfl
        exact h cs rfl
      simp [quotedBody, hc]
  | case3 c cs h₁ h₂ ih =>
    simp only [List.cons_append, quotedBody_cons h₂]
    obtain h | ⟨h₁, h₂⟩ := ih
    · exact .inl (by rw [h])
    · exact .inr ⟨by simpa using h₁, fun q => by rw [h₂ q]⟩
  | case4 => exact .inl rfl

end Scan

namespace Punctuator

open Scan

variable {x : Char} {p q : List Char}

theorem width_le {k : Punctuator} (h : ofChars? p = some k) : k.width ≤ p.length := by
  unfold ofChars? at h
  split at h <;> cases h
  all_goals first
    | exact Nat.le_trans (show _ ≤ 1 by decide) (by simp)
    | exact Nat.le_trans (show _ ≤ 2 by decide) (by simp)
    | exact Nat.le_trans (show _ ≤ 3 by decide) (by simp)

/-- The characters that begin punctuators of different lengths. -/
def ambiguous : List Char := ['=', '<', '>', '!', '-', '+', '*', '/']

/-- Any other character makes a punctuator alone or none. -/
theorem ofChars?_single {a : Char} (h : a ∉ ambiguous) (s t : List Char) :
    ofChars? (a :: s) = ofChars? (a :: t) := by
  simp only [ambiguous, List.mem_cons, List.not_mem_nil, or_false, not_or] at h
  by_cases hs : a ∈ ['.', '^', '%', ':', ',', '\x7b', '\x7d', '[', ']', '(', ')', '&', '|']
  · simp only [List.mem_cons, List.not_mem_nil, or_false] at hs
    rcases hs with rfl | rfl | rfl | rfl | rfl | rfl | rfl | rfl | rfl | rfl | rfl | rfl | rfl <;>
      rfl
  · simp only [List.mem_cons, List.not_mem_nil, or_false, not_or] at hs
    simp [ofChars?, h, hs]

theorem ofChars?_pair {a b : Char} (h : a ∈ ambiguous) (hb : b ∉ ['=', '<', '>'])
    (s : List Char) : ofChars? (a :: b :: s) = ofChars? [a] := by
  simp only [List.mem_cons, List.not_mem_nil, or_false, not_or] at hb
  simp only [ambiguous, List.mem_cons, List.not_mem_nil, or_false] at h
  rcases h with rfl | rfl | rfl | rfl | rfl | rfl | rfl | rfl <;> simp [ofChars?, hb]

theorem ofChars?_triple {a b c : Char} (h : a ∈ ambiguous) (hb : b ∈ ['=', '<', '>'])
    (hc : c ≠ '>') (s : List Char) : ofChars? (a :: b :: c :: s) = ofChars? [a, b] := by
  simp only [List.mem_cons, List.not_mem_nil, or_false] at hb
  simp only [ambiguous, List.mem_cons, List.not_mem_nil, or_false] at h
  rcases hb with rfl | rfl | rfl <;>
    rcases h with rfl | rfl | rfl | rfl | rfl | rfl | rfl | rfl <;> simp [ofChars?, hc]

theorem ofChars?_triple_greater {a b : Char} (h : a ∈ ambiguous) (hb : b ∈ ['=', '<', '>'])
    (s t : List Char) : ofChars? (a :: b :: '>' :: s) = ofChars? (a :: b :: '>' :: t) := by
  simp only [List.mem_cons, List.not_mem_nil, or_false] at hb
  simp only [ambiguous, List.mem_cons, List.not_mem_nil, or_false] at h
  rcases hb with rfl | rfl | rfl <;>
    rcases h with rfl | rfl | rfl | rfl | rfl | rfl | rfl | rfl <;> rfl

/-- A punctuator ends in front of a character that does not go on with it. -/
theorem ofChars?_stop (hx : Stops x) (hp : p ≠ []) : ofChars? (p ++ x :: q) = ofChars? p := by
  have hne : x ∉ ['=', '<', '>'] := fun h => hx.mark (by simp_all)
  obtain ⟨a, p, rfl⟩ := List.exists_cons_of_ne_nil hp
  by_cases ha : a ∈ ambiguous
  · cases p with
    | nil => exact ofChars?_pair ha hne q
    | cons b p =>
      by_cases hb : b ∈ ['=', '<', '>']
      · cases p with
        | nil => exact ofChars?_triple ha hb (hx.ne (by simp)) q
        | cons c p =>
          by_cases hc : c = '>'
          · subst hc
            exact ofChars?_triple_greater ha hb _ _
          · exact (ofChars?_triple ha hb hc _).trans (ofChars?_triple ha hb hc _).symm
      · exact (ofChars?_pair ha hb _).trans (ofChars?_pair ha hb _).symm
  · exact ofChars?_single ha _ _

end Punctuator

namespace Scan

variable {x : Char} {p q : List Char}

/-- What begins in front of a character that goes on with no token is decided in front of it. -/
theorem lexeme?_stop (hx : Stops x) (hp : p ≠ []) : lexeme? (p ++ x :: q) = lexeme? p := by
  obtain ⟨a, p, rfl⟩ := List.exists_cons_of_ne_nil hp
  have hdigit : ((p ++ x :: q).take 1).any isDigit = (p.take 1).any isDigit := by
    cases p with
    | nil => simp [hx.isDigit]
    | cons b p => rfl
  have hpunctuator := Punctuator.ofChars?_stop (q := q) hx hp
  rw [List.cons_append] at hpunctuator ⊢
  rw [lexeme?, lexeme?, hdigit, hpunctuator]

theorem Begins.width_le {cs : List Char} {k : Punctuator} (h : Begins (.punctuator k) cs) :
    k.width ≤ cs.length := by
  cases h with
  | punctuator _ hk => exact Punctuator.width_le hk

end Scan

end LineScript
