import LineScript.Token.Scanner
import Mathlib.Data.List.Basic

/-!
# Scanning a whole source text

Every token but the end of the source takes a character, so the number of readings that a source
text is scanned with is enough. A lenient scanner reads the tokens of a strict one and goes on
behind the error that stops the strict one.
-/

namespace LineScript

namespace Scan

theorem word_length_pos {x : Char} {cs : List Char} (h : isIdentifierStart x = true) :
    0 < (word (x :: cs)).length := by
  simp [word, isIdentifierPart, h]

/-- A word takes a character. -/
theorem wordLength_pos {x : Char} {cs : List Char} (h : isIdentifierStart x = true) :
    0 < wordLength (x :: cs) := by
  have : 0 < (word (x :: cs)).length := word_length_pos h
  unfold wordLength
  dsimp only
  split
  · omega
  · split
    · omega
    · exact this

/-- A number takes a character. -/
theorem numberLength_pos {x : Char} {cs : List Char}
    (h : isDigit x = true ∨ x = '.') : 0 < numberLength (x :: cs) := by
  unfold numberLength
  obtain h | rfl := h
  · have : 0 < digitsLength (x :: cs) := by simp [digitsLength, h]
    dsimp only
    omega
  · have hd : digitsLength ('.' :: cs) = 0 := by simp [digitsLength, isDigit]
    simp only [hd, List.drop_zero, fractionLength]
    omega

theorem lineBreakLength_pos (cs : List Char) : 0 < lineBreakLength cs := by
  unfold lineBreakLength
  split <;> omega

/-- The ways in which a token is read. -/
inductive Lexeme where
  | lineBreak
  | word
  | string
  | number
  | semicolon
  | punctuator (p : Punctuator)

/-- How the token in front of characters is read, if one begins there. -/
def lexeme? : List Char → Option Lexeme
  | [] => none
  | x :: xs =>
    if isLineBreak x then some .lineBreak
    else if isIdentifierStart x then some .word
    else if x == '"' then some .string
    else if isDigit x || (x == '.' && (xs.take 1).any isDigit) then some .number
    else if x == ';' then some .semicolon
    else (Punctuator.ofChars? (x :: xs)).map .punctuator

/-- What characters begin with, if the token in front of them is read in a given way. -/
inductive Begins : Lexeme → List Char → Prop where
  | lineBreak {x : Char} {xs : List Char} (hx : isLineBreak x = true) : Begins .lineBreak (x :: xs)
  | word {x : Char} {xs : List Char} (hbreak : isLineBreak x = false)
      (hx : isIdentifierStart x = true) : Begins .word (x :: xs)
  | string {xs : List Char} : Begins .string ('"' :: xs)
  | number {x : Char} {xs : List Char} (hbreak : isLineBreak x = false)
      (hx : isDigit x = true ∨ x = '.') : Begins .number (x :: xs)
  | semicolon {xs : List Char} : Begins .semicolon (';' :: xs)
  | punctuator {x : Char} {xs : List Char} {p : Punctuator} (hbreak : isLineBreak x = false)
      (hp : Punctuator.ofChars? (x :: xs) = some p) : Begins (.punctuator p) (x :: xs)

theorem begins_of_lexeme? {cs : List Char} {l : Lexeme} (h : lexeme? cs = some l) :
    Begins l cs := by
  cases cs with
  | nil => cases h
  | cons x xs =>
    rw [lexeme?] at h
    split at h
    next hx =>
      cases h
      exact .lineBreak hx
    next hbreak =>
    have hbreak : isLineBreak x = false := by simpa using hbreak
    split at h
    next hx =>
      cases h
      exact .word hbreak hx
    split at h
    next hx =>
      cases h
      obtain rfl : x = '"' := by simpa using hx
      exact .string
    split at h
    next hx =>
      cases h
      simp only [Bool.or_eq_true, Bool.and_eq_true, beq_iff_eq] at hx
      exact .number hbreak (hx.imp_right And.left)
    split at h
    next hx =>
      cases h
      obtain rfl : x = ';' := by simpa using hx
      exact .semicolon
    · obtain ⟨p, hp, rfl⟩ := Option.map_eq_some_iff.1 h
      exact .punctuator hbreak hp

theorem Begins.ne_nil {cs : List Char} {l : Lexeme} (h : Begins l cs) : cs ≠ [] := by
  cases h <;> simp

theorem Begins.exists_string {cs : List Char} (h : Begins .string cs) : ∃ xs, cs = '"' :: xs := by
  cases h with
  | string => exact ⟨_, rfl⟩

theorem isLineBreak_of_lexeme?_none {x : Char} {xs : List Char} (h : lexeme? (x :: xs) = none) :
    isLineBreak x = false := by
  rw [lexeme?] at h
  split at h
  · cases h
  next hx => simpa using hx

end Scan

theorem Punctuator.width_pos (p : Punctuator) : 0 < p.width := by
  cases p <;> decide

theorem Scan.drop_length_takeWhile (p : Char → Bool) (cs : List Char) :
    cs.drop (cs.takeWhile p).length = cs.dropWhile p := by
  have hsplit : cs.takeWhile p ++ cs.dropWhile p = cs := List.takeWhile_append_dropWhile
  calc cs.drop (cs.takeWhile p).length
      = (cs.takeWhile p ++ cs.dropWhile p).drop (cs.takeWhile p).length := by rw [hsplit]
    _ = cs.dropWhile p := List.drop_left

namespace Cursor

@[simp] theorem advance_rest (c : Cursor) (n : Nat) : (c.advance n).rest = c.rest.drop n := rfl

theorem advance_length_lt {c : Cursor} {n : Nat} (hc : c.rest ≠ []) (hn : 0 < n) :
    (c.advance n).rest.length < c.rest.length := by
  have := List.length_pos_of_ne_nil hc
  simp only [advance_rest, List.length_drop]
  omega

@[simp] theorem breakLine_rest (c : Cursor) (n : Nat) :
    (c.breakLine n).rest = c.rest.drop n := rfl

/-- Moving over characters leaves the characters behind them. -/
@[simp] theorem across_rest (c : Cursor) (cs : List Char) :
    (c.across cs).rest = c.rest.drop cs.length := by
  fun_induction c.across cs with
  | case6 => rfl
  | _ =>
    rename_i ih
    rw [ih]
    simp only [breakLine_rest, advance_rest, List.drop_drop, List.length_cons]
    congr 1
    omega

/-- No word ends a line or the source. -/
theorem wordKind_not_terminator (first text : String) :
    Scan.wordKind first text ≠ .endOfLine ∧ Scan.wordKind first text ≠ .endOfFile := by
  have plain : Scan.plainWordKind text ≠ .endOfLine ∧ Scan.plainWordKind text ≠ .endOfFile := by
    unfold Scan.plainWordKind
    split
    · simp
    split <;> simp
  unfold Scan.wordKind
  split
  · split
    · simp
    · exact plain
  · exact plain

/-- How a token is read: the end of the source, where nothing is left; a line break; a string
literal, which may hold line breaks; or characters of the same line, of which only a semicolon ends
the line. -/
inductive Reads (c : Cursor) (t : Token) : Cursor → Prop where
  | atEnd (hc : c.rest = []) (hk : t.kind = .endOfFile) : Reads c t c
  | lineBreak {x : Char} {xs : List Char} (hc : c.rest = x :: xs) (hx : Scan.isLineBreak x = true)
      (hk : t.kind = .endOfLine) : Reads c t (c.breakLine (Scan.lineBreakLength c.rest))
  | string (hc : c.rest ≠ []) (hk : t.kind = .string) (body : List Char) :
      Reads c t (((c.advance 1).across body).advance 1)
  | inLine {n : Nat} (hc : c.rest ≠ []) (hn : 0 < n) (hend : t.kind ≠ .endOfFile)
      (hline : t.kind = .endOfLine → n = 1) : Reads c t (c.advance n)

/-- Reads characters of a line as a token. -/
def readPlain (c : Cursor) (n : Nat) (kind : TokenKind) : Except LexError Token × Cursor :=
  (.ok (c.plainToken n kind).1, (c.plainToken n kind).2)

/-- Reads the token in front in a given way. -/
def readLexeme (c : Cursor) : Scan.Lexeme → Except LexError Token × Cursor
  | .lineBreak => (.ok c.lineBreak.1, c.lineBreak.2)
  | .word => (.ok c.wordToken.1, c.wordToken.2)
  | .string => c.stringToken
  | .number => c.readPlain (Scan.numberLength c.rest) .number
  | .semicolon => c.readPlain 1 .endOfLine
  | .punctuator p => c.readPlain p.width (.punctuator p)

/-- Where characters are left, the way in which the token in front is read decides. -/
theorem readToken_eq_lexeme {c : Cursor} {x : Char} {xs : List Char} (hc : c.rest = x :: xs) :
    c.readToken = match Scan.lexeme? c.rest with
      | some l => c.readLexeme l
      | none => (.error ⟨.invalidCharacter x, .between c.offset (c.offset + 1), c.line⟩, c) := by
  rw [readToken, hc, Scan.lexeme?]
  dsimp only
  split_ifs
  · rfl
  · rfl
  · rfl
  · simp only [readLexeme, hc]
    rfl
  · rfl
  · cases Punctuator.ofChars? (x :: xs) <;> rfl

theorem readToken_of_lexeme? {c : Cursor} {l : Scan.Lexeme} (h : Scan.lexeme? c.rest = some l) :
    c.readToken = c.readLexeme l := by
  obtain ⟨x, xs, hc⟩ := List.exists_cons_of_ne_nil (Scan.begins_of_lexeme? h).ne_nil
  rw [readToken_eq_lexeme hc, h]

theorem readToken_of_lexeme?_none {c : Cursor} {x : Char} {xs : List Char}
    (hc : c.rest = x :: xs) (h : Scan.lexeme? c.rest = none) :
    c.readToken = (.error ⟨.invalidCharacter x, .between c.offset (c.offset + 1), c.line⟩, c) := by
  rw [readToken_eq_lexeme hc, h]

/-- A token is the end of the source, or it is read in the way of the characters in front. -/
theorem readToken_ok {c c' : Cursor} {t : Token} (h : c.readToken = (.ok t, c')) :
    (c.rest = [] ∧ t = c.tokenTo c .endOfFile "<eof>" ∧ c' = c) ∨
      ∃ l, Scan.lexeme? c.rest = some l ∧ c.readLexeme l = (.ok t, c') := by
  cases hc : c.rest with
  | nil =>
    simp only [readToken, hc] at h
    cases h
    exact .inl ⟨rfl, rfl, rfl⟩
  | cons x xs =>
    rw [readToken_eq_lexeme hc] at h
    rw [← hc]
    cases hl : Scan.lexeme? c.rest with
    | none =>
      rw [hl] at h
      cases h
    | some l =>
      rw [hl] at h
      exact .inr ⟨l, rfl, h⟩

/-- An error is that of a string literal, or no token begins with the character in front. -/
theorem readToken_error {c c' : Cursor} {e : LexError} (h : c.readToken = (.error e, c')) :
    (Scan.lexeme? c.rest = some .string ∧ c.stringToken = (.error e, c')) ∨
      ∃ x xs, c.rest = x :: xs ∧ Scan.isLineBreak x = false ∧
        e = ⟨.invalidCharacter x, .between c.offset (c.offset + 1), c.line⟩ ∧ c' = c := by
  cases hc : c.rest with
  | nil =>
    simp only [readToken, hc] at h
    cases h
  | cons x xs =>
    rw [readToken_eq_lexeme hc] at h
    rw [← hc]
    cases hl : Scan.lexeme? c.rest with
    | none =>
      rw [hl] at h
      cases h
      exact .inr ⟨x, xs, hc, Scan.isLineBreak_of_lexeme?_none (hc ▸ hl), rfl, rfl⟩
    | some l =>
      rw [hl] at h
      cases l
      case string => exact .inl ⟨rfl, h⟩
      all_goals cases h

/-- Every token is read in one of these ways. -/
theorem readToken_reads {c c' : Cursor} {t : Token} (h : c.readToken = (.ok t, c')) :
    Reads c t c' := by
  obtain ⟨hc, rfl, rfl⟩ | ⟨l, hl, h⟩ := readToken_ok h
  · exact .atEnd hc rfl
  have hbegins := Scan.begins_of_lexeme? hl
  have hne := hbegins.ne_nil
  generalize hc : c.rest = cs at hbegins
  cases hbegins with
  | lineBreak hx =>
    cases h
    exact .lineBreak hc hx rfl
  | word _ hx =>
    obtain ⟨hline, hend⟩ := wordKind_not_terminator (String.ofList (Scan.word c.rest))
      (c.peekText (Scan.wordLength c.rest))
    cases h
    exact .inLine hne (hc ▸ Scan.wordLength_pos hx) hend fun hk => absurd hk hline
  | string =>
    unfold readLexeme stringToken at h
    dsimp only at h
    split at h
    · cases h
    · cases h
      exact .string hne rfl _
  | number _ hx =>
    cases h
    exact .inLine hne (hc ▸ Scan.numberLength_pos hx) (by simp [plainToken, tokenTo])
      (by simp [plainToken, tokenTo])
  | semicolon =>
    cases h
    exact .inLine hne (by decide) (by simp [plainToken, tokenTo]) fun _ => rfl
  | punctuator =>
    cases h
    exact .inLine hne (Punctuator.width_pos _) (by simp [plainToken, tokenTo])
      (by simp [plainToken, tokenTo])

/-- A token other than the end of the source takes a character. -/
theorem readToken_length {c c' : Cursor} {t : Token} (h : c.readToken = (.ok t, c'))
    (ht : t.isEndOfFile = false) : c'.rest.length < c.rest.length := by
  cases readToken_reads h with
  | atEnd hc hk => simp [Token.isEndOfFile, hk] at ht
  | lineBreak hc hx hk =>
    have := Scan.lineBreakLength_pos c.rest
    have := List.length_pos_of_ne_nil (show c.rest ≠ [] by simp [hc])
    rw [breakLine_rest, List.length_drop]
    omega
  | string hc hk body =>
    have := List.length_pos_of_ne_nil hc
    simp only [advance_rest, across_rest, List.length_drop]
    omega
  | inLine hc hn hend hline => exact advance_length_lt hc hn

/-- The end of the source is behind the last character. -/
theorem readToken_end {c c' : Cursor} {t : Token} (h : c.readToken = (.ok t, c'))
    (ht : t.isEndOfFile = true) : c.rest = [] := by
  have ht : t.kind = .endOfFile := by simpa [Token.isEndOfFile] using ht
  cases readToken_reads h with
  | atEnd hc hk => exact hc
  | lineBreak hc hx hk => simp [hk] at ht
  | string hc hk body => simp [hk] at ht
  | inLine hc hn hend hline => exact absurd ht hend

/-- Reading a token leaves characters that were ahead. -/
theorem readToken_suffix {c c' : Cursor} {t : Token} (h : c.readToken = (.ok t, c')) :
    c'.rest <:+ c.rest := by
  cases readToken_reads h with
  | atEnd hc hk => exact List.suffix_refl _
  | lineBreak hc hx hk => exact List.drop_suffix _ _
  | string hc hk body =>
    simp only [advance_rest, across_rest, List.drop_drop]
    exact List.drop_suffix _ _
  | inLine hc hn hend hline => exact List.drop_suffix _ _

theorem skipBlanks_suffix (tabWidth : Nat) (c : Cursor) :
    (c.skipBlanks tabWidth).rest <:+ c.rest :=
  List.drop_suffix _ _

theorem skipComment_suffix (c : Cursor) : c.skipComment.rest <:+ c.rest := by
  unfold skipComment
  split
  · exact List.drop_suffix _ _
  · exact List.suffix_refl _

theorem scan_suffix {tabWidth : Nat} {c c' : Cursor} {t : Token}
    (h : c.scan tabWidth = (.ok t, c')) : c'.rest <:+ c.rest :=
  (readToken_suffix h).trans ((skipComment_suffix _).trans (skipBlanks_suffix tabWidth c))

theorem skipBlanks_length (tabWidth : Nat) (c : Cursor) :
    (c.skipBlanks tabWidth).rest.length ≤ c.rest.length := by
  simp [skipBlanks]

theorem skipLine_length (c : Cursor) : c.skipLine.rest.length ≤ c.rest.length := by
  simp [skipLine]

theorem skipComment_length (c : Cursor) : c.skipComment.rest.length ≤ c.rest.length := by
  unfold skipComment
  split
  · exact c.skipLine_length
  · exact Nat.le_refl _

/-- Scanning a token other than the end of the source takes a character. -/
theorem scan_length {tabWidth : Nat} {c c' : Cursor} {t : Token}
    (h : c.scan tabWidth = (.ok t, c')) (ht : t.isEndOfFile = false) :
    c'.rest.length < c.rest.length := by
  have h₁ := readToken_length h ht
  have h₂ := (c.skipBlanks tabWidth).skipComment_length
  have h₃ := c.skipBlanks_length tabWidth
  omega

/-- A cursor does not move back at an error. -/
theorem scan_error_length {tabWidth : Nat} {c c' : Cursor} {e : LexError}
    (h : c.scan tabWidth = (.error e, c')) : c'.rest.length ≤ c.rest.length := by
  have h₁ := (c.skipBlanks tabWidth).skipComment_length
  have h₂ := c.skipBlanks_length tabWidth
  suffices hr : c'.rest.length ≤ (c.skipBlanks tabWidth).skipComment.rest.length by omega
  unfold scan at h
  generalize (c.skipBlanks tabWidth).skipComment = d at h ⊢
  obtain ⟨_, h⟩ | ⟨x, xs, _, _, rfl, rfl⟩ := readToken_error h
  · unfold stringToken at h
    dsimp only at h
    split at h
    · cases h
      simp only [across_rest, advance_rest, List.length_drop]
      omega
    · cases h
  · exact Nat.le_refl _

/-- There is a token at the end of a line. -/
theorem scan_skipLine (tabWidth : Nat) (c : Cursor) :
    ∃ t c', c.skipLine.scan tabWidth = (.ok t, c') := by
  have hrest : c.skipLine.rest = c.rest.dropWhile fun x => !Scan.isLineBreak x := by
    rw [skipLine, advance_rest, Scan.drop_length_takeWhile]
  cases hr : c.skipLine.rest with
  | nil =>
    have hb : (c.skipLine.skipBlanks tabWidth).skipComment.rest = [] := by
      simp [skipBlanks, skipComment, hr]
    simp only [scan, readToken, hb]
    exact ⟨_, _, rfl⟩
  | cons x xs =>
    have hx : Scan.isLineBreak x = true := by
      have := List.head?_dropWhile_not (fun x => !Scan.isLineBreak x) c.rest
      rw [← hrest, hr] at this
      simpa using this
    have hb : (c.skipLine.skipBlanks tabWidth).rest = x :: xs := by
      have : Scan.isBlank x = false := by
        simp only [Scan.isLineBreak, Bool.or_eq_true, beq_iff_eq] at hx
        obtain rfl | rfl := hx <;> rfl
      simp [skipBlanks, hr, this]
    have hs : (c.skipLine.skipBlanks tabWidth).skipComment = c.skipLine.skipBlanks tabWidth := by
      unfold skipComment
      split
      next h =>
        rw [hb] at h
        cases h
        simp [Scan.isLineBreak] at hx
      · rfl
    simp only [scan, readToken, hs, hb, hx, if_true]
    exact ⟨_, _, rfl⟩

end Cursor

namespace Scanner

/-- A lenient scanner always finds a token. -/
theorem next_lenient {s : Scanner} (h : s.mode.lenient = true) :
    ∃ t s', s.next = (.ok t, s') ∧ s'.mode = s.mode := by
  unfold next
  split
  · exact ⟨_, _, rfl, rfl⟩
  next e c _ =>
    obtain ⟨t, c', hc⟩ := c.scan_skipLine s.mode.tabWidth
    simp only [h, if_true, hc]
    exact ⟨_, _, rfl, rfl⟩

theorem next_ok {s s' : Scanner} {t : Token} (h : s.next = (.ok t, s')) :
    s'.mode = s.mode ∧ (t.isEndOfFile = false → s'.cursor.rest.length < s.cursor.rest.length) := by
  unfold next at h
  split at h
  next hc =>
    cases h
    exact ⟨rfl, Cursor.scan_length hc⟩
  next e c hc =>
    split at h
    · dsimp only at h
      have hr := congrArg Prod.fst h
      have hs' := congrArg Prod.snd h
      dsimp only at hr hs'
      subst hs'
      refine ⟨rfl, fun ht => ?_⟩
      have h₁ := Cursor.scan_error_length hc
      have h₂ := c.skipLine_length
      have h₃ := Cursor.scan_length (Prod.ext hr rfl) ht
      exact Nat.lt_of_lt_of_le h₃ (Nat.le_trans h₂ h₁)
    · cases h

theorem next_errors (s : Scanner) : s.errors <+: s.next.2.errors := by
  unfold next
  split
  · exact List.prefix_rfl
  · split
    · exact List.prefix_append _ _
    · exact List.prefix_rfl

/-- With enough readings a scanner comes to the end of the source, unless an error stops it. -/
theorem drain_last {n : Nat} {s : Scanner} (hn : s.cursor.rest.length < n)
    (hs : (s.drain n).2.1 = none) :
    ∃ t, (s.drain n).1.getLast? = some t ∧ t.isEndOfFile = true := by
  induction n generalizing s with
  | zero => omega
  | succ n ih =>
    unfold drain at hs ⊢
    split at hs
    · cases hs
    next t s' hnext =>
      split at hs
      next ht =>
        simp only [ht, if_true]
        exact ⟨t, rfl, ht⟩
      next ht =>
        have hlt := (next_ok hnext).2 (by simpa using ht)
        obtain ⟨u, hu, hlast⟩ := ih (by omega) hs
        simp only [ht, Bool.false_eq_true, if_false]
        refine ⟨u, ?_, hlast⟩
        rw [List.getLast?_cons, hu]
        rfl

/-- No error stops a lenient scanner. -/
theorem drain_lenient {n : Nat} {s : Scanner} (h : s.mode.lenient = true) :
    (s.drain n).2.1 = none := by
  induction n generalizing s with
  | zero => rfl
  | succ n ih =>
    obtain ⟨t, s', hnext, hmode⟩ := next_lenient h
    unfold drain
    simp only [hnext]
    split
    · rfl
    · exact ih (hmode ▸ h)

/-- An error stops a scanner in front of the end of the source. -/
theorem drain_stopped {n : Nat} {s : Scanner} {e : LexError} (h : (s.drain n).2.1 = some e) :
    ∀ t ∈ (s.drain n).1, t.isEndOfFile = false := by
  induction n generalizing s with
  | zero => cases h
  | succ n ih =>
    unfold drain at h ⊢
    split at h
    · intro t ht
      simp_all
    next u s' hnext =>
      split at h
      · cases h
      next hu =>
        simp only [hu, Bool.false_eq_true, if_false, List.forall_mem_cons, true_and]
        exact ih h

/-- A scanner only adds to the errors that it passed over. -/
theorem drain_errors (n : Nat) (s : Scanner) : s.errors <+: (s.drain n).2.2 := by
  induction n generalizing s with
  | zero => exact List.prefix_rfl
  | succ n ih =>
    have hnext := s.next_errors
    unfold drain
    split
    next heq =>
      rw [heq] at hnext
      exact hnext
    next t s' heq =>
      rw [heq] at hnext
      split
      · exact hnext
      · exact hnext.trans (ih s')

/-- A lenient scanner reads what a strict one reads, and goes on where an error stops that. -/
theorem drain_strict_lenient (n tabWidth : Nat) (c : Cursor) (errors : List LexError) :
    let strict := drain n ⟨⟨false, tabWidth⟩, c, []⟩
    let lenient := drain n ⟨⟨true, tabWidth⟩, c, errors⟩
    strict.2.2 = [] ∧
      match strict.2.1 with
      | none => lenient.1 = strict.1 ∧ lenient.2.2 = errors
      | some e => strict.1 <+: lenient.1 ∧ errors ++ [e] <+: lenient.2.2 := by
  induction n generalizing c with
  | zero => exact ⟨rfl, rfl, rfl⟩
  | succ n ih =>
    cases hc : c.scan tabWidth with
    | mk r c' =>
      cases r with
      | error e =>
        have hs : next ⟨⟨false, tabWidth⟩, c, []⟩ = (.error e, ⟨⟨false, tabWidth⟩, c', []⟩) := by
          simp [next, hc]
        have hl : (next ⟨⟨true, tabWidth⟩, c, errors⟩).2.errors = errors ++ [e] := by
          simp [next, hc]
        simp only [drain, hs, List.nil_prefix, true_and]
        split
        next heq =>
          rw [heq] at hl
          simp only at hl
          exact hl ▸ List.prefix_rfl
        next t s' heq =>
          rw [heq] at hl
          simp only at hl
          split
          · exact hl ▸ List.prefix_rfl
          · have := drain_errors n s'
            rw [hl] at this
            exact this
      | ok t =>
        have hs : next ⟨⟨false, tabWidth⟩, c, []⟩ = (.ok t, ⟨⟨false, tabWidth⟩, c', []⟩) := by
          simp [next, hc]
        have hl : next ⟨⟨true, tabWidth⟩, c, errors⟩ =
            (.ok t, ⟨⟨true, tabWidth⟩, c', errors⟩) := by
          simp [next, hc]
        simp only [drain, hs, hl]
        split
        · exact ⟨rfl, rfl, rfl⟩
        · obtain ⟨he, hi⟩ := ih c'
          refine ⟨he, ?_⟩
          revert hi
          dsimp only
          split
          · rintro ⟨h₁, h₂⟩
            exact ⟨by rw [h₁], h₂⟩
          · rintro ⟨h₁, h₂⟩
            exact ⟨(List.cons_prefix_cons).2 ⟨rfl, h₁⟩, h₂⟩

end Scanner

namespace TokenStream

/-- The tokens that a strict scanner reads, and how a lenient one reads on. -/
theorem ofSource_strict_lenient (tabWidth : Nat) (source : String) :
    let strict := ofSource ⟨false, tabWidth⟩ source
    let lenient := ofSource ⟨true, tabWidth⟩ source
    strict.errors = [] ∧
      match strict.stop with
      | none => lenient.tokens = strict.tokens ∧ lenient.errors = []
      | some e => strict.tokens <+: lenient.tokens ∧ [e] <+: lenient.errors :=
  Scanner.drain_strict_lenient (source.length + 1) tabWidth (Cursor.ofSource source) []

theorem ofSource_lenient (tabWidth : Nat) (source : String) :
    (ofSource ⟨true, tabWidth⟩ source).stop = none :=
  Scanner.drain_lenient rfl

theorem ofSource_stopped {mode : ReadingMode} {source : String} {e : LexError}
    (h : (ofSource mode source).stop = some e) :
    ∀ t ∈ (ofSource mode source).tokens, t.isEndOfFile = false :=
  Scanner.drain_stopped h

end TokenStream

end LineScript
