import LineScript.Proofs.Grammar.Drawn
import LineScript.Proofs.Token.FirstLine
import LineScript.Proofs.Token.Positions

/-!
# Texts between quotes

A text is written as a string literal between quotes, with its own quotes doubled. Main statement:
what is written so is read back as one token with the text for its value, whatever characters the
text has, and every string literal that a tree keeps has the very characters of the source that the
span of its token marks for its raw text.
-/

namespace LineScript

open Scan

/-- A text as a string literal: every quote in it is doubled. -/
def quoted (s : String) : String :=
  String.ofList ('"' :: s.toList.flatMap (fun x => if x = '"' then ['"', '"'] else [x]) ++ ['"'])

namespace Scan

theorem escape_eq_flatMap (cs : List Char) :
    escape cs = cs.flatMap fun x => if x = '"' then ['"', '"'] else [x] := by
  fun_induction escape cs with
  | case1 cs ih => simp [ih]
  | case2 c cs hc ih =>
    have hc : c ≠ '"' := hc
    simp [ih, hc]
  | case3 => rfl

/-- Doubled quotes do not close a string literal, and the quote behind them does. -/
theorem quotedBody_escape (cs : List Char) : quotedBody (escape cs ++ ['"']) = escape cs := by
  fun_induction escape cs with
  | case1 cs ih => simpa [quotedBody] using ih
  | case2 c cs hc ih => rw [List.cons_append, quotedBody_cons hc, ih]
  | case3 => rfl

end Scan

namespace Cursor

/-- A text between quotes is scanned to one string literal, up to the end of the source. -/
theorem scan_quoted {c : Cursor} {s : String} (tabWidth : Nat)
    (hc : c.rest = '"' :: escape s.toList ++ ['"']) :
    ∃ t c', c.scan tabWidth = (.ok t, c') ∧ t.kind = .string ∧ t.value = s ∧
      t.span = .between c.offset (c.offset + c.rest.length) ∧ c'.rest = [] := by
  have hskip : (c.skipBlanks tabWidth).skipComment = c := by
    obtain ⟨rest, offset, line, column⟩ := c
    subst hc
    rfl
  have hbody : quotedBody (c.rest.drop 1) = escape s.toList := by
    rw [hc]
    exact quotedBody_escape _
  have hinner : ((c.advance 1).across (escape s.toList)).rest = ['"'] := by
    simp [hc]
  refine ⟨c.tokenTo (((c.advance 1).across (escape s.toList)).advance 1) .string s,
    ((c.advance 1).across (escape s.toList)).advance 1, ?_, rfl, rfl, ?_, by simp [hc]⟩
  · have hread : c.readToken = c.stringToken := by
      unfold readToken
      simp only [hc, List.cons_append]
      rfl
    rw [scan, hskip, hread]
    unfold stringToken
    simp only [hbody, hinner, unescape_escape, String.ofList_toList]
  · simp only [tokenTo, advance, across_offset, hc, List.length_append, List.length_cons,
      List.length_nil]
    congr 1
    omega

end Cursor

/-- A text between quotes is read back as one token, with nothing behind it. -/
theorem TokenStream.ofSource_quoted (tabWidth : Nat) (s : String) :
    ∃ t e, ofSource ⟨false, tabWidth⟩ (quoted s) = ⟨[t, e], none, []⟩ ∧ t.kind = .string ∧
      t.value = s ∧ t.span = .between 0 (quoted s).length ∧ e.isEndOfFile = true := by
  have hrest : (Cursor.ofSource (quoted s)).rest = '"' :: escape s.toList ++ ['"'] := by
    rw [escape_eq_flatMap]
    simp [Cursor.ofSource, quoted]
  obtain ⟨t, c, hscan, hk, hvalue, hspan, hnil⟩ := Cursor.scan_quoted tabWidth hrest
  obtain ⟨e, hend, he⟩ := Cursor.scan_nil tabWidth hnil
  have hnot : t.isEndOfFile = false := by simp [Token.isEndOfFile, hk]
  refine ⟨t, e, ofSource_of_scans (.next hscan hnot .done) hend he, hk, hvalue, ?_, he⟩
  rw [hspan, ← String.length_toList]
  simp [Cursor.ofSource]

namespace Scanner

/-- Every token that a scanner reads is read off the source by a cursor that stands in it. -/
theorem drain_read {source : List Char} (n : Nat) {s : Scanner} (hs : s.cursor.Stands source) :
    ∀ t ∈ (s.drain n).1, ∃ c c' : Cursor, c.Stands source ∧ c.readToken = (.ok t, c') := by
  induction n generalizing s with
  | zero => simp [drain]
  | succ n ih =>
    rcases hnext : s.next with ⟨e | t, s'⟩
    · simp [drain, hnext]
    obtain ⟨c, hc, hread⟩ := (next_comes hnext).reads hs
    have hs' := (next_comes hnext).stands hs
    intro u hu
    unfold drain at hu
    rw [hnext] at hu
    dsimp only at hu
    split at hu
    · rw [List.mem_singleton.1 hu]
      exact ⟨c, _, hc, hread⟩
    · rcases List.mem_cons.1 hu with rfl | hu
      · exact ⟨c, _, hc, hread⟩
      · exact ih hs' u hu

end Scanner

/-- A span marks a text in a source: the text stands between its two offsets, as far as these are
told apart. -/
def Span.Marks (s : Span) (source text : List Char) : Prop :=
  ∃ front behind, source = front ++ (text ++ behind) ∧
    s = .between front.length (front.length + text.length)

theorem Span.Marks.slice {s : Span} {source text : List Char} (h : s.Marks source text)
    (hfits : source.length ≤ lastOffset) : s.slice source = text := by
  obtain ⟨front, behind, rfl, rfl⟩ := h
  simp only [List.length_append] at hfits
  rw [between_eq (Nat.le_add_right _ _) (by omega), Span.slice, List.drop_left,
    Nat.add_sub_cancel_left, List.take_left]

/-- A string literal is written between quotes where its span marks it, with its own quotes doubled.
-/
theorem TokenStream.marks_string {mode : ReadingMode} {source : String} {t : Token}
    (ht : t ∈ (ofSource mode source).tokens) (hk : t.kind = .string) :
    t.span.Marks source.toList ('"' :: escape t.value.toList ++ ['"']) := by
  obtain ⟨c, c', hc, hread⟩ := Scanner.drain_read _ (Cursor.ofSource_stands source) t ht
  obtain ⟨text, tail, htakes⟩ := Cursor.readToken_takes hread (by simp [Token.isEndOfFile, hk])
  have htext : text = '"' :: escape t.value.toList ++ ['"'] := by
    cases htakes.spells with
    | plain _ _ hstring => exact absurd hk hstring
    | semicolon hline =>
      rw [hline] at hk
      cases hk
    | string => rfl
    | lineBreak hline =>
      rw [hline] at hk
      cases hk
    | pairedBreak hline =>
      rw [hline] at hk
      cases hk
  have hoffset : (source.toList.take c.offset).length = c.offset := by
    rw [List.length_take, Nat.min_eq_left hc.inside]
  refine ⟨source.toList.take c.offset, tail ++ c'.rest, ?_, ?_⟩
  · rw [← htext, ← htakes.rest, ← hc.rest, List.take_append_drop]
  · rw [hoffset, ← htext]
    exact htakes.span

/-- The raw text of a string literal is its text in the source. -/
theorem Reading.literalOf_string {t : Token} (hk : t.kind = .string) :
    (literalOf t).1 = .string t.value ∧
      (literalOf t).2.toList = '"' :: escape t.value.toList ++ ['"'] := by
  simp [literalOf, hk]

/-- String literals go there and back. A text between quotes with its own quotes doubled is read as
one string literal with that text, and as nothing else. Every string literal of a source text has
for its raw text what its span marks there, between whose quotes escaping undoes unescaping; and
every string literal in a tree, at whatever depth, has for its raw text what the span of its token
marks. Where all offsets are told apart, that is the slice of the source at the span. -/
theorem string_literals_round_trip :
    (∀ tabWidth s, ∃ t e, TokenStream.ofSource ⟨false, tabWidth⟩ (quoted s) = ⟨[t, e], none, []⟩ ∧
      t.kind = .string ∧ t.value = s ∧ t.span = .between 0 (quoted s).length ∧
      e.isEndOfFile = true) ∧
    (∀ mode source, ∀ t ∈ (TokenStream.ofSource mode source).tokens, t.kind = .string →
      (Reading.literalOf t).1 = .string t.value ∧
      t.span.Marks source.toList (Reading.literalOf t).2.toList ∧
      (source.length ≤ Span.lastOffset →
        (Reading.literalOf t).2.toList = t.span.slice source.toList) ∧
      ∃ body, (Reading.literalOf t).2.toList = '"' :: body ++ ['"'] ∧
        unescape body = t.value.toList ∧ escape (unescape body) = body) ∧
    ∀ mode source p, parse mode source = .ok p → p.chunk.Everywhere fun n =>
      ∀ e s raw, n = .literal e (.string s) raw →
        ∃ t ∈ (TokenStream.ofSource mode source).tokens, t.kind = .string ∧ e = t.extent ∧
          s = t.value ∧ t.span.Marks source.toList raw.toList ∧
          (source.length ≤ Span.lastOffset → raw.toList = t.span.slice source.toList) := by
  refine ⟨TokenStream.ofSource_quoted, ?_, ?_⟩
  · intro mode source t ht hk
    have hmarks := TokenStream.marks_string ht hk
    obtain ⟨hvalue, hraw⟩ := Reading.literalOf_string hk
    rw [← hraw] at hmarks
    refine ⟨hvalue, hmarks, ?_, escape t.value.toList, hraw, unescape_escape _, ?_⟩
    · exact fun hfits => (hmarks.slice (String.length_toList ▸ hfits)).symm
    · rw [unescape_escape]
  · intro mode source p hp
    refine Node.Everywhere.mono ?_ (parse_drawn hp)
    intro n hn e s raw heq
    obtain ⟨t, ht, hk, hextent, hvalue, hraw⟩ := hn e s raw heq
    have hmarks := TokenStream.marks_string ht hk
    rw [← (Reading.literalOf_string hk).2, ← hraw] at hmarks
    refine ⟨t, ht, hk, hextent, hvalue, hmarks, ?_⟩
    exact fun hfits => (hmarks.slice (String.length_toList ▸ hfits)).symm

/-- A source whose string literals have quotes and a line break of their own. -/
def quotedLines : String := "s = \"a\"\"\nb\"\nprint(\"\"\"\")"

theorem string_literals_round_trip_quotedLines :
    quotedLines.length ≤ Span.lastOffset ∧
    (∃ t ∈ (TokenStream.ofSource ⟨false, 4⟩ quotedLines).tokens, t.kind = .string ∧
      t.value = "a\"\nb" ∧ (Reading.literalOf t).2 = "\"a\"\"\nb\"") ∧
    ∃ p, parse ⟨false, 4⟩ quotedLines = .ok p ∧ p.chunk.Everywhere fun n =>
      ∀ e s raw, n = .literal e (.string s) raw →
        ∃ t ∈ (TokenStream.ofSource ⟨false, 4⟩ quotedLines).tokens, t.kind = .string ∧
          e = t.extent ∧ s = t.value ∧ raw.toList = t.span.slice quotedLines.toList := by
  have hfits : quotedLines.length ≤ Span.lastOffset := by decide +kernel
  have htoken : ∃ t ∈ (TokenStream.ofSource ⟨false, 4⟩ quotedLines).tokens, t.kind = .string ∧
      t.value = "a\"\nb" ∧ t.span.slice quotedLines.toList = "\"a\"\"\nb\"".toList := by
    decide +kernel
  have hparse : (parse ⟨false, 4⟩ quotedLines).isOk := by decide +kernel
  obtain ⟨_, hraw, htree⟩ := string_literals_round_trip
  obtain ⟨t, ht, hk, hvalue, hslice⟩ := htoken
  refine ⟨hfits, ⟨t, ht, hk, hvalue, ?_⟩, ?_⟩
  · rw [← String.toList_inj, (hraw _ _ t ht hk).2.2.1 hfits, hslice]
  · cases hp : parse ⟨false, 4⟩ quotedLines with
    | error e =>
      rw [hp] at hparse
      cases hparse
    | ok p =>
      refine ⟨p, rfl, Node.Everywhere.mono ?_ (htree _ _ p hp)⟩
      intro n hn e s raw heq
      obtain ⟨t, ht, hk, hextent, hvalue, -, hslice⟩ := hn e s raw heq
      exact ⟨t, ht, hk, hextent, hvalue, hslice hfits⟩

end LineScript
