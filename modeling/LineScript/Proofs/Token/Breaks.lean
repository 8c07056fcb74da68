import LineScript.Proofs.Token.Words

/-!
# Line breaks between texts

A line break in front of a text makes a pair with the first character of the text if that breaks a
line too, and then every pair behind it is another one. What the breaks in front leave to be scanned
is scanned as it is without them.
-/

namespace LineScript

open Scan

namespace Cursor

variable {tabWidth : Nat} {c d : Cursor} {tail : List Char}

/-- No blank and no comment stands in front of a line break. -/
theorem skip_break {x : Char} (hc : c.rest = x :: tail) (hx : isLineBreak x = true) :
    (c.skipBlanks tabWidth).skipComment = c := by
  have hblank : c.rest.takeWhile isBlank = [] := by
    rw [hc, List.takeWhile_cons, isBlank_lineBreak hx]
    rfl
  have hskip : c.skipBlanks tabWidth = c := by
    simp only [skipBlanks, hblank]
    rfl
  rw [hskip]
  unfold skipComment
  split
  next h =>
    rw [hc] at h
    cases h
    cases hx
  · rfl

theorem scan_break {x : Char} (hc : c.rest = x :: tail) (hx : isLineBreak x = true) :
    c.scan tabWidth = (.ok c.lineBreak.1, c.lineBreak.2) := by
  rw [scan, skip_break hc hx]
  simp only [readToken, hc, hx, if_true]

theorem lineBreak_isEndOfLine (c : Cursor) : c.lineBreak.1.isEndOfLine = true := rfl

theorem lineBreak_single {x : Char} (hc : c.rest = x :: tail)
    (hpair : lineBreakLength (x :: tail) = 1) :
    c.lineBreak.2 = ⟨tail, c.offset + 1, c.line + 1, 1⟩ := by
  simp [lineBreak, breakLine, hc, hpair]

theorem lineBreak_pair {x y : Char} (hc : c.rest = x :: y :: tail)
    (hpair : lineBreakLength (x :: y :: tail) = 2) :
    c.lineBreak.2 = ⟨tail, c.offset + 2, c.line + 1, 1⟩ := by
  simp [lineBreak, breakLine, hc, hpair]

theorem lineBreakLength_newline (h : tail.head? ≠ some '\r') :
    lineBreakLength ('\n' :: tail) = 1 := by
  cases tail with
  | nil => rfl
  | cons y tail =>
    have hy : y ≠ '\r' := by simpa using h
    simp [lineBreakLength, hy]

theorem lineBreakLength_return (h : tail.head? ≠ some '\n') :
    lineBreakLength ('\r' :: tail) = 1 := by
  cases tail with
  | nil => rfl
  | cons y tail =>
    have hy : y ≠ '\n' := by simpa using h
    simp [lineBreakLength, hy]

namespace Scans

variable {ts us : List Token}

/-- A line break is scanned to one token. -/
theorem break_next {x : Char} (hc : c.rest = x :: tail) (hx : isLineBreak x = true)
    (h : Scans tabWidth c.lineBreak.2 ts d) : Scans tabWidth c (c.lineBreak.1 :: ts) d :=
  .next (scan_break hc hx) rfl h

end Scans

/-- The texts behind `\r` and without it are scanned to line ends up to a common place, at which the
second is `offset` characters further on. -/
theorem scans_meet (tabWidth n : Nat) (hn : c.rest.length ≤ n) (hc : c.rest = '\r' :: tail) :
    ∃ as c' m, Scans tabWidth c as c' ∧ (∀ t ∈ as, t.isEndOfLine = true) ∧
      ∀ (lines offset : Nat) (d : Cursor), d.rest = tail → d.line = c.line + (lines + 1) →
        d.offset = c.offset + (offset + 1) → d.column = 1 →
        ∃ bs lines', bs.length = m ∧ (∀ t ∈ bs, t.isEndOfLine = true) ∧
          Scans tabWidth d bs (c'.shift lines' offset 0) := by
  induction n generalizing c tail with
  | zero =>
    rw [hc] at hn
    exact absurd hn (by simp)
  | succ n ih =>
    by_cases hpair : tail.head? = some '\n'
    · obtain ⟨tail, rfl⟩ := List.head?_eq_some_iff.1 hpair
      have hnext := lineBreak_pair hc rfl
      by_cases hagain : tail.head? = some '\r'
      · -- Both move over a pair, and are where they were with respect to each other.
        obtain ⟨tail, rfl⟩ := List.head?_eq_some_iff.1 hagain
        have hrest : c.lineBreak.2.rest = '\r' :: tail := by rw [hnext]
        have hlt : c.lineBreak.2.rest.length ≤ n := by
          rw [hc] at hn
          rw [hrest]
          simp only [List.length_cons] at hn ⊢
          omega
        obtain ⟨as, c', m, has, heol, hmeet⟩ := ih hlt hrest
        refine ⟨c.lineBreak.1 :: as, c', m + 1, has.break_next hc rfl,
          List.forall_mem_cons.2 ⟨rfl, heol⟩, ?_⟩
        intro lines offset d hd hline hoffset hcolumn
        have hdnext := lineBreak_pair hd rfl
        obtain ⟨bs, lines', hm, hbs, hscans⟩ := hmeet lines offset d.lineBreak.2
          (by rw [hdnext]) (by simp only [hdnext, hnext]; omega)
          (by simp only [hdnext, hnext]; omega) (by rw [hdnext])
        exact ⟨d.lineBreak.1 :: bs, lines', by simp [hm], List.forall_mem_cons.2 ⟨rfl, hbs⟩,
          hscans.break_next hd rfl⟩
      · refine ⟨[c.lineBreak.1], c.lineBreak.2, 1, Scans.done.break_next hc rfl,
          by simp [lineBreak_isEndOfLine], ?_⟩
        intro lines offset d hd hline hoffset hcolumn
        have hdnext := lineBreak_single hd (lineBreakLength_newline hagain)
        refine ⟨[d.lineBreak.1], lines + 1, rfl, by simp [lineBreak_isEndOfLine], ?_⟩
        have heq : d.lineBreak.2 = c.lineBreak.2.shift (lines + 1) offset 0 := by
          rw [hdnext, hnext]
          simp only [shift, hline, hoffset, Cursor.mk.injEq, true_and]
          refine ⟨by omega, by omega, by simp⟩
        rw [← heq]
        exact Scans.done.break_next hd rfl
    · have hnext := lineBreak_single hc (lineBreakLength_return hpair)
      refine ⟨[c.lineBreak.1], c.lineBreak.2, 0, Scans.done.break_next hc rfl,
        by simp [lineBreak_isEndOfLine], ?_⟩
      intro lines offset d hd hline hoffset hcolumn
      refine ⟨[], lines, rfl, by simp, ?_⟩
      have heq : d = c.lineBreak.2.shift lines offset 0 := by
        rw [hnext]
        obtain ⟨rest, o, l, k⟩ := d
        simp only at hd hline hoffset hcolumn
        simp only [shift, hd, hline, hoffset, hcolumn, Cursor.mk.injEq, true_and]
        refine ⟨by omega, by omega, by simp⟩
      rw [heq]
      exact .done

/-- A text behind a line break is scanned to line ends and to the tokens that it has behind its own
first line ends, a number of lines down. -/
theorem scans_behind_break {text : String} {ts : List Token} {e : Cursor} {x : Token} {e' : Cursor}
    (h : Scans tabWidth (.ofSource text) ts e) (he : e.scan tabWidth = (.ok x, e'))
    (hx : x.isEndOfFile = true) :
    ∃ as us m, ts = as ++ us ∧ (∀ t ∈ as, t.isEndOfLine = true) ∧
      ∀ c : Cursor, c.rest = '\n' :: text.toList → 1 ≤ c.line →
        ∃ bs lines offset, bs.length = m ∧ (∀ t ∈ bs, t.isEndOfLine = true) ∧
          Scans tabWidth c (c.lineBreak.1 :: bs ++
            us.map (Token.relocate (.shift lines offset 0))) (e.shift lines offset 0) := by
  by_cases hpair : text.toList.head? = some '\r'
  · obtain ⟨tail, htail⟩ := List.head?_eq_some_iff.1 hpair
    obtain ⟨as, d, m, has, heol, hmeet⟩ := scans_meet tabWidth (c := .ofSource text)
      _ (Nat.le_refl _) htail
    obtain ⟨us, rfl, hus⟩ := has.cancel h he hx
    refine ⟨as, us, m, rfl, heol, ?_⟩
    intro c hc hline
    have hnext := lineBreak_pair (hc.trans (congrArg _ htail)) rfl
    obtain ⟨bs, lines, hm, hbs, hscans⟩ := hmeet (c.line - 1) (c.offset + 1) c.lineBreak.2
      (by rw [hnext]) (by simp only [hnext, ofSource]; omega)
      (by simp only [hnext, ofSource]; omega) (by rw [hnext])
    have hshift := (hus.shift lines (c.offset + 1) 0 (has.onPage (ofSource_onPage text))).1
    exact ⟨bs, lines, c.offset + 1, hm, hbs, (hscans.append hshift).break_next hc rfl⟩
  · refine ⟨[], ts, 0, rfl, by simp, ?_⟩
    intro c hc hline
    have hnext := lineBreak_single hc (lineBreakLength_newline hpair)
    have heq : c.lineBreak.2 = (ofSource text).shift c.line (c.offset + 1) 0 := by
      rw [hnext]
      simp [shift, ofSource, Nat.add_comm]
    refine ⟨[], c.line, c.offset + 1, rfl, by simp, Scans.break_next hc rfl ?_⟩
    rw [heq]
    exact (h.shift _ _ 0 (ofSource_onPage text)).1

/-- Behind the last token of a line without pairs of breaks is its line break. -/
theorem rest_of_last_break {t : Token} (hc : c.EndsLine) (hr : '\r' ∉ c.rest)
    (h : c.scan tabWidth = (.ok t, d)) (ht : t.isEndOfLine = true) (hd : d.rest = []) :
    (c.skipBlanks tabWidth).skipComment.rest = ['\n'] := by
  obtain ⟨_, hb⟩ := skipBlanks_extend tabWidth [] hc
  obtain ⟨_, p, hp⟩ := skipComment_extend [] hb
  have hr : '\r' ∉ (c.skipBlanks tabWidth).skipComment.rest := fun hmem =>
    hr ((skipBlanks_suffix tabWidth c).subset ((skipComment_suffix _).subset hmem))
  have hk : t.kind = .endOfLine := by simpa [Token.isEndOfLine] using ht
  have h : (c.skipBlanks tabWidth).skipComment.readToken = (.ok t, d) := h
  generalize (c.skipBlanks tabWidth).skipComment = e at h hp hr ⊢
  -- One character is taken, so that it is the only one.
  have hone : e.rest.length ≤ 1 := by
    have hlength := congrArg List.length hd
    rw [List.length_nil] at hlength
    cases readToken_reads h with
    | atEnd hnil _ => simp [hp] at hnil
    | lineBreak hx _ _ =>
      have hlen : lineBreakLength e.rest = 1 := by
        unfold lineBreakLength
        split
        next heq => exact absurd (by simp [heq]) hr
        next heq => exact absurd (by simp [heq]) hr
        · rfl
      rw [breakLine_rest, hlen, List.length_drop] at hlength
      omega
    | string _ hstring _ => simp [hk] at hstring
    | inLine _ _ _ hline =>
      rw [advance_rest, hline hk, List.length_drop] at hlength
      omega
  rw [hp] at hone ⊢
  obtain rfl : p = [] := List.eq_nil_of_length_eq_zero (by simpa using hone)
  rfl

/-- A space in front changes nothing. -/
theorem scan_space (tabWidth : Nat) (hc : c.rest = ' ' :: tail) :
    c.scan tabWidth = (c.advance 1).scan tabWidth := by
  obtain ⟨rest, offset, line, column⟩ := c
  simp only at hc
  subst hc
  have htake : (' ' :: tail).takeWhile isBlank = ' ' :: tail.takeWhile isBlank := by
    rw [List.takeWhile_cons]
    rfl
  have hwidth (cs : List Char) : blanksWidth tabWidth (' ' :: cs) = 1 + blanksWidth tabWidth cs :=
    rfl
  have hskip : skipBlanks tabWidth ⟨' ' :: tail, offset, line, column⟩ =
      (advance ⟨' ' :: tail, offset, line, column⟩ 1).skipBlanks tabWidth := by
    simp only [skipBlanks, advance, htake, hwidth, List.drop_succ_cons, List.drop_zero,
      List.length_cons, Cursor.mk.injEq, true_and]
    omega
  rw [scan, hskip, scan]

/-- Every place is some place in a source text that begins there. -/
theorem eq_shift_ofSource (hpage : c.OnPage) {text : String} (hc : c.rest = text.toList) :
    c = (ofSource text).shift (c.line - 1) c.offset (c.column - 1) := by
  obtain ⟨h₁, h₂⟩ := hpage
  obtain ⟨rest, offset, line, column⟩ := c
  simp only at h₁ h₂ hc
  simp only [shift, ofSource, hc, if_true, Cursor.mk.injEq, true_and]
  omega

end Cursor

end LineScript
