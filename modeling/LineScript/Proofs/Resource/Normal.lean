import LineScript.Resource

/-!
# Normal forms of paths

A path is brought into normal form component by component. What is kept are names, with all steps
up in front of them, and a path from the root has no steps up at all. Main statement: a normal form
is its own normal form.
-/

namespace LineScript

namespace Text

variable {d : Char}

theorem split_nil : split [d] [] = [[]] := rfl

theorem split_cons (c : Char) (cs : List Char) :
    split [d] (c :: cs) = if d = c then [] :: split [d] cs else consHead c (split [d] cs) := by
  by_cases h : d = c
  · simp [split, splitFrom, h]
  · simp [split, splitFrom, h]

theorem split_ne_nil (text : List Char) : split [d] text ≠ [] := by
  cases text with
  | nil => simp [split_nil]
  | cons c cs =>
    rw [split_cons]
    split
    · simp
    · cases split [d] cs <;> simp [consHead]

/-- No piece has the delimiter in it. -/
theorem not_mem_of_mem_split {text piece : List Char} (h : piece ∈ split [d] text) :
    d ∉ piece := by
  induction text generalizing piece with
  | nil => simp_all [split_nil]
  | cons c cs ih =>
    rw [split_cons] at h
    split at h
    next =>
      rcases List.mem_cons.1 h with rfl | h
      · simp
      · exact ih h
    next hne =>
      cases hs : split [d] cs with
      | nil => exact absurd hs (split_ne_nil cs)
      | cons p ps =>
        rw [hs] at h ih
        rcases List.mem_cons.1 h with rfl | h
        · have hp := ih List.mem_cons_self
          simp [hne, hp]
        · exact ih (List.mem_cons_of_mem _ h)

/-- A text without the delimiter goes into the first piece. -/
theorem split_append {front : List Char} (h : d ∉ front) (text : List Char) :
    ∃ p ps, split [d] text = p :: ps ∧ split [d] (front ++ text) = (front ++ p) :: ps := by
  induction front with
  | nil =>
    obtain ⟨p, ps, hs⟩ := List.exists_cons_of_ne_nil (split_ne_nil (d := d) text)
    exact ⟨p, ps, hs, hs⟩
  | cons c cs ih =>
    simp only [List.mem_cons, not_or] at h
    obtain ⟨p, ps, hs, happend⟩ := ih h.2
    refine ⟨p, ps, hs, ?_⟩
    rw [List.cons_append, split_cons, if_neg h.1, happend]
    rfl

/-- Pieces without the delimiter are found again when they were put together with it. -/
theorem split_join {pieces : List (List Char)} (hne : pieces ≠ [])
    (h : ∀ piece ∈ pieces, d ∉ piece) : split [d] (join [d] pieces) = pieces := by
  induction pieces with
  | nil => exact absurd rfl hne
  | cons p ps ih =>
    have hp := h p List.mem_cons_self
    cases ps with
    | nil =>
      obtain ⟨q, qs, hs, happend⟩ := split_append hp []
      rw [split_nil] at hs
      cases hs
      simpa [join] using happend
    | cons q qs =>
      obtain ⟨r, rs, hs, happend⟩ := split_append hp (d :: join [d] (q :: qs))
      rw [split_cons, if_pos rfl, ih (by simp) fun s hs => h s (List.mem_cons_of_mem _ hs)] at hs
      cases hs
      simpa [join] using happend

end Text

namespace FilePath

/-- Components in normal form, in reverse order: names, and behind them the steps up, which a path
from the root does not have. -/
inductive Normal (absolute : Bool) : List (List Char) → Prop where
  | nil : Normal absolute []
  | up {before : List (List Char)} (relative : absolute = false)
      (above : ∀ c ∈ before, c = ['.', '.']) (h : Normal absolute before) :
      Normal absolute (['.', '.'] :: before)
  | name {c : List Char} {before : List (List Char)} (ne_nil : c ≠ []) (ne_here : c ≠ ['.'])
      (ne_up : c ≠ ['.', '.']) (no_slash : '/' ∉ c) (h : Normal absolute before) :
      Normal absolute (c :: before)

namespace Normal

variable {absolute : Bool} {before : List (List Char)} {c : List Char}

theorem tail (h : Normal absolute (c :: before)) : Normal absolute before := by
  cases h with
  | up _ _ h => exact h
  | name _ _ _ _ h => exact h

theorem of_mem (h : Normal absolute before) (hc : c ∈ before) : c ≠ [] ∧ '/' ∉ c := by
  induction h with
  | nil => cases hc
  | up _ _ _ ih =>
    rcases List.mem_cons.1 hc with rfl | hc
    · decide
    · exact ih hc
  | name ne_nil _ _ no_slash _ ih =>
    rcases List.mem_cons.1 hc with rfl | hc
    · exact ⟨ne_nil, no_slash⟩
    · exact ih hc

/-- Following a component leaves components in normal form. -/
theorem follow (h : Normal absolute before) (hc : '/' ∉ c) :
    Normal absolute (follow absolute before c) := by
  unfold FilePath.follow
  by_cases hstay : (c == [] || c == ['.']) = true
  · rw [if_pos hstay]
    exact h
  rw [if_neg hstay]
  simp only [Bool.or_eq_true, beq_iff_eq, not_or] at hstay
  by_cases hup : (c == ['.', '.']) = true
  · rw [if_pos hup]
    obtain rfl := eq_of_beq hup
    cases before with
    | nil =>
      cases absolute with
      | true => exact .nil
      | false => exact .up rfl (by simp) .nil
    | cons last others =>
      dsimp only
      by_cases hlast : (last != ['.', '.']) = true
      · rw [if_pos hlast]
        exact h.tail
      · rw [if_neg hlast]
        obtain rfl : last = ['.', '.'] := by simpa using hlast
        cases h with
        | name _ _ ne_up _ _ => exact absurd rfl ne_up
        | up relative above h =>
          rw [if_neg (by simp [relative])]
          exact .up relative (by simpa using above) (.up relative above h)
  · rw [if_neg hup]
    exact .name hstay.1 hstay.2 (by simpa using hup) hc h

/-- Components in normal form are all kept. -/
theorem follow_eq (h : Normal absolute (c :: before)) :
    FilePath.follow absolute before c = c :: before := by
  unfold FilePath.follow
  cases h with
  | name ne_nil ne_here ne_up _ _ => simp [ne_nil, ne_here, ne_up]
  | up relative above _ =>
    cases before with
    | nil => simp [relative]
    | cons last others =>
      have hlast := above last List.mem_cons_self
      simp [relative, hlast]

theorem foldl_reverse (h : Normal absolute before) :
    before.reverse.foldl (FilePath.follow absolute) [] = before := by
  induction before with
  | nil => rfl
  | cons c before ih =>
    rw [List.reverse_cons, List.foldl_append, ih h.tail]
    exact h.follow_eq

end Normal

theorem foldl_normal {absolute : Bool} {before pieces : List (List Char)}
    (h : Normal absolute before) (hpieces : ∀ c ∈ pieces, '/' ∉ c) :
    Normal absolute (pieces.foldl (follow absolute) before) := by
  induction pieces generalizing before with
  | nil => exact h
  | cons c pieces ih =>
    exact ih (h.follow (hpieces c List.mem_cons_self))
      fun d hd => hpieces d (List.mem_cons_of_mem _ hd)

theorem components_normal (path : List Char) :
    Normal (isAbsolute path) (components path).reverse := by
  unfold components
  rw [List.reverse_reverse]
  exact foldl_normal .nil fun c hc => Text.not_mem_of_mem_split hc

/-- The components of a path that was put together from components in normal form. -/
theorem foldl_split_join {absolute : Bool} {pieces : List (List Char)}
    (h : Normal absolute pieces.reverse) :
    (Text.split ['/'] (Text.join ['/'] pieces)).foldl (follow absolute) [] = pieces.reverse := by
  cases pieces with
  | nil => rfl
  | cons p ps =>
    have hslash : ∀ c ∈ p :: ps, '/' ∉ c := by
      intro c hc
      exact (h.of_mem (List.mem_reverse.2 hc)).2
    rw [Text.split_join (by simp) hslash]
    simpa using h.foldl_reverse

theorem isAbsolute_join {absolute : Bool} {pieces : List (List Char)}
    (h : Normal absolute pieces.reverse) : isAbsolute (Text.join ['/'] pieces) = false := by
  cases pieces with
  | nil => rfl
  | cons p ps =>
    obtain ⟨hne, hslash⟩ := h.of_mem (c := p) (by simp)
    cases p with
    | nil => exact absurd rfl hne
    | cons c cs =>
      have hc : c ≠ '/' := by
        rintro rfl
        simp at hslash
      have hjoin : ∃ rest, Text.join ['/'] ((c :: cs) :: ps) = c :: rest := by
        cases ps with
        | nil => exact ⟨cs, rfl⟩
        | cons q qs => exact ⟨_, rfl⟩
      obtain ⟨rest, hrest⟩ := hjoin
      rw [hrest]
      unfold isAbsolute
      split
      next heq => exact absurd (List.cons.inj heq).1 hc
      · rfl

theorem isAbsolute_normalizeChars (path : List Char) :
    isAbsolute (normalizeChars path) = isAbsolute path := by
  unfold normalizeChars
  cases h : isAbsolute path with
  | true => rfl
  | false => simpa using isAbsolute_join (components_normal path)

theorem normalizeChars_normalizeChars (path : List Char) :
    normalizeChars (normalizeChars path) = normalizeChars path := by
  have hnormal := components_normal path
  have habs := isAbsolute_normalizeChars path
  have hcomponents : components (normalizeChars path) = components path := by
    rw [components, habs]
    have hkept := foldl_split_join hnormal
    cases h : isAbsolute path with
    | true =>
      rw [h] at hkept
      simp [normalizeChars, h, Text.split_cons, follow, hkept]
    | false =>
      rw [h] at hkept
      simp [normalizeChars, h, hkept]
  rw [normalizeChars, hcomponents, habs]
  rfl

/-- A normal form is its own normal form. -/
theorem normalize_normalize (path : String) : normalize (normalize path) = normalize path := by
  simp [normalize, normalizeChars_normalizeChars]

/-- A path seen from the directory of a file is in normal form. -/
theorem normalize_relativeTo (source path : String) :
    normalize (relativeTo source path) = relativeTo source path := by
  simp [normalize, relativeTo, normalizeChars_normalizeChars]

end FilePath

namespace Library

variable {l : Library} {source path key : String}

/-- A path is resolved to a normal form under which there is a file. -/
theorem resolve?_eq_some (h : l.resolve? source path = some key) :
    FilePath.normalize key = key ∧ (l.find? key).isSome = true := by
  unfold resolve? at h
  dsimp only at h
  split at h
  next hfound =>
    cases h
    exact ⟨FilePath.normalize_relativeTo source path, hfound⟩
  · cases h

end Library

end LineScript
