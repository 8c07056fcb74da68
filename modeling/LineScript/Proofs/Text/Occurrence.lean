import LineScript.Text.Search
import Mathlib.Order.Bounds.Basic

/-!
# Where a text occurs in another

A pattern occurs at a position of a text if the text goes on with it there; the empty pattern occurs
at every position, the end included. Main statements: the search from the front gives the least
position, and the search from the end the greatest, at which the pattern occurs.
-/

namespace LineScript.Text

/-- The pattern stands at a position of the text. -/
def OccursAt (pattern text : List Char) (k : Nat) : Prop :=
  k ≤ text.length ∧ pattern <+: text.drop k

/-- The positions of a text at which the pattern stands. -/
def places (pattern text : List Char) : Set Nat := {k | OccursAt pattern text k}

variable {pattern text : List Char} {c : Char} {cs : List Char} {k : Nat}

theorem occursAt_nil : OccursAt pattern [] k ↔ k = 0 ∧ pattern = [] := by
  simp [OccursAt]

theorem occursAt_zero : OccursAt pattern text 0 ↔ pattern <+: text := by
  simp [OccursAt]

theorem occursAt_succ : OccursAt pattern (c :: cs) (k + 1) ↔ OccursAt pattern cs k := by
  simp [OccursAt]

theorem occursAt_append {front : List Char} :
    OccursAt pattern (front ++ text) (front.length + k) ↔ OccursAt pattern text k := by
  simp [OccursAt]

/-- A pattern that occurs ends inside the text. -/
theorem OccursAt.add_length_le (h : OccursAt pattern text k) :
    k + pattern.length ≤ text.length := by
  have hlength := h.2.length_le
  rw [List.length_drop] at hlength
  have hk := h.1
  omega

/-- Where a pattern occurs, the text has its characters. -/
theorem OccursAt.take_drop (h : OccursAt pattern text k) :
    (text.drop k).take pattern.length = pattern :=
  (List.prefix_iff_eq_take.1 h.2).symm

theorem exists_occursAt_iff : (∃ k, OccursAt pattern text k) ↔ pattern <:+: text := by
  constructor
  · rintro ⟨k, -, h⟩
    exact h.isInfix.trans (List.drop_suffix k text).isInfix
  · rintro ⟨front, back, rfl⟩
    refine ⟨front.length, ?_⟩
    rw [List.append_assoc, ← Nat.add_zero front.length, occursAt_append, occursAt_zero]
    exact List.prefix_append _ _

/-- A pattern occurs in a text at the front, or behind the first character. -/
theorem places_cons : places pattern (c :: cs) =
    {k | k = 0 ∧ pattern <+: c :: cs} ∪ (· + 1) '' places pattern cs := by
  ext k
  cases k with
  | zero => simp [places, occursAt_zero]
  | succ k => simp [places, occursAt_succ]

theorem places_nil (hpattern : pattern ≠ []) : places pattern [] = ∅ := by
  ext k
  simp [places, occursAt_nil, hpattern]

/-- The search from the front gives the least position at which the pattern occurs. -/
theorem indexOf?_eq_some_iff :
    indexOf? pattern text = some k ↔ IsLeast (places pattern text) k := by
  induction text generalizing k with
  | nil =>
    cases pattern with
    | nil => simp [indexOf?, IsLeast, places, occursAt_nil, lowerBounds, eq_comm]
    | cons d ds => simp [indexOf?, IsLeast, places_nil]
  | cons c cs ih =>
    rw [indexOf?]
    by_cases hfront : pattern <+: c :: cs
    · rw [if_pos (List.isPrefixOf_iff_prefix.2 hfront)]
      have hleast : IsLeast (places pattern (c :: cs)) 0 :=
        ⟨occursAt_zero.2 hfront, fun _ _ => Nat.zero_le _⟩
      rw [Option.some_inj, hleast.isLeast_iff_eq]
    · rw [if_neg fun h => hfront (List.isPrefixOf_iff_prefix.1 h)]
      have hplaces : places pattern (c :: cs) = (· + 1) '' places pattern cs := by
        simp [places_cons, hfront]
      rw [hplaces, Option.map_eq_some_iff]
      constructor
      · rintro ⟨j, hj, rfl⟩
        obtain ⟨hmem, hlower⟩ := ih.1 hj
        refine ⟨⟨j, hmem, rfl⟩, ?_⟩
        rintro _ ⟨i, hi, rfl⟩
        exact Nat.succ_le_succ (hlower hi)
      · rintro ⟨⟨j, hmem, rfl⟩, hlower⟩
        exact ⟨j, ih.2 ⟨hmem, fun i hi => Nat.le_of_succ_le_succ (hlower ⟨i, hi, rfl⟩)⟩, rfl⟩

/-- The search from the front gives nothing if and only if the pattern does not occur. -/
theorem indexOf?_eq_none_iff : indexOf? pattern text = none ↔ places pattern text = ∅ := by
  induction text with
  | nil =>
    cases pattern with
    | nil => simpa [indexOf?] using Set.nonempty_iff_ne_empty.1 ⟨0, occursAt_nil.2 ⟨rfl, rfl⟩⟩
    | cons d ds => simp [indexOf?, places_nil]
  | cons c cs ih =>
    rw [indexOf?, places_cons, Set.union_empty_iff, Set.image_eq_empty, ← ih]
    by_cases hfront : pattern <+: c :: cs
    · simp [List.isPrefixOf_iff_prefix.2 hfront, hfront]
    · simp [hfront]

/-- The search from the end gives nothing if and only if the pattern does not occur. -/
theorem lastIndexOf?_eq_none_iff : lastIndexOf? pattern text = none ↔ places pattern text = ∅ := by
  induction text with
  | nil =>
    cases pattern with
    | nil => simpa [lastIndexOf?] using Set.nonempty_iff_ne_empty.1 ⟨0, occursAt_nil.2 ⟨rfl, rfl⟩⟩
    | cons d ds => simp [lastIndexOf?, places_nil]
  | cons c cs ih =>
    rw [lastIndexOf?, places_cons, Set.union_empty_iff, Set.image_eq_empty, ← ih]
    cases hlast : lastIndexOf? pattern cs with
    | some j => simp
    | none => by_cases hfront : pattern <+: c :: cs <;> simp [hfront]

/-- The search from the end gives the greatest position at which the pattern occurs. -/
theorem lastIndexOf?_eq_some_iff :
    lastIndexOf? pattern text = some k ↔ IsGreatest (places pattern text) k := by
  induction text generalizing k with
  | nil =>
    cases pattern with
    | nil => simp [lastIndexOf?, IsGreatest, places, occursAt_nil, upperBounds, eq_comm]
    | cons d ds => simp [lastIndexOf?, IsGreatest, places_nil]
  | cons c cs ih =>
    rw [lastIndexOf?]
    cases hlast : lastIndexOf? pattern cs with
    | some j =>
      have hgreatest : IsGreatest (places pattern (c :: cs)) (j + 1) := by
        obtain ⟨hmem, hupper⟩ := ih.1 hlast
        refine ⟨occursAt_succ.2 hmem, ?_⟩
        intro i hi
        cases i with
        | zero => exact Nat.zero_le _
        | succ i => exact Nat.succ_le_succ (hupper (occursAt_succ.1 hi))
      rw [Option.some_inj, hgreatest.isGreatest_iff_eq]
    | none =>
      have hplaces : places pattern (c :: cs) = {k | k = 0 ∧ pattern <+: c :: cs} := by
        rw [places_cons, lastIndexOf?_eq_none_iff.1 hlast, Set.image_empty, Set.union_empty]
      rw [hplaces]
      by_cases hfront : pattern <+: c :: cs
      · have hgreatest : IsGreatest {k : Nat | k = 0 ∧ pattern <+: c :: cs} 0 :=
          ⟨⟨rfl, hfront⟩, fun i hi => Nat.le_of_eq hi.1⟩
        rw [if_pos (List.isPrefixOf_iff_prefix.2 hfront), Option.some_inj,
          hgreatest.isGreatest_iff_eq]
      · simp [hfront, IsGreatest]

end LineScript.Text
