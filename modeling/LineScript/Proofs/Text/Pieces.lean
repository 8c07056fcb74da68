import LineScript.Proofs.Text.Occurrence
import Mathlib.Data.List.Basic

/-!
# The pieces of a text

A text is cut at the occurrences of a delimiter that are found from the left, each behind the end of
the one before it. Main statements: the delimiter is left in no piece, there is one piece more than
there are such occurrences, the pieces put together with the delimiter are the text again, and put
together with another text they are the text with all those occurrences replaced.
-/

namespace LineScript.Text

/-- The positions of the occurrences of a pattern that are found from a position on: each is the
first behind the end of the one before it, and behind the last there is none. -/
inductive Leftmost (pattern text : List Char) : Nat → List Nat → Prop where
  | done {start : Nat} (none : ∀ k, start ≤ k → ¬ OccursAt pattern text k) :
      Leftmost pattern text start []
  | next {start k : Nat} {ks : List Nat} (le : start ≤ k) (occurs : OccursAt pattern text k)
      (first : ∀ j, start ≤ j → j < k → ¬ OccursAt pattern text j)
      (rest : Leftmost pattern text (k + pattern.length) ks) : Leftmost pattern text start (k :: ks)

namespace Leftmost

variable {pattern text : List Char} {start k : Nat} {ks ks' : List Nat}

/-- The occurrences that are found are determined. -/
theorem unique (h : Leftmost pattern text start ks) (h' : Leftmost pattern text start ks') :
    ks = ks' := by
  induction h generalizing ks' with
  | done none =>
    cases h' with
    | done => rfl
    | next le occurs => exact absurd occurs (none _ le)
  | @next start k ks le occurs first rest ih =>
    cases h' with
    | done none => exact absurd occurs (none _ le)
    | @next _ k' _ le' occurs' first' rest' =>
      obtain rfl : k = k' := by
        rcases Nat.lt_trichotomy k k' with hlt | heq | hlt
        · exact absurd occurs (first' k le hlt)
        · exact heq
        · exact absurd occurs' (first k' le' hlt)
      rw [ih rest']

/-- Behind a longer front the same occurrences are found. -/
theorem behind (front : List Char) (h : Leftmost pattern text start ks) :
    Leftmost pattern (front ++ text) (front.length + start) (ks.map (front.length + ·)) := by
  induction h with
  | done none =>
    refine .done fun k hk => ?_
    obtain ⟨j, rfl⟩ := Nat.exists_eq_add_of_le (Nat.le_of_add_right_le hk)
    rw [occursAt_append]
    exact none j (Nat.le_of_add_le_add_left hk)
  | next le occurs first rest ih =>
    rw [List.map_cons]
    refine .next (Nat.add_le_add_left le _) (occursAt_append.2 occurs) (fun i hi hlt => ?_) ?_
    · obtain ⟨j, rfl⟩ := Nat.exists_eq_add_of_le (Nat.le_of_add_right_le hi)
      rw [occursAt_append]
      exact first j (Nat.le_of_add_le_add_left hi) (Nat.lt_of_add_lt_add_left hlt)
    · rw [Nat.add_assoc]
      exact ih

end Leftmost

/-- The pieces that a text is cut into. The delimiter is left in none of them, and it occurs nowhere
before the place where the text is cut first. -/
inductive CutInto (delimiter : List Char) : List Char → List (List Char) → Prop where
  | whole {piece : List Char} (none : ¬ delimiter <:+: piece) : CutInto delimiter piece [piece]
  | cut {piece rest : List Char} {pieces : List (List Char)}
      (first : ∀ j < piece.length, ¬ OccursAt delimiter (piece ++ (delimiter ++ rest)) j)
      (others : CutInto delimiter rest pieces) :
      CutInto delimiter (piece ++ (delimiter ++ rest)) (piece :: pieces)

namespace CutInto

variable {delimiter text : List Char} {pieces : List (List Char)}

theorem ne_nil (h : CutInto delimiter text pieces) : pieces ≠ [] := by
  cases h <;> simp

/-- A character in front of a text, where no delimiter begins, goes into the first piece. -/
theorem cons {c : Char} (h : CutInto delimiter text pieces) (hfront : ¬ delimiter <+: c :: text) :
    CutInto delimiter (c :: text) (consHead c pieces) := by
  cases h with
  | whole none =>
    refine .whole fun hinfix => ?_
    rcases List.infix_cons_iff.1 hinfix with hbegins | hinfix
    · exact hfront hbegins
    · exact none hinfix
  | @cut piece rest pieces first others =>
    refine @CutInto.cut _ (c :: piece) _ _ (fun j hj => ?_) others
    cases j with
    | zero => exact fun h => hfront (occursAt_zero.1 h)
    | succ j => exact fun h => first j (Nat.lt_of_succ_lt_succ hj) (occursAt_succ.1 h)

/-- The delimiter is left in no piece. -/
theorem not_infix (h : CutInto delimiter text pieces) (hdelimiter : delimiter ≠ []) :
    ∀ piece ∈ pieces, ¬ delimiter <:+: piece := by
  induction h with
  | whole none => simpa using none
  | @cut piece rest pieces first others ih =>
    have hpiece : ¬ delimiter <:+: piece := by
      rintro ⟨front, back, rfl⟩
      have hpos := List.length_pos_of_ne_nil hdelimiter
      refine first front.length ?_ ?_
      · simp only [List.length_append]
        omega
      · rw [List.append_assoc, List.append_assoc, ← Nat.add_zero front.length, occursAt_append,
          occursAt_zero]
        exact List.prefix_append _ _
    exact List.forall_mem_cons.2 ⟨hpiece, ih⟩

/-- There is one piece more than there are occurrences found from the left. -/
theorem leftmost (h : CutInto delimiter text pieces) :
    ∃ ks, Leftmost delimiter text 0 ks ∧ pieces.length = ks.length + 1 := by
  induction h with
  | whole none => exact ⟨[], .done fun k _ hk => none (exists_occursAt_iff.1 ⟨k, hk⟩), rfl⟩
  | @cut piece rest pieces first others ih =>
    obtain ⟨ks, hks, hlength⟩ := ih
    have hrest := hks.behind (piece ++ delimiter)
    rw [List.length_append, Nat.add_zero, List.append_assoc] at hrest
    refine ⟨_, .next (k := piece.length) (Nat.zero_le _) ?_ (fun j _ hj => first j hj) hrest, ?_⟩
    · rw [← Nat.add_zero piece.length, occursAt_append, occursAt_zero]
      exact List.prefix_append _ _
    · simp [hlength]

end CutInto

variable {delimiter text : List Char} {skip : Nat}

theorem splitFrom_ne_nil : splitFrom delimiter skip text ≠ [] := by
  induction text generalizing skip with
  | nil => simp [splitFrom]
  | cons c cs ih =>
    cases skip with
    | zero =>
      rw [splitFrom]
      split
      · simp
      · cases h : splitFrom delimiter 0 cs <;> simp [consHead]
    | succ skip => exact ih

/-- Characters of an occurrence that was found already are passed over. -/
theorem splitFrom_eq_drop : splitFrom delimiter skip text =
    splitFrom delimiter 0 (text.drop skip) := by
  induction text generalizing skip with
  | nil => cases skip <;> simp [splitFrom]
  | cons c cs ih =>
    cases skip with
    | zero => rfl
    | succ skip => exact ih

theorem cutInto_splitFrom (hdelimiter : delimiter ≠ []) (text : List Char) :
    CutInto delimiter text (splitFrom delimiter 0 text) := by
  induction h : text.length using Nat.strong_induction_on generalizing text with
  | _ n ih =>
    subst h
    cases text with
    | nil => exact .whole (by simpa using hdelimiter)
    | cons c cs =>
      rw [splitFrom]
      split
      next hfront =>
        obtain ⟨rest, hrest⟩ := List.isPrefixOf_iff_prefix.1 hfront
        have hdrop : cs.drop (delimiter.length - 1) = rest := by
          cases delimiter with
          | nil => exact absurd rfl hdelimiter
          | cons d ds =>
            obtain ⟨-, rfl⟩ := List.cons.inj hrest
            simp
        rw [splitFrom_eq_drop, hdrop, ← hrest]
        refine @CutInto.cut _ [] _ _ (by simp) (ih _ ?_ rest rfl)
        rw [← hrest, List.length_append]
        have hpos := List.length_pos_of_ne_nil hdelimiter
        omega
      next hfront =>
        refine (ih cs.length (by simp) cs rfl).cons fun hbegins => hfront ?_
        exact List.isPrefixOf_iff_prefix.2 hbegins

/-- A delimiter that is not empty cuts a text at its occurrences found from the left. -/
theorem cutInto_split (hdelimiter : delimiter ≠ []) (text : List Char) :
    CutInto delimiter text (split delimiter text) := by
  rw [split, if_neg (by simpa using hdelimiter)]
  exact cutInto_splitFrom hdelimiter text

section Join

variable {between : List Char} {pieces : List (List Char)}

theorem join_nil_cons (h : pieces ≠ []) :
    join between ([] :: pieces) = between ++ join between pieces := by
  cases pieces with
  | nil => exact absurd rfl h
  | cons p ps => rfl

theorem join_consHead (c : Char) (h : pieces ≠ []) :
    join between (consHead c pieces) = c :: join between pieces := by
  cases pieces with
  | nil => exact absurd rfl h
  | cons p ps => cases ps <;> rfl

theorem join_eq_intercalate : join between pieces = between.intercalate pieces := by
  induction pieces with
  | nil => rfl
  | cons p ps ih =>
    cases ps with
    | nil => simp [join]
    | cons q qs => rw [join, ih, List.intercalate_cons_cons]

/-- Replacing comes to cutting at the occurrences and putting something else between the pieces. -/
theorem replaceFrom_eq_join : replaceFrom delimiter between skip text =
    join between (splitFrom delimiter skip text) := by
  induction text generalizing skip with
  | nil => cases skip <;> rfl
  | cons c cs ih =>
    cases skip with
    | succ skip => exact ih
    | zero =>
      rw [replaceFrom, splitFrom]
      split
      · rw [ih, join_nil_cons splitFrom_ne_nil]
      · rw [ih, join_consHead c splitFrom_ne_nil]

theorem replace_eq_join : replace delimiter between text = join between (split delimiter text) := by
  rw [replace, split]
  split
  · rfl
  · exact replaceFrom_eq_join

/-- The pieces put together with the delimiter between them are the text again. -/
theorem CutInto.join_eq (h : CutInto delimiter text pieces) : join delimiter pieces = text := by
  induction h with
  | whole => rfl
  | @cut piece rest pieces _ others ih =>
    cases pieces with
    | nil => exact absurd rfl others.ne_nil
    | cons p ps => rw [join, ih, List.append_assoc]

theorem join_split : join delimiter (split delimiter text) = text := by
  by_cases hdelimiter : delimiter = []
  · rw [split, if_pos (by simpa using hdelimiter)]
    rfl
  · exact (cutInto_split hdelimiter text).join_eq

end Join

end LineScript.Text
