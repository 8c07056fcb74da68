import LineScript.Proofs.Resource.Normal
import Mathlib.Data.List.Induction

/-!
# Canonical paths

The paths in normal form are described by their shape, without following any component: behind the
root, or behind steps up if they do not begin at the root, they have names only. Joining a directory
and a path, the path may be brought into normal form first. So what a path leads to, seen from a
file, does not depend on how the two are spelled.
-/

namespace LineScript

namespace Text

variable {d : Char}

/-- A text is split on both sides of a delimiter in it. -/
theorem split_append_cons (front text : List Char) :
    split [d] (front ++ d :: text) = split [d] front ++ split [d] text := by
  induction front with
  | nil => rw [List.nil_append, split_cons, if_pos rfl, split_nil, List.singleton_append]
  | cons c front ih =>
    rw [List.cons_append, split_cons, split_cons, ih]
    by_cases hc : d = c
    · rw [if_pos hc, if_pos hc, List.cons_append]
    · rw [if_neg hc, if_neg hc]
      obtain ⟨piece, pieces, hsplit⟩ := List.exists_cons_of_ne_nil (split_ne_nil (d := d) front)
      rw [hsplit]
      rfl

end Text

namespace FilePath

/-- The shape of a path in normal form: the root, if the path begins there, then steps up, which
only a path that does not begin at the root has, then names. -/
def Canonical (absolute : Bool) (path : List Char) : Prop :=
  ∃ (ups : Nat) (names : List (List Char)),
    path = (if absolute then ['/'] else []) ++
      Text.join ['/'] (List.replicate ups ['.', '.'] ++ names) ∧
    (absolute = true → ups = 0) ∧
    ∀ c ∈ names, c ≠ [] ∧ c ≠ ['.'] ∧ c ≠ ['.', '.'] ∧ '/' ∉ c

variable {absolute : Bool} {before : List (List Char)} {c : List Char}

namespace Normal

/-- Components in normal form are names behind steps up. -/
theorem exists_names (h : Normal absolute before) : ∃ (ups : Nat) (names : List (List Char)),
    before.reverse = List.replicate ups ['.', '.'] ++ names ∧ (absolute = true → ups = 0) ∧
      ∀ c ∈ names, c ≠ [] ∧ c ≠ ['.'] ∧ c ≠ ['.', '.'] ∧ '/' ∉ c := by
  induction h with
  | nil => exact ⟨0, [], rfl, fun _ => rfl, by simp⟩
  | @up before relative above h _ =>
    refine ⟨before.length + 1, [], ?_, by simp [relative], by simp⟩
    have hbefore : before = List.replicate before.length ['.', '.'] :=
      List.eq_replicate_iff.2 ⟨rfl, above⟩
    rw [List.append_nil, List.reverse_cons, hbefore, List.reverse_replicate,
      List.length_replicate, List.replicate_succ']
  | @name c before ne_nil ne_here ne_up no_slash _ ih =>
    obtain ⟨ups, names, hbefore, hups, hnames⟩ := ih
    refine ⟨ups, names ++ [c], by simp [hbefore], hups, ?_⟩
    intro x hx
    rcases List.mem_append.1 hx with hx | hx
    · exact hnames x hx
    · obtain rfl := List.mem_singleton.1 hx
      exact ⟨ne_nil, ne_here, ne_up, no_slash⟩

/-- Names behind steps up are components in normal form. -/
theorem of_names {ups : Nat} {names : List (List Char)} (hups : absolute = true → ups = 0)
    (hnames : ∀ c ∈ names, c ≠ [] ∧ c ≠ ['.'] ∧ c ≠ ['.', '.'] ∧ '/' ∉ c) :
    Normal absolute (List.replicate ups ['.', '.'] ++ names).reverse := by
  rw [List.reverse_append, List.reverse_replicate]
  induction names using List.reverseRecOn with
  | nil =>
    rw [List.reverse_nil, List.nil_append]
    induction ups with
    | zero => exact .nil
    | succ ups ih =>
      have hrelative : absolute = false := by
        cases absolute with
        | true => exact absurd (hups rfl) (Nat.succ_ne_zero _)
        | false => rfl
      exact .up hrelative (fun c hc => List.eq_of_mem_replicate hc) (ih (by simp [hrelative]))
  | append_singleton names c ih =>
    obtain ⟨hinit, hlast⟩ := List.forall_mem_append.1 hnames
    obtain ⟨ne_nil, ne_here, ne_up, no_slash⟩ := hlast c (List.mem_singleton_self c)
    rw [List.reverse_append, List.reverse_singleton, List.append_assoc]
    exact .name ne_nil ne_here ne_up no_slash (ih hinit)

/-- To follow one more component after components in normal form is to follow what the component
makes of them. -/
theorem foldl_follow (h : Normal false before) (stack : List (List Char)) (c : List Char) :
    (FilePath.follow false before c).reverse.foldl (FilePath.follow absolute) stack =
      FilePath.follow absolute (before.reverse.foldl (FilePath.follow absolute) stack) c := by
  -- a component that is kept is followed last
  have hkept : (c :: before).reverse.foldl (FilePath.follow absolute) stack =
      FilePath.follow absolute (before.reverse.foldl (FilePath.follow absolute) stack) c := by
    rw [List.reverse_cons, List.foldl_append]
    rfl
  by_cases hstay : c = [] ∨ c = ['.']
  · have hfollow : ∀ (absolute : Bool) (before : List (List Char)),
        FilePath.follow absolute before c = before := by
      intro absolute before
      simp [FilePath.follow, hstay]
    rw [hfollow, hfollow]
  by_cases hup : c = ['.', '.']
  · subst hup
    cases h with
    | nil => exact hkept
    | up _ _ _ => exact hkept
    | @name last others ne_nil ne_here ne_up _ _ =>
      -- a step up takes back the name in front of it
      have hpopped : FilePath.follow false (last :: others) ['.', '.'] = others := by
        simp [FilePath.follow, ne_up]
      rw [hpopped, List.reverse_cons, List.foldl_append]
      simp [FilePath.follow, ne_nil, ne_here, ne_up]
  · have hname : FilePath.follow false before c = c :: before := by
      simp [FilePath.follow, not_or.1 hstay, hup]
    rw [hname]
    exact hkept

end Normal

/-- Following components may be put off until they have been brought into normal form. -/
theorem foldl_follow_normal (stack : List (List Char)) {pieces : List (List Char)}
    (hpieces : ∀ c ∈ pieces, '/' ∉ c) :
    (pieces.foldl (follow false) []).reverse.foldl (follow absolute) stack =
      pieces.foldl (follow absolute) stack := by
  induction pieces using List.reverseRecOn with
  | nil => rfl
  | append_singleton pieces c ih =>
    have hinit := (List.forall_mem_append.1 hpieces).1
    rw [List.foldl_append, List.foldl_append, ← ih hinit]
    exact (foldl_normal .nil hinit).foldl_follow stack c

/-- A path that was put together is taken apart again, but for one empty piece if there is nothing
to it. -/
theorem foldl_follow_join (stack : List (List Char)) {pieces : List (List Char)}
    (hpieces : ∀ c ∈ pieces, '/' ∉ c) :
    (Text.split ['/'] (Text.join ['/'] pieces)).foldl (follow absolute) stack =
      pieces.foldl (follow absolute) stack := by
  cases pieces with
  | nil => rfl
  | cons p ps => rw [Text.split_join (by simp) hpieces]

/-- A path is in normal form if and only if it has the shape of one. -/
theorem normalizeChars_eq_iff (path : List Char) :
    normalizeChars path = path ↔ Canonical (isAbsolute path) path := by
  constructor
  · intro h
    obtain ⟨ups, names, hpieces, hups, hnames⟩ := (components_normal path).exists_names
    rw [List.reverse_reverse] at hpieces
    refine ⟨ups, names, ?_, hups, hnames⟩
    have hpath := h.symm
    rw [normalizeChars, hpieces] at hpath
    cases habs : isAbsolute path with
    | true => simpa [habs] using hpath
    | false => simpa [habs] using hpath
  · rintro ⟨ups, names, hpath, hups, hnames⟩
    have hnormal := Normal.of_names hups hnames
    have hkept := foldl_split_join hnormal
    generalize List.replicate ups ['.', '.'] ++ names = pieces at hpath hnormal hkept
    cases habs : isAbsolute path with
    | true =>
      rw [habs] at hpath hkept
      have hcomponents : components path = pieces := by
        rw [components, habs, hpath]
        simp [Text.split_cons, follow, hkept]
      rw [normalizeChars, hcomponents, habs]
      exact hpath.symm
    | false =>
      rw [habs] at hpath hkept
      have hcomponents : components path = pieces := by
        rw [components, habs, hpath]
        simp [hkept]
      rw [normalizeChars, hcomponents, habs]
      exact hpath.symm

theorem isAbsolute_cons (c : Char) (path : List Char) :
    isAbsolute (c :: path) = decide (c = '/') := by
  by_cases hc : c = '/'
  · subst hc
    rfl
  · simp [isAbsolute, hc]

theorem isAbsolute_append_cons (dir path path' : List Char) :
    isAbsolute (dir ++ '/' :: path) = isAbsolute (dir ++ '/' :: path') := by
  cases dir with
  | nil => rfl
  | cons c dir => rw [List.cons_append, List.cons_append, isAbsolute_cons, isAbsolute_cons]

/-- Behind a directory, a path that does not begin at the root may be brought into normal form. -/
theorem normalizeChars_append_cons (dir : List Char) {path : List Char}
    (hpath : isAbsolute path = false) :
    normalizeChars (dir ++ '/' :: normalizeChars path) = normalizeChars (dir ++ '/' :: path) := by
  have hslash : ∀ c ∈ components path, '/' ∉ c := fun c hc =>
    ((components_normal path).of_mem (List.mem_reverse.2 hc)).2
  have hjoined : normalizeChars path = Text.join ['/'] (components path) := by
    simp [normalizeChars, hpath]
  have hcomponents : components (dir ++ '/' :: normalizeChars path) =
      components (dir ++ '/' :: path) := by
    rw [components, components, isAbsolute_append_cons dir (normalizeChars path) path,
      Text.split_append_cons, Text.split_append_cons, List.foldl_append, List.foldl_append, hjoined,
      foldl_follow_join _ hslash, components, hpath,
      foldl_follow_normal _ fun c hc => Text.not_mem_of_mem_split hc]
  rw [normalizeChars.eq_1 (dir ++ _), hcomponents,
    isAbsolute_append_cons dir (normalizeChars path) path]
  rfl

/-- Seen from a directory, a path may be brought into normal form. -/
theorem normalizeChars_within (dir path : List Char) :
    normalizeChars (within dir (normalizeChars path)) = normalizeChars (within dir path) := by
  unfold within
  rw [isAbsolute_normalizeChars]
  split
  · exact normalizeChars_normalizeChars path
  next hrelative =>
    have hrelative : isAbsolute path = false := by simp_all
    split
    · exact normalizeChars_append_cons [] hrelative
    · exact normalizeChars_append_cons dir hrelative

/-- A path is in normal form if and only if it has the shape of one. -/
theorem normalize_eq_iff (path : String) :
    normalize path = path ↔ Canonical (isAbsolute path.toList) path.toList := by
  rw [← normalizeChars_eq_iff, ← String.toList_inj, normalize, String.toList_ofList]

theorem isAbsolute_normalize (path : String) :
    isAbsolute (normalize path).toList = isAbsolute path.toList := by
  rw [normalize, String.toList_ofList, isAbsolute_normalizeChars]

theorem canonical_normalize (path : String) :
    Canonical (isAbsolute path.toList) (normalize path).toList := by
  rw [← isAbsolute_normalize]
  exact (normalize_eq_iff _).1 (normalize_normalize path)

/-- Behind a directory, a path that does not begin at the root may be brought into normal form. -/
theorem normalize_append (dir : String) {path : String} (hpath : isAbsolute path.toList = false) :
    normalize (dir ++ "/" ++ normalize path) = normalize (dir ++ "/" ++ path) := by
  have hchars := normalizeChars_append_cons dir.toList hpath
  simp only [normalize, String.toList_append, String.toList_ofList, List.append_assoc]
  exact congrArg String.ofList hchars

/-- What a path leads to depends on the normal forms of the file and the path only. -/
theorem relativeTo_congr {source source' path path' : String}
    (hsource : normalize source = normalize source') (hpath : normalize path = normalize path') :
    relativeTo source path = relativeTo source' path' := by
  have hsource : normalizeChars source.toList = normalizeChars source'.toList :=
    String.ofList_injective hsource
  have hpath : normalizeChars path.toList = normalizeChars path'.toList :=
    String.ofList_injective hpath
  unfold relativeTo
  dsimp only
  rw [hsource, ← normalizeChars_within _ path.toList, hpath, normalizeChars_within]

end FilePath

end LineScript
