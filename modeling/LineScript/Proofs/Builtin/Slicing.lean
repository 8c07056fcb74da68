import LineScript.Proofs.Builtin.Splitting
import LineScript.Proofs.Number.Integer
import LineScript.Proofs.World.Indexing

/-!
# Searching and slicing

Positions in a text count characters. Main statement: the searches for a text give its first and its
last position, and agree with each other and with the test whether it is there at all; a slice is
the part between two bounds, both included and counted from the end if they are negative, and is the
same part for a text as for the list of its characters; and the slice that begins where a text was
found, and is as long, is that text.
-/

namespace LineScript.Run

open Number Text
open World (wrapIndex)

/-- The position that a bound stands for, which is counted from the end if it is negative. -/
def boundAt (bound : Int) (length : Nat) : Int := if bound < 0 then bound + length else bound

/-- Two positions lie inside a sequence, the first not behind the last. -/
structure Inside (first last : Int) (length : Nat) : Prop where
  first_nonneg : 0 ≤ first
  first_lt : first < length
  last_nonneg : 0 ≤ last
  last_lt : last < length
  le : first ≤ last

/-- The part of a sequence from one bound to another, both included. There is none if one of the
bounds lies outside or if they are in the wrong order. -/
def IsPart {α : Type} (xs : List α) (first last : Int) : Option (List α) → Prop
  | some ys => Inside (boundAt first xs.length) (boundAt last xs.length) xs.length ∧
      ∀ k : Nat, ys[k]? =
        if boundAt first xs.length + k ≤ boundAt last xs.length then
          xs[(boundAt first xs.length).toNat + k]?
        else none
  | none => ¬ Inside (boundAt first xs.length) (boundAt last xs.length) xs.length

section Parts

variable {α β : Type} {xs : List α} {first last : Int} {p q : Option (List α)}

theorem wrapIndex_eq_some_iff {i : Int} {length k : Nat} :
    wrapIndex i length = some k ↔ boundAt i length = k ∧ k < length := by
  rw [wrapIndex, boundAt, Int.add_comm i, Option.ite_none_right_eq_some, Option.some_inj]
  omega

/-- A part of a sequence is determined by its bounds. -/
theorem IsPart.unique (hp : IsPart xs first last p) (hq : IsPart xs first last q) : p = q := by
  cases p with
  | none =>
    cases q with
    | none => rfl
    | some zs => exact absurd hq.1 hp
  | some ys =>
    cases q with
    | none => exact absurd hp.1 hq
    | some zs => rw [List.ext_getElem? fun k => (hp.2 k).trans (hq.2 k).symm]

/-- The parts of a sequence that was made element by element. -/
theorem IsPart.map (f : α → β) (h : IsPart xs first last p) :
    IsPart (xs.map f) first last (p.map (List.map f)) := by
  cases p with
  | none => simpa [IsPart] using h
  | some ys =>
    obtain ⟨hinside, hget⟩ := h
    refine ⟨by simpa using hinside, fun k => ?_⟩
    rw [List.getElem?_map, hget, List.length_map, List.getElem?_map]
    split <;> rfl

/-- The bounds of a slice, counted from the front. -/
theorem sliceBounds_eq_some_iff {a : Arguments} (hfrom : World.toInt (a.named "from") = first)
    (hto : World.toInt (a.named "to") = last) (hgiven : a.named "to" ≠ .nil) {length i j : Nat} :
    a.sliceBounds length = some (i, j) ↔
      boundAt first length = i ∧ boundAt last length = j ∧ i ≤ j ∧ j < length := by
  have hbounds : a.sliceBounds length = some (i, j) ↔
      wrapIndex first length = some i ∧ wrapIndex last length = some j ∧ i ≤ j := by
    rw [Arguments.sliceBounds, hfrom, ← hto]
    cases hvalue : a.named "to" with
    | nil => exact absurd hvalue hgiven
    | _ =>
      dsimp only
      cases wrapIndex first length <;> cases wrapIndex (World.toInt _) length <;> grind
  rw [hbounds, wrapIndex_eq_some_iff, wrapIndex_eq_some_iff]
  omega

/-- What a slice takes of a sequence is the part between its bounds. -/
theorem isPart_sliceOf {a : Arguments} (hfrom : World.toInt (a.named "from") = first)
    (hto : World.toInt (a.named "to") = last) (hgiven : a.named "to" ≠ .nil) (xs : List α) :
    IsPart xs first last ((a.sliceBounds xs.length).map (sliceOf xs)) := by
  cases hbounds : a.sliceBounds xs.length with
  | none =>
    rintro ⟨hfirst, -, hlast, hlt, hle⟩
    obtain ⟨i, hi⟩ := Int.eq_ofNat_of_zero_le hfirst
    obtain ⟨j, hj⟩ := Int.eq_ofNat_of_zero_le hlast
    have hsome := (sliceBounds_eq_some_iff hfrom hto hgiven).2 ⟨hi, hj, by omega, by omega⟩
    rw [hbounds] at hsome
    cases hsome
  | some bounds =>
    obtain ⟨hi, hj, hle, hlt⟩ := (sliceBounds_eq_some_iff hfrom hto hgiven).1 hbounds
    constructor
    · rw [hi, hj]
      constructor <;> omega
    · intro k
      rw [hi, hj, Int.toNat_natCast, sliceOf, List.getElem?_take, List.getElem?_drop]
      exact if_congr (by omega) rfl rfl

end Parts

variable {site : Site} {w : World} {s x : String} {a b : Float} {first last : Int}

/-- The position that a search gives, minus one for none. -/
def position : Option Nat → Int
  | some k => k
  | none => -1

theorem position_eq_natCast_iff {p : Option Nat} {k : Nat} : position p = k ↔ p = some k := by
  cases p with
  | none =>
    rw [position]
    exact iff_of_false (by omega) nofun
  | some j =>
    rw [position, Option.some_inj]
    omega

theorem position_eq_neg_one_iff {p : Option Nat} : position p = -1 ↔ p = none := by
  cases p with
  | none => exact iff_of_true rfl rfl
  | some j =>
    rw [position]
    exact iff_of_false (by omega) nofun

/-- What a search gives in a text that is not too long is a value: a position at which a text occurs
there is a 32-bit integer. -/
theorem positionValue_eq (hs : s.length < 2 ^ 31) {pattern : List Char} {p : Option Nat}
    (h : ∀ k, p = some k → OccursAt pattern s.toList k) :
    positionValue p = .ofInt (position p) := by
  cases p with
  | none => rfl
  | some k =>
    have hk := (h k rfl).1
    rw [String.length_toList] at hk
    have hle : (k : Int) ≤ maxInt32 := by
      rw [maxInt32]
      omega
    rw [positionValue, if_pos hle, position, Value.ofInt, ofInt_natCast]
    rfl

theorem answers_indexOf (hs : s.length < 2 ^ 31) (x : String) :
    Answers site w (.string s) "indexOf" [.string x]
      (.ofInt (position (indexOf? x.toList s.toList))) w := by
  refine (answers_string .indexOf).2 ?_
  have htext : w.argumentText (argumentsOf (.string .indexOf) (.string s) [.string x]) "value" =
      x.toList := argumentText_string rfl
  rw [← positionValue_eq hs fun k hk => (indexOf?_eq_some_iff.1 hk).1, ← htext]
  rfl

theorem answers_lastIndexOf (hs : s.length < 2 ^ 31) (x : String) :
    Answers site w (.string s) "lastIndexOf" [.string x]
      (.ofInt (position (lastIndexOf? x.toList s.toList))) w := by
  refine (answers_string .lastIndexOf).2 ?_
  have htext : w.argumentText (argumentsOf (.string .lastIndexOf) (.string s) [.string x])
      "value" = x.toList := argumentText_string rfl
  rw [← positionValue_eq hs fun k hk => (lastIndexOf?_eq_some_iff.1 hk).1, ← htext]
  rfl

theorem answers_contains (s x : String) :
    Answers site w (.string s) "contains" [.string x]
      (.bool (indexOf? x.toList s.toList).isSome) w := by
  refine (answers_string .contains).2 ?_
  have htext : w.argumentText (argumentsOf (.string .contains) (.string s) [.string x]) "value" =
      x.toList := argumentText_string rfl
  rw [← htext]
  rfl

/-- A double that stands for a 32-bit integer is a bound. -/
theorem toInt_whole (ha : IsWhole a first) (hfirst : minInt32 ≤ first ∧ first ≤ maxInt32) :
    World.toInt (.number a) = first :=
  (toInt32_whole ha).trans (clampInt32_eq hfirst.1 hfirst.2)

/-- A slice of a text is the part of its characters between the bounds. -/
theorem answers_slice_text (site : Site) (w : World) (s : String)
    (ha : IsWhole a first) (hb : IsWhole b last)
    (hfirst : minInt32 ≤ first ∧ first ≤ maxInt32) (hlast : minInt32 ≤ last ∧ last ≤ maxInt32) :
    ∃ part, IsPart s.toList first last part ∧
      Answers site w (.string s) "slice" [.number a, .number b] (part.elim .nil .ofChars) w := by
  have hpart := isPart_sliceOf
    (a := argumentsOf (.string .slice) (.string s) [.number a, .number b])
    (toInt_whole ha hfirst) (toInt_whole hb hlast) nofun s.toList
  refine ⟨_, hpart, (answers_string .slice).2 ?_⟩
  simp only [World.stringMethod, argumentsOf, Arguments.text?]
  generalize Arguments.sliceBounds _ _ = bounds
  cases bounds <;> rfl

/-- A slice of a list is a new list with the part of its elements between the bounds. -/
theorem answers_slice_list (site : Site) (w : World) (r : ListRef)
    (ha : IsWhole a first) (hb : IsWhole b last)
    (hfirst : minInt32 ≤ first ∧ first ≤ maxInt32) (hlast : minInt32 ≤ last ∧ last ≤ maxInt32) :
    ∃ part v w', IsPart (w.elements r) first last part ∧
      Answers site w (.list r) "slice" [.number a, .number b] v w' ∧
      match part with
      | some items => ∃ made, v = .list made ∧ w'.elements made = items
      | none => v = .nil := by
  have hpart := isPart_sliceOf
    (a := argumentsOf (.list .slice) (.list r) [.number a, .number b])
    (toInt_whole ha hfirst) (toInt_whole hb hlast) nofun (w.elements r)
  have hanswer : Answers site w (.list r) "slice" [.number a, .number b]
      (w.listMethod .slice (argumentsOf (.list .slice) (.list r) [.number a, .number b])).1
      (w.listMethod .slice (argumentsOf (.list .slice) (.list r) [.number a, .number b])).2 :=
    (answers_list (m := .slice) (by decide)).2 rfl
  simp only [World.listMethod, argumentsOf, Arguments.list?] at hpart hanswer
  generalize Arguments.sliceBounds _ _ = bounds at hpart hanswer
  cases bounds with
  | none => exact ⟨_, _, _, hpart, hanswer, rfl⟩
  | some bounds => exact ⟨_, _, _, hpart, hanswer, _, rfl, World.elements_newList_self _⟩

/-- The part of a text that begins where another one occurs, and is as long. -/
theorem isPart_of_occursAt {text pattern : List Char} {k : Nat} (h : OccursAt pattern text k)
    (hpattern : pattern ≠ []) : IsPart text k (k + pattern.length - 1) (some pattern) := by
  have hend := h.add_length_le
  have hpos := List.length_pos_of_ne_nil hpattern
  have hfirst : boundAt k text.length = k := if_neg (by omega)
  have hlast : boundAt (k + pattern.length - 1) text.length = k + pattern.length - 1 :=
    if_neg (by omega)
  constructor
  · rw [hfirst, hlast]
    constructor <;> omega
  · intro i
    rw [hfirst, hlast, Int.toNat_natCast, ← List.getElem?_drop]
    conv_lhs => rw [← h.take_drop]
    rw [List.getElem?_take]
    exact if_congr (by omega) rfl rfl

/-- What the searches for a text in another give: its first position, its last one, and whether it
is there; the searches give minus one if it is not. If it is not empty, it is the slice from its
first position on that is as long. -/
structure Searched (site : Site) (w : World) (s x : String) (first last : Int) (found : Bool) :
    Prop where
  indexOf : Answers site w (.string s) "indexOf" [.string x] (.ofInt first) w
  lastIndexOf : Answers site w (.string s) "lastIndexOf" [.string x] (.ofInt last) w
  contains : Answers site w (.string s) "contains" [.string x] (.bool found) w
  first_iff : ∀ k : Nat, first = k ↔ IsLeast (places x.toList s.toList) k
  last_iff : ∀ k : Nat, last = k ↔ IsGreatest (places x.toList s.toList) k
  first_none : first = -1 ↔ places x.toList s.toList = ∅
  last_none : last = -1 ↔ places x.toList s.toList = ∅
  found_none : found = false ↔ places x.toList s.toList = ∅
  slice : ∀ (k : Nat) (b : Float), first = k → 1 ≤ x.length → IsWhole b (k + x.length - 1) →
    Answers site w (.string s) "slice" [.ofInt first, .number b] (.string x) w

theorem searched (site : Site) (w : World) (hs : s.length < 2 ^ 31) (x : String) :
    ∃ first last found, Searched site w s x first last found := by
  refine ⟨_, _, _, answers_indexOf hs x, answers_lastIndexOf hs x, answers_contains s x, ?_, ?_, ?_,
    ?_, ?_, ?_⟩
  · intro k
    rw [position_eq_natCast_iff, indexOf?_eq_some_iff]
  · intro k
    rw [position_eq_natCast_iff, lastIndexOf?_eq_some_iff]
  · rw [position_eq_neg_one_iff, indexOf?_eq_none_iff]
  · rw [position_eq_neg_one_iff, lastIndexOf?_eq_none_iff]
  · rw [Option.isSome_eq_false_iff, Option.isNone_iff_eq_none, indexOf?_eq_none_iff]
  · intro k b hk hx hb
    have hoccurs := (indexOf?_eq_some_iff.1 (position_eq_natCast_iff.1 hk)).1
    have hend := hoccurs.add_length_le
    rw [String.length_toList, String.length_toList] at hend
    have hpattern : x.toList ≠ [] := List.ne_nil_of_length_pos (by rwa [String.length_toList])
    have hfirst : minInt32 ≤ (k : Int) ∧ (k : Int) ≤ maxInt32 := by
      rw [minInt32, maxInt32]
      omega
    have hlast : minInt32 ≤ (k + x.length - 1 : Int) ∧ (k + x.length - 1 : Int) ≤ maxInt32 := by
      rw [minInt32, maxInt32]
      omega
    have hwhole : IsWhole (ofInt k) k := isWhole_ofInt (by rw [twoTo_53]; omega)
    obtain ⟨part, hpart, hslice⟩ := answers_slice_text site w s hwhole hb hfirst hlast
    have hfound := isPart_of_occursAt hoccurs hpattern
    rw [String.length_toList] at hfound
    rw [hpart.unique hfound, Option.elim_some, Value.ofChars, String.ofList_toList] at hslice
    rwa [hk]

/-- In a text that is not too long, the searches and the slices agree. The searches for a text tell
where it occurs first and last. Between two 32-bit integers, the slice of the text is the part of
its characters that they bound, and the slice of a list the part of its elements; for the list of
the characters of the text they are the same. -/
theorem searching_and_slicing (site : Site) (w : World) (s : String) (hs : s.length < 2 ^ 31) :
    (∀ x, ∃ first last found, Searched site w s x first last found) ∧
    ∀ (a b : Float) (first last : Int), IsWhole a first → IsWhole b last →
      minInt32 ≤ first ∧ first ≤ maxInt32 → minInt32 ≤ last ∧ last ≤ maxInt32 →
      ∃ part, IsPart s.toList first last part ∧
        Answers site w (.string s) "slice" [.number a, .number b] (part.elim .nil .ofChars) w ∧
        ∀ r, ∃ items v w', IsPart (w.elements r) first last items ∧
          Answers site w (.list r) "slice" [.number a, .number b] v w' ∧
          (match items with
            | some items => ∃ made, v = .list made ∧ w'.elements made = items
            | none => v = .nil) ∧
          (w.elements r = Value.characters s →
            items = part.map fun cs => Value.characters (String.ofList cs)) := by
  refine ⟨searched site w hs, fun a b first last ha hb hfirst hlast => ?_⟩
  obtain ⟨part, hpart, htext⟩ := answers_slice_text site w s ha hb hfirst hlast
  refine ⟨part, hpart, htext, fun r => ?_⟩
  obtain ⟨items, v, w', hitems, hlist, hmade⟩ :=
    answers_slice_list site w r ha hb hfirst hlast
  refine ⟨items, v, w', hitems, hlist, hmade, fun hr => ?_⟩
  rw [hr] at hitems
  have hcharacters : (fun cs => Value.characters (String.ofList cs)) =
      List.map fun c => Value.ofChars [c] := by
    funext cs
    rw [Value.characters, String.toList_ofList]
  rw [hcharacters]
  exact hitems.unique (hpart.map _)

/-- In `ababa`, `aba` occurs last at the third character, and is the slice of the last three. -/
theorem searching_and_slicing_overlapping : "ababa".length < 2 ^ 31 ∧
    Answers ⟨⟨4⟩, []⟩ World.loopInClosure (.string "ababa") "lastIndexOf" [.string "aba"]
      (.ofInt 2) World.loopInClosure ∧
    IsWhole (ofInt (-3)) (-3) ∧ IsWhole (ofInt (-1)) (-1) ∧
    Answers ⟨⟨4⟩, []⟩ World.loopInClosure (.string "ababa") "slice"
      [.number (ofInt (-3)), .number (ofInt (-1))] (.string "aba") World.loopInClosure := by
  have hshort : "ababa".length < 2 ^ 31 := by decide
  have hfirst : IsWhole (ofInt (-3)) (-3) := isWhole_ofInt (by decide)
  have hlast : IsWhole (ofInt (-1)) (-1) := isWhole_ofInt (by decide)
  obtain ⟨hsearch, hslice⟩ :=
    searching_and_slicing ⟨⟨4⟩, []⟩ World.loopInClosure "ababa" hshort
  obtain ⟨first, last, found, hfound⟩ := hsearch "aba"
  have hgreatest : IsGreatest (places "aba".toList "ababa".toList) 2 := by
    refine ⟨⟨by decide, by decide⟩, fun k hk => ?_⟩
    have hpattern : "aba".toList.length = 3 := rfl
    have htext : "ababa".toList.length = 5 := rfl
    have hend := OccursAt.add_length_le hk
    omega
  obtain ⟨part, hpart, htext, -⟩ :=
    hslice _ _ _ _ hfirst hlast (by decide) (by decide)
  have haba : IsPart "ababa".toList (-3) (-1) (some "aba".toList) := by
    refine ⟨⟨by decide, by decide, by decide, by decide, by decide⟩, fun k => ?_⟩
    match k with
    | 0 | 1 | 2 => rfl
    | k + 3 =>
      have hlow : boundAt (-3) "ababa".toList.length = 2 := rfl
      have hhigh : boundAt (-1) "ababa".toList.length = 4 := rfl
      rw [hlow, hhigh, if_neg (by push_cast; omega)]
      rfl
  rw [hpart.unique haba] at htext
  have hplace := hfound.lastIndexOf
  rw [(hfound.last_iff 2).2 hgreatest] at hplace
  exact ⟨hshort, hplace, hfirst, hlast, htext⟩

end LineScript.Run
