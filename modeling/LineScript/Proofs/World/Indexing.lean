import LineScript.Proofs.Number.Whole
import LineScript.Proofs.World.Writing
import Mathlib

/-!
# Reading by an index

An index is a key like any other: the text of a value. Main statement: the text of a whole number
reads an element of a list, or a character of a text, under the bounds check that indexes are
subject to, if the number is a 32-bit integer; the text of any other whole number is no index, and
it reads as a key that is missing, without a fault.
-/

namespace LineScript

/-- What a bounds check of an index lets through: the element in the place of the index, counted
from the front or, if the index is negative, from the end, and otherwise a fault. -/
def Indexed (xs : List Value) (i : Int) (outside : Fault) (answer : Except Fault Value) : Prop :=
  (∀ k (h : k < xs.length), i = (k : Int) ∨ i + (xs.length : Int) = (k : Int) →
    answer = .ok xs[k]) ∧
  (¬ IsIndexOf i xs.length → answer = .error outside)

/-- The characters of a text, as values. -/
def Value.characters (s : String) : List Value := s.toList.map fun c => .ofChars [c]

namespace World

open Number

variable {w : World}

theorem wrapIndex_eq_some {i : Int} {length k : Nat} (hk : k < length)
    (h : i = (k : Int) ∨ i + (length : Int) = (k : Int)) : wrapIndex i length = some k := by
  unfold wrapIndex
  dsimp only
  rcases h with rfl | h
  · have hfront : ¬ (k : Int) < 0 := by omega
    rw [if_neg hfront, if_pos ⟨by omega, by omega⟩, Int.toNat_natCast]
  · have hplace : (length : Int) + i = (k : Int) := by omega
    have hnegative : i < 0 := by omega
    rw [if_pos hnegative, hplace, if_pos ⟨by omega, by omega⟩, Int.toNat_natCast]

theorem wrapIndex_eq_none {i : Int} {length : Nat} (h : ¬ IsIndexOf i length) :
    wrapIndex i length = none := by
  rwa [← wrapIndex_isSome_iff, Bool.not_eq_true, Option.isSome_eq_false_iff,
    Option.isNone_iff_eq_none] at h

/-- A key that writes an index reads a list under the bounds check. -/
theorem get_list_indexed {key : String} {i : Int} (hkey : readInt32? key = some i) (r : ListRef) :
    Indexed (w.elements r) i (.of (.listIndexOutOfRange i)) (w.get (.list r) [key]) := by
  constructor
  · intro k hk hplace
    rw [get, readKey, hkey]
    simp [wrapIndex_eq_some hk hplace, List.getElem?_eq_getElem hk, get]
  · intro houtside
    rw [get, readKey, hkey]
    simp [wrapIndex_eq_none houtside]

/-- A key that writes an index reads a text under the bounds check. -/
theorem get_string_indexed {key : String} {i : Int} (hkey : readInt32? key = some i) (s : String) :
    Indexed (Value.characters s) i (.of (.stringIndexOutOfRange i)) (w.get (.string s) [key]) := by
  have hlength : (Value.characters s).length = s.length := by
    rw [Value.characters, List.length_map, String.length_toList]
  constructor
  · intro k hk hplace
    rw [hlength] at hk hplace
    have hchar : k < s.toList.length := by rwa [String.length_toList]
    rw [get, readKey, hkey]
    simp [characterAt, wrapIndex_eq_some hk hplace, List.getElem?_eq_getElem hchar, get,
      Value.characters]
  · intro houtside
    rw [hlength] at houtside
    rw [get, readKey, hkey]
    simp [characterAt, wrapIndex_eq_none houtside]

/-- The names of methods have no digits. -/
theorem method?_eq_none {key : String} {c : Char} (hc : c ∈ key.toList)
    (hdigit : isDigit c = true) (v : Value) : method? v key = none := by
  have hfind : ∀ {α : Type} (all : List α) (name : α → String),
      (all.all fun m => (name m).toList.all fun c => !isDigit c) = true →
      all.find? (fun m => name m == key) = none := by
    intro α all name hletters
    rw [List.find?_eq_none]
    intro m hm hname
    rw [beq_iff_eq] at hname
    subst hname
    have hletter := List.all_eq_true.1 (List.all_eq_true.1 hletters m hm) c hc
    rw [hdigit] at hletter
    cases hletter
  cases v with
  | string s =>
    rw [method?, Builtin.stringMethod?, hfind StringMethod.all StringMethod.name rfl]
    rfl
  | list r =>
    rw [method?, Builtin.listMethod?, hfind ListMethod.all ListMethod.name rfl]
    rfl
  | map r =>
    rw [method?, Builtin.mapMethod?, hfind MapMethod.all MapMethod.name rfl]
    rfl
  | _ => rfl

/-- A whole number that is used as an index is a 32-bit integer or no index at all. In the first
case, reading a list or a text by it is a bounds check; in the second, it gives nothing, whatever
the list or the text. -/
theorem get_whole_number (w : World) {x : Float} {i : Int} (hx : IsWhole x i)
    (hexact : i.natAbs < twoTo 53) :
    (minInt32 ≤ i ∧ i ≤ maxInt32 →
      (∀ r, Indexed (w.elements r) i (.of (.listIndexOutOfRange i))
        (w.get (.list r) [w.display (.number x)])) ∧
      ∀ s, Indexed (Value.characters s) i (.of (.stringIndexOutOfRange i))
        (w.get (.string s) [w.display (.number x)])) ∧
    (¬ (minInt32 ≤ i ∧ i ≤ maxInt32) →
      (∀ r, w.get (.list r) [w.display (.number x)] = .ok .nil) ∧
      ∀ s, w.get (.string s) [w.display (.number x)] = .ok .nil) := by
  have hdisplay : w.display (.number x) = text x := rfl
  have hread := readInt32?_text hx hexact
  rw [hdisplay]
  constructor
  · intro hindex
    rw [if_pos hindex] at hread
    exact ⟨fun r => get_list_indexed hread r, fun s => get_string_indexed hread s⟩
  · intro hlarge
    rw [if_neg hlarge] at hread
    obtain ⟨c, hc, hdigit⟩ := exists_digit_of_whole hx hexact
    constructor
    · intro r
      simp [get, readKey, hread, method?_eq_none hc hdigit]
    · intro s
      simp [get, readKey, hread, method?_eq_none hc hdigit]

/-- Of a list of two, the last element is read by minus one, and nothing by three billions. -/
theorem get_whole_number_threeBillions :
    ∃ x y, (IsWhole x (-1) ∧ Run.sharedList.get (.list ⟨0⟩) [Run.sharedList.display (.number x)] =
        .ok (.bool true)) ∧
      IsWhole y 3000000000 ∧
      Run.sharedList.get (.list ⟨0⟩) [Run.sharedList.display (.number y)] = .ok .nil ∧
      Run.sharedList.get (.string "ab") [Run.sharedList.display (.number y)] = .ok .nil := by
  have hx : IsWhole (Float.ofBits 0xBFF0000000000000) (-1) :=
    ⟨true, twoTo 52, -52, by decide +kernel, by decide, fun _ => rfl, fun h => absurd h (by decide)⟩
  have hy : IsWhole (Float.ofBits 0x41E65A0BC0000000) 3000000000 :=
    ⟨false, 6291456000000000, -21, by decide +kernel, by decide, fun h => absurd h (by decide),
      fun _ => rfl⟩
  have hlast := ((get_whole_number Run.sharedList hx (by decide)).1 (by decide)).1 ⟨0⟩
  have hlarge := (get_whole_number Run.sharedList hy (by decide)).2 (by decide)
  exact ⟨_, _, ⟨hx, hlast.1 1 (by decide) (.inr rfl)⟩, hy, hlarge.1 ⟨0⟩, hlarge.2 "ab"⟩

end World

end LineScript
