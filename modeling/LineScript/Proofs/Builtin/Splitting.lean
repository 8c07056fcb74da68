import LineScript.Proofs.Builtin.Calling
import LineScript.Proofs.Text.Pieces

/-!
# Splitting, joining and replacing

Main statement: the list that a text is split into by a delimiter joins to the text again, and
joining it with another text is the same as replacing the delimiter by that text; no element of the
list has the delimiter in it, and there is one more of them than there are occurrences of it found
from the left without overlap.
-/

namespace LineScript.Run

open Text

variable {site : Site} {w : World}

theorem argumentText_string {a : Arguments} {name s : String} (h : a.named name = .string s) :
    w.argumentText a name = s.toList := by
  rw [World.argumentText, h]
  rfl

/-- What a text is split into is a new list. -/
theorem answers_split (s d : String) :
    Answers site w (.string s) "split" [.string d] (.list ⟨w.lists.size⟩)
      (w.newList ((split d.toList s.toList).map .ofChars)).2 := by
  refine (answers_string .split).2 ?_
  have htext : w.argumentText (argumentsOf (.string .split) (.string s) [.string d]) "delimiter" =
      d.toList := argumentText_string rfl
  rw [← htext]
  rfl

theorem answers_replace (s d t : String) :
    Answers site w (.string s) "replace" [.string d, .string t]
      (.ofChars (replace d.toList t.toList s.toList)) w := by
  refine (answers_string .replace).2 ?_
  have hpattern : w.argumentText (argumentsOf (.string .replace) (.string s)
      [.string d, .string t]) "value" = d.toList := argumentText_string rfl
  have hreplacement : w.argumentText (argumentsOf (.string .replace) (.string s)
      [.string d, .string t]) "replaceWith" = t.toList := argumentText_string rfl
  rw [← hpattern, ← hreplacement]
  rfl

/-- A list of texts is joined to a text. -/
theorem answers_join (site : Site) {r : ListRef} {pieces : List (List Char)} (t : String)
    (hr : w.elements r = pieces.map .ofChars) :
    Answers site w (.list r) "join" [.string t] (.ofChars (join t.toList pieces)) w := by
  refine (answers_list (m := .join) (by decide)).2 ?_
  have hjoined : t.intercalate ((w.elements r).map w.display) =
      String.ofList (join t.toList pieces) := by
    have hdisplay : (pieces.map Value.ofChars).map w.display = pieces.map String.ofList :=
      List.map_map
    rw [hr, hdisplay, ← String.toList_inj, String.toList_intercalate, String.toList_ofList,
      join_eq_intercalate, List.map_map]
    congr 1
    exact List.map_id'' (fun p => String.toList_ofList) pieces
  rw [Value.ofChars, ← hjoined]
  rfl

/-- Splitting a text by a delimiter gives a list of texts. Joined with the delimiter they are the
text again, and joined with any other text they are the text with the delimiter replaced by that. If
the delimiter is not empty, none of them has it inside, and there is one more of them than there are
occurrences of the delimiter found from the left, each behind the end of the one before it. -/
theorem splitting_algebra (site : Site) (w : World) (s d : String) :
    ∃ (r : ListRef) (w' : World) (pieces : List String),
      Answers site w (.string s) "split" [.string d] (.list r) w' ∧
      w'.elements r = pieces.map .string ∧
      Answers site w' (.list r) "join" [.string d] (.string s) w' ∧
      (∀ t : String, ∃ u : String,
        Answers site w (.string s) "replace" [.string d, .string t] (.string u) w ∧
        Answers site w' (.list r) "join" [.string t] (.string u) w') ∧
      (d ≠ "" →
        (∀ piece ∈ pieces, ¬ d.toList <:+: piece.toList) ∧
        ∃ places, Leftmost d.toList s.toList 0 places ∧
          (∀ others, Leftmost d.toList s.toList 0 others → others = places) ∧
          pieces.length = places.length + 1) := by
  set pieces := split d.toList s.toList
  set made := w.newList (pieces.map .ofChars)
  have helements : made.2.elements ⟨w.lists.size⟩ = pieces.map .ofChars :=
    World.elements_newList_self _
  refine ⟨⟨w.lists.size⟩, made.2, pieces.map String.ofList, answers_split s d, ?_, ?_, ?_, ?_⟩
  · rw [helements, List.map_map]
    rfl
  · have hjoin := answers_join site d helements
    rwa [join_split, Value.ofChars, String.ofList_toList] at hjoin
  · intro t
    refine ⟨String.ofList (replace d.toList t.toList s.toList), answers_replace s d t, ?_⟩
    rw [replace_eq_join]
    exact answers_join site t helements
  · intro hd
    have hdelimiter : d.toList ≠ [] := by simpa using hd
    have hcut := cutInto_split hdelimiter s.toList
    obtain ⟨places, hplaces, hlength⟩ := hcut.leftmost
    refine ⟨?_, places, hplaces, fun others h => h.unique hplaces, ?_⟩
    · simp only [List.mem_map]
      rintro _ ⟨piece, hpiece, rfl⟩
      rw [String.toList_ofList]
      exact hcut.not_infix hdelimiter piece hpiece
    · rw [List.length_map]
      exact hlength

/-- Of the two places at which `aa` stands in `aaa` only the first counts: two pieces are left. -/
theorem splitting_algebra_overlapping : ∃ (r : ListRef) (w' : World),
    Answers ⟨⟨4⟩, []⟩ World.loopInClosure (.string "aaa") "split" [.string "aa"] (.list r) w' ∧
      (w'.elements r).length = 2 := by
  obtain ⟨r, w', pieces, hsplit, helements, -, -, hpieces⟩ :=
    splitting_algebra ⟨⟨4⟩, []⟩ World.loopInClosure "aaa" "aa"
  obtain ⟨-, places, -, hunique, hlength⟩ := hpieces (by decide)
  have hplaces : Leftmost "aa".toList "aaa".toList 0 [0] := by
    refine .next (Nat.le_refl 0) (occursAt_zero.2 (by decide))
      (fun j _ hj => absurd hj j.not_lt_zero) (.done fun k hk hoccurs => ?_)
    have hpattern : "aa".toList.length = 2 := rfl
    have htext : "aaa".toList.length = 3 := rfl
    have hend := hoccurs.add_length_le
    omega
  refine ⟨r, w', hsplit, ?_⟩
  rw [helements, List.length_map, hlength, ← hunique _ hplaces]
  rfl

end LineScript.Run
