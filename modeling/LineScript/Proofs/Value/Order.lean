import LineScript.Proofs.World.Copying

/-!
# The order of keys

A map is made by giving values to keys, taking keys away, and taking in entries of others. Main
statement: whatever was done to a map, its keys differ from each other; a key has the value that it
was given last, unless it was taken away since; and the keys stand in the order in which they came
to stay, so that a new value leaves a key in its place and a key that was taken away comes back
behind all others.
-/

namespace LineScript

namespace OrderedMap

variable {α : Type}

/-- What can be done to a map. -/
inductive Edit (α : Type) where
  | insert (key : String) (value : α)
  | remove (key : String)
  | extend (entries : List (String × α))

/-- What happens to a key: it is given a value, or it is taken away. -/
abbrev Event (α : Type) := String × Option α

namespace Edit

/-- The map behind an edit. -/
def apply (m : OrderedMap α) : Edit α → OrderedMap α
  | insert key value => m.insert key value
  | remove key => m.erase key
  | extend entries => m.extend entries

/-- What an edit does to each key that it is about. -/
def events : Edit α → List (Event α)
  | insert key value => [(key, some value)]
  | remove key => [(key, none)]
  | extend entries => entries.map fun e => (e.1, some e.2)

end Edit

/-- The map that edits make of the empty one. -/
def edited (edits : List (Edit α)) : OrderedMap α := edits.foldl Edit.apply empty

/-- What happened to keys, one after the other. -/
def history (edits : List (Edit α)) : List (Event α) := edits.flatMap Edit.events

/-- The last that happened to a key is that it was given a value. -/
def LastGiven (es : List (Event α)) (key : String) (value : α) : Prop :=
  ∃ before after, es = before ++ (key, some value) :: after ∧ ∀ e ∈ after, e.1 ≠ key

/-- A key came to stay at a point of its history: it was given a value there, it was not taken away
later, and whenever it was given a value before, it was taken away in between. -/
structure CameAt (es : List (Event α)) (key : String) (i : Nat) : Prop where
  given : ∃ value, es[i]? = some (key, some value)
  stayed : ∀ j, i < j → es[j]? ≠ some (key, none)
  first : ∀ j value, j < i → es[j]? = some (key, some value) →
    ∃ l, j < l ∧ l < i ∧ es[l]? = some (key, none)

/-- The map behind an event. -/
def change (m : OrderedMap α) : Event α → OrderedMap α
  | (key, some value) => m.insert key value
  | (key, none) => m.erase key

section Keys

theorem map_eraseIn (key : String) {es : List (String × α)} (h : (es.map (·.1)).Nodup) :
    (eraseIn key es).map (·.1) = (es.map (·.1)).filter (· ≠ key) := by
  induction es with
  | nil => rfl
  | cons e es ih =>
    obtain ⟨hfirst, hrest⟩ := List.nodup_cons.1 h
    rw [eraseIn, List.map_cons]
    by_cases hkey : e.1 = key
    · have hall : (es.map (·.1)).filter (· ≠ key) = es.map (·.1) := by
        rw [List.filter_eq_self]
        intro other hother
        have hne : other ≠ key := by
          rintro rfl
          rw [← hkey] at hother
          exact hfirst hother
        exact decide_eq_true hne
      rw [if_pos hkey, List.filter_cons_of_neg (by simp [hkey]), hall]
    · rw [if_neg hkey, List.filter_cons_of_pos (by simp [hkey]), List.map_cons, ih hrest]

theorem keys_erase (m : OrderedMap α) (key : String) :
    (m.erase key).keys = m.keys.filter (· ≠ key) :=
  map_eraseIn key m.nodup

theorem get?_eq_none_of_notMem {m : OrderedMap α} {key : String} (h : key ∉ m.keys) :
    m.get? key = none := by
  cases hfound : m.get? key with
  | none => rfl
  | some value => exact absurd (mem_keys.2 ⟨value, hfound⟩) h

theorem lookupIn_eraseIn_ne {key other : String} (hkey : key ≠ other) (es : List (String × α)) :
    lookupIn other (eraseIn key es) = lookupIn other es := by
  induction es with
  | nil => rfl
  | cons e es ih =>
    rw [eraseIn]
    split
    next he =>
      rw [lookupIn, if_neg]
      rintro rfl
      exact hkey he.symm
    next he =>
      rw [lookupIn, lookupIn]
      split
      · rfl
      · exact ih

theorem get?_erase (m : OrderedMap α) (key other : String) :
    (m.erase key).get? other = if key = other then none else m.get? other := by
  by_cases hkey : key = other
  · rw [if_pos hkey]
    apply get?_eq_none_of_notMem
    rw [keys_erase]
    simp [hkey]
  · rw [if_neg hkey]
    exact lookupIn_eraseIn_ne hkey m.entries

/-- An entry in its place is a key in its place with the value that is found under it. -/
theorem getElem?_entries (m : OrderedMap α) (n : Nat) (key : String) (value : α) :
    m.entries[n]? = some (key, value) ↔ m.keys[n]? = some key ∧ m.get? key = some value := by
  rw [keys, List.getElem?_map]
  constructor
  · intro he
    rw [he]
    exact ⟨rfl, mem_entries.1 (List.mem_of_getElem? he)⟩
  · rintro ⟨hkey, hfound⟩
    obtain ⟨⟨_, held⟩, he, rfl⟩ := Option.map_eq_some_iff.1 hkey
    have hheld := mem_entries.1 (List.mem_of_getElem? he)
    rw [he, Option.some.inj (hheld.symm.trans hfound)]

end Keys

section Histories

theorem foldl_apply (m : OrderedMap α) (edits : List (Edit α)) :
    edits.foldl Edit.apply m = (history edits).foldl change m := by
  induction edits generalizing m with
  | nil => rfl
  | cons edit edits ih =>
    have hone : edit.events.foldl change m = edit.apply m := by
      cases edit with
      | extend entries =>
        rw [Edit.events, List.foldl_map]
        rfl
      | _ => rfl
    rw [history, List.flatMap_cons, List.foldl_append, hone, List.foldl_cons, ih]
    rfl

variable {es : List (Event α)} {key other : String} {value : α} {i j : Nat}

theorem lastGiven_nil : ¬ LastGiven ([] : List (Event α)) key value := by
  rintro ⟨before, after, hsplit, -⟩
  cases before <;> cases hsplit

/-- The last event settles what a key has that it is about, and leaves the others as they were. -/
theorem lastGiven_snoc (es : List (Event α)) (e : Event α) (key : String) (value : α) :
    LastGiven (es ++ [e]) key value ↔
      if e.1 = key then e.2 = some value else LastGiven es key value := by
  constructor
  · rintro ⟨before, after, hsplit, hafter⟩
    rcases List.eq_nil_or_concat after with rfl | ⟨rest, last, rfl⟩
    · obtain ⟨-, hlast⟩ := List.append_inj' hsplit rfl
      cases hlast
      rw [if_pos rfl]
    · rw [List.concat_eq_append, ← List.cons_append, ← List.append_assoc] at hsplit
      obtain ⟨rfl, hlast⟩ := List.append_inj' hsplit rfl
      cases hlast
      rw [List.concat_eq_append, List.forall_mem_append] at hafter
      rw [if_neg (hafter.2 e List.mem_cons_self)]
      exact ⟨before, rest, rfl, hafter.1⟩
  · intro h
    split at h
    next hkey =>
      subst hkey
      exact ⟨es, [], by rw [← h], List.forall_mem_nil _⟩
    next hkey =>
      obtain ⟨before, after, rfl, hafter⟩ := h
      refine ⟨before, after ++ [e], by simp, ?_⟩
      intro o ho
      rcases List.mem_append.1 ho with ho | ho
      · exact hafter o ho
      · obtain rfl := List.mem_singleton.1 ho
        exact hkey

theorem CameAt.lt_length (h : CameAt es key i) : i < es.length := by
  obtain ⟨value, hgiven⟩ := h.given
  exact (List.getElem?_eq_some_iff.1 hgiven).1

/-- A key that has been given a value and was not taken away since came to stay at some point. -/
theorem exists_cameAt {n : Nat} (hgiven : ∃ value, es[n]? = some (key, some value))
    (hstayed : ∀ j, n < j → es[j]? ≠ some (key, none)) : ∃ i, CameAt es key i := by
  classical
  -- The first point from which on the key was not taken away.
  have hex : ∃ n, (∃ value, es[n]? = some (key, some value)) ∧
      ∀ j, n < j → es[j]? ≠ some (key, none) := ⟨n, hgiven, hstayed⟩
  obtain ⟨⟨value, hfound⟩, hafter⟩ := Nat.find_spec hex
  refine ⟨Nat.find hex, ⟨value, hfound⟩, hafter, ?_⟩
  intro j earlier hj hearlier
  by_contra hnone
  push Not at hnone
  refine Nat.find_min hex hj ⟨⟨earlier, hearlier⟩, ?_⟩
  intro l hl hremoved
  rcases Nat.lt_trichotomy l (Nat.find hex) with hlt | heq | hgt
  · exact hnone l hl hlt hremoved
  · rw [heq, hfound] at hremoved
    cases hremoved
  · exact hafter l hgt hremoved

/-- What happened up to a last event, and this event. -/
theorem getElem?_snoc (es : List (Event α)) (e : Event α) (j : Nat) :
    (es ++ [e])[j]? = if j = es.length then some e else es[j]? := by
  rcases Nat.lt_trichotomy j es.length with hlt | rfl | hgt
  · rw [List.getElem?_append_left hlt, if_neg (Nat.ne_of_lt hlt)]
  · rw [List.getElem?_concat_length, if_pos rfl]
  · rw [if_neg (Nat.ne_of_gt hgt), List.getElem?_eq_none, List.getElem?_eq_none]
    · omega
    · rw [List.length_append, List.length_singleton]
      omega

/-- What happens to another key changes nothing. -/
theorem cameAt_snoc_other {e : Event α} (hkey : e.1 ≠ key) :
    CameAt (es ++ [e]) key i ↔ CameAt es key i := by
  have hsame : ∀ (j : Nat) (o : Option α),
      (es ++ [e])[j]? = some (key, o) ↔ es[j]? = some (key, o) := by
    intro j o
    rw [getElem?_snoc]
    split
    next hj =>
      subst hj
      rw [List.getElem?_eq_none (Nat.le_refl _)]
      simp only [Option.some.injEq, reduceCtorEq, iff_false]
      rintro rfl
      exact hkey rfl
    next => exact Iff.rfl
  constructor
  · rintro ⟨hgiven, hstayed, hfirst⟩
    simp only [hsame] at hgiven hfirst
    exact ⟨hgiven, fun j hj h => hstayed j hj ((hsame j none).2 h), hfirst⟩
  · rintro ⟨hgiven, hstayed, hfirst⟩
    refine ⟨?_, fun j hj h => hstayed j hj ((hsame j none).1 h), ?_⟩
    · simpa only [hsame] using hgiven
    · simpa only [hsame] using hfirst

/-- A key that is taken away has not come to stay. -/
theorem not_cameAt_snoc_removed : ¬ CameAt (es ++ [(key, none)]) key i := by
  intro h
  obtain ⟨value, hgiven⟩ := h.given
  have hlt := h.lt_length
  rw [List.length_append, List.length_singleton] at hlt
  rcases Nat.lt_succ_iff_lt_or_eq.1 hlt with hlt | rfl
  · exact h.stayed es.length hlt (List.getElem?_concat_length)
  · rw [List.getElem?_concat_length] at hgiven
    cases hgiven

/-- A key that is given a value stays where it came, or else it comes now. -/
theorem cameAt_snoc_given :
    CameAt (es ++ [(key, some value)]) key i ↔
      CameAt es key i ∨ (¬ ∃ j, CameAt es key j) ∧ i = es.length := by
  have hremoved : ∀ j : Nat, (es ++ [(key, some value)])[j]? = some (key, none) ↔
      es[j]? = some (key, none) := by
    intro j
    rw [getElem?_snoc]
    split
    next hj =>
      subst hj
      rw [List.getElem?_eq_none (Nat.le_refl _)]
      simp
    next => exact Iff.rfl
  have hbefore : ∀ j : Nat, j < es.length → (es ++ [(key, some value)])[j]? = es[j]? := by
    intro j hj
    exact List.getElem?_append_left hj
  constructor
  · intro h
    rcases Nat.lt_succ_iff_lt_or_eq.1 (by simpa using h.lt_length) with hlt | rfl
    · refine .inl ⟨?_, fun j hj hnone => h.stayed j hj ((hremoved j).2 hnone), ?_⟩
      · rw [← hbefore i hlt]
        exact h.given
      · intro j earlier hj hearlier
        obtain ⟨l, hjl, hli, hl⟩ := h.first j earlier hj (by rwa [hbefore j (hj.trans hlt)])
        exact ⟨l, hjl, hli, (hremoved l).1 hl⟩
    · refine .inr ⟨?_, rfl⟩
      rintro ⟨j, hj⟩
      obtain ⟨earlier, hearlier⟩ := hj.given
      obtain ⟨l, hjl, -, hl⟩ := h.first j earlier hj.lt_length (by rwa [hbefore j hj.lt_length])
      exact hj.stayed l hjl ((hremoved l).1 hl)
  · rintro (h | ⟨hnone, rfl⟩)
    · refine ⟨?_, fun j hj hremove => h.stayed j hj ((hremoved j).1 hremove), ?_⟩
      · rw [hbefore i h.lt_length]
        exact h.given
      · intro j earlier hj hearlier
        rw [hbefore j (hj.trans h.lt_length)] at hearlier
        obtain ⟨l, hjl, hli, hl⟩ := h.first j earlier hj hearlier
        exact ⟨l, hjl, hli, (hremoved l).2 hl⟩
    · refine ⟨⟨value, List.getElem?_concat_length⟩, ?_, ?_⟩
      · intro j hj hremove
        have hlt := (List.getElem?_eq_some_iff.1 ((hremoved j).1 hremove)).1
        omega
      · intro j earlier hj hearlier
        rw [hbefore j hj] at hearlier
        -- If the key was never taken away behind `j`, it has come to stay before.
        by_contra hkept
        push Not at hkept
        refine hnone (exists_cameAt ⟨earlier, hearlier⟩ ?_)
        intro l hl hremove
        have hlt := (List.getElem?_eq_some_iff.1 hremove).1
        exact hkept l hl hlt ((hremoved l).2 hremove)

end Histories

/-- A map and what happened to its keys: the keys are those that came to stay, in the order in which
they came, and the value of each is the last that it was given. -/
structure Follows (m : OrderedMap α) (es : List (Event α)) : Prop where
  found : ∀ key value, m.get? key = some value ↔ LastGiven es key value
  present : ∀ key, key ∈ m.keys ↔ ∃ i, CameAt es key i
  ordered : m.keys.Pairwise fun key other =>
    ∀ i j, CameAt es key i → CameAt es other j → i < j

theorem follows_empty : Follows (empty : OrderedMap α) [] where
  found key value := ⟨nofun, fun h => absurd h lastGiven_nil⟩
  present key := by
    refine ⟨nofun, ?_⟩
    rintro ⟨i, hi⟩
    exact absurd hi.lt_length (Nat.not_lt_zero i)
  ordered := List.Pairwise.nil

section

variable {m : OrderedMap α} {es : List (Event α)}

theorem Follows.found_change (h : Follows m es) (e : Event α) (other : String) (v : α) :
    (m.change e).get? other = some v ↔ LastGiven (es ++ [e]) other v := by
  obtain ⟨key, value⟩ := e
  rw [lastGiven_snoc, ← h.found]
  cases value with
  | some value =>
    rw [OrderedMap.change, get?_insert]
    split <;> rfl
  | none =>
    rw [OrderedMap.change, get?_erase]
    split <;> rfl

theorem Follows.present_change (h : Follows m es) (e : Event α) (other : String) :
    other ∈ (m.change e).keys ↔ ∃ i, CameAt (es ++ [e]) other i := by
  obtain ⟨key, value⟩ := e
  by_cases hkey : key = other
  · subst hkey
    cases value with
    | some value =>
      simp only [cameAt_snoc_given, OrderedMap.change, keys_insert]
      split
      next hmem =>
        obtain ⟨i, hi⟩ := (h.present key).1 hmem
        exact iff_of_true hmem ⟨i, .inl hi⟩
      next hmem =>
        have hnone := mt (h.present key).2 hmem
        exact iff_of_true (List.mem_append_right _ List.mem_cons_self) ⟨_, .inr ⟨hnone, rfl⟩⟩
    | none =>
      rw [OrderedMap.change, keys_erase]
      simp [not_cameAt_snoc_removed]
  · have hcame : ∀ i, CameAt (es ++ [(key, value)]) other i ↔ CameAt es other i :=
      fun i => cameAt_snoc_other hkey
    simp only [hcame, ← h.present]
    cases value with
    | some value =>
      rw [OrderedMap.change, keys_insert]
      split <;> simp [Ne.symm hkey]
    | none =>
      rw [OrderedMap.change, keys_erase]
      simp [Ne.symm hkey]

/-- A key that stays has the place it had. -/
theorem Follows.cameAt_of_snoc (h : Follows m es) {e : Event α} {other : String} {i : Nat}
    (hmem : other ∈ m.keys) (hi : CameAt (es ++ [e]) other i) : CameAt es other i := by
  obtain ⟨key, value⟩ := e
  by_cases hkey : key = other
  · subst hkey
    cases value with
    | some value =>
      rcases cameAt_snoc_given.1 hi with hi | ⟨hnone, -⟩
      · exact hi
      · exact absurd ((h.present key).1 hmem) hnone
    | none => exact absurd hi not_cameAt_snoc_removed
  · exact (cameAt_snoc_other hkey).1 hi

theorem Follows.ordered_change (h : Follows m es) (e : Event α) :
    (m.change e).keys.Pairwise fun key other =>
      ∀ i j, CameAt (es ++ [e]) key i → CameAt (es ++ [e]) other j → i < j := by
  obtain ⟨key, value⟩ := e
  have hkept : m.keys.Pairwise fun other another => ∀ i j,
      CameAt (es ++ [(key, value)]) other i → CameAt (es ++ [(key, value)]) another j → i < j := by
    refine h.ordered.imp_of_mem ?_
    intro other another hother hanother hlt i j hi hj
    exact hlt i j (h.cameAt_of_snoc hother hi) (h.cameAt_of_snoc hanother hj)
  cases value with
  | some value =>
    rw [OrderedMap.change, keys_insert]
    split
    next => exact hkept
    next hmem =>
      -- A new key comes to stay behind all others.
      rw [List.pairwise_append]
      refine ⟨hkept, List.pairwise_singleton _ _, ?_⟩
      intro other hother last hlast i j hi hj
      rw [List.mem_singleton.1 hlast] at hj
      have hnone := mt (h.present key).2 hmem
      rcases cameAt_snoc_given.1 hj with hj | ⟨-, rfl⟩
      · exact absurd ⟨j, hj⟩ hnone
      · exact (h.cameAt_of_snoc hother hi).lt_length
  | none =>
    rw [OrderedMap.change, keys_erase]
    exact hkept.filter _

/-- What one event preserves. -/
theorem Follows.change (h : Follows m es) (e : Event α) : Follows (m.change e) (es ++ [e]) :=
  ⟨h.found_change e, h.present_change e, h.ordered_change e⟩

end

/-- What a whole history preserves. -/
theorem follows_history (es : List (Event α)) : Follows (es.foldl change empty) es := by
  induction es using List.reverseRecOn with
  | nil => exact follows_empty
  | append_singleton es e ih =>
    rw [List.foldl_append]
    exact ih.change e

theorem follows_edited (edits : List (Edit α)) : Follows (edited edits) (history edits) := by
  rw [edited, foldl_apply]
  exact follows_history (history edits)

/-- A map holds what it was given last, under keys that differ from each other, in the order in
which they came to stay. To take in entries is to insert them one by one. -/
theorem edited_order (edits : List (Edit α)) :
    (edited edits).keys.Nodup ∧
    (∀ key value, (edited edits).get? key = some value ↔ LastGiven (history edits) key value) ∧
    (∀ key, key ∈ (edited edits).keys ↔ ∃ i, CameAt (history edits) key i) ∧
    ((edited edits).keys.Pairwise fun key other =>
      ∀ i j, CameAt (history edits) key i → CameAt (history edits) other j → i < j) ∧
    (∀ (n : Nat) key value, (edited edits).entries[n]? = some (key, value) ↔
      (edited edits).keys[n]? = some key ∧ (edited edits).get? key = some value) ∧
    (edited edits).size = (edited edits).keys.length ∧
    (∀ key value, (edited (edits ++ [.insert key value])).keys =
      if key ∈ (edited edits).keys then (edited edits).keys else (edited edits).keys ++ [key]) ∧
    (∀ key, (edited (edits ++ [.remove key])).keys = (edited edits).keys.filter (· ≠ key)) ∧
    ∀ entries, edited (edits ++ [.extend entries]) =
      edited (edits ++ entries.map fun e => .insert e.1 e.2) := by
  have h := follows_edited edits
  refine ⟨(edited edits).nodup, h.found, h.present, h.ordered, getElem?_entries _, ?_, ?_, ?_, ?_⟩
  · rw [size, keys, List.length_map]
  · intro key value
    rw [edited, List.foldl_append]
    exact keys_insert _ key value
  · intro key
    rw [edited, List.foldl_append]
    exact keys_erase _ key
  · intro entries
    rw [edited, edited, List.foldl_append, List.foldl_append, List.foldl_map]
    rfl

/-- A key that is overwritten keeps its place; one that was taken away comes back at the end. -/
example : (edited [.insert "a" 1, .insert "b" 2, .remove "a", .insert "a" 3,
    .extend [("b", 4)]]).entries = [("b", 4), ("a", 3)] := by
  decide

end OrderedMap

end LineScript
