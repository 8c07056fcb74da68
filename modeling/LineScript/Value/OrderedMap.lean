/-!
# Maps in insertion order

A finite map from texts whose entries keep the order in which their keys were first inserted. No two
entries have the same key, and every map carries the proof. The view of a map is its list of
entries; the small lemmas say what each operation does to the keys and to a look-up.
-/

namespace LineScript

/-- Entries with keys that differ from each other, in the order in which the keys were first
inserted. -/
structure OrderedMap (α : Type) where
  entries : List (String × α)
  nodup : (entries.map (·.1)).Nodup

namespace OrderedMap

variable {α : Type}

/-- The value of the first entry with the given key. -/
def lookupIn (key : String) : List (String × α) → Option α
  | [] => none
  | e :: es => if e.1 = key then some e.2 else lookupIn key es

/-- The entries with a value put under a key: in the place of the entry that has the key, or
behind all others. -/
def insertIn (key : String) (value : α) : List (String × α) → List (String × α)
  | [] => [(key, value)]
  | e :: es => if e.1 = key then (key, value) :: es else e :: insertIn key value es

/-- The entries without the first one that has the given key. -/
def eraseIn (key : String) : List (String × α) → List (String × α)
  | [] => []
  | e :: es => if e.1 = key then es else e :: eraseIn key es

/-- A key that has a place keeps it, and a new one comes behind all others. -/
theorem map_insertIn (key : String) (value : α) (es : List (String × α)) :
    (insertIn key value es).map (·.1) =
      if key ∈ es.map (·.1) then es.map (·.1) else es.map (·.1) ++ [key] := by
  induction es with
  | nil => rfl
  | cons e es ih =>
    rw [insertIn]
    by_cases he : e.1 = key
    · simp [he]
    · rw [if_neg he, List.map_cons, ih]
      by_cases hkey : key ∈ es.map (·.1)
      · have hold : key ∈ (e :: es).map (·.1) := List.mem_cons_of_mem _ hkey
        rw [if_pos hkey, if_pos hold, List.map_cons]
      · have hnew : key ∉ (e :: es).map (·.1) := by
          rw [List.map_cons, List.mem_cons, not_or]
          exact ⟨Ne.symm he, hkey⟩
        rw [if_neg hkey, if_neg hnew, List.map_cons, List.cons_append]

theorem nodup_insertIn (key : String) (value : α) {es : List (String × α)}
    (h : (es.map (·.1)).Nodup) : ((insertIn key value es).map (·.1)).Nodup := by
  rw [map_insertIn]
  split
  · exact h
  next hkey =>
    rw [List.nodup_append]
    refine ⟨h, List.pairwise_singleton _ _, ?_⟩
    intro other hother last hlast heq
    rw [List.mem_singleton.1 hlast] at heq
    exact hkey (heq ▸ hother)

theorem eraseIn_sublist (key : String) (es : List (String × α)) :
    (eraseIn key es).Sublist es := by
  induction es with
  | nil => exact .refl _
  | cons e es ih =>
    rw [eraseIn]
    split
    · exact List.sublist_cons_self e es
    · exact ih.cons_cons e

theorem nodup_eraseIn (key : String) {es : List (String × α)} (h : (es.map (·.1)).Nodup) :
    ((eraseIn key es).map (·.1)).Nodup :=
  h.sublist ((eraseIn_sublist key es).map _)

theorem lookupIn_insertIn (key other : String) (value : α) (es : List (String × α)) :
    lookupIn other (insertIn key value es) =
      if key = other then some value else lookupIn other es := by
  induction es with
  | nil => simp [insertIn, lookupIn]
  | cons e es ih =>
    rw [insertIn]
    by_cases he : e.1 = key
    · rw [if_pos he, lookupIn, lookupIn, he]
      split <;> rfl
    · rw [if_neg he, lookupIn, lookupIn, ih]
      by_cases ho : e.1 = other
      · have hne : key ≠ other := fun hkey => he (ho.trans hkey.symm)
        rw [if_pos ho, if_pos ho, if_neg hne]
      · rw [if_neg ho, if_neg ho]

theorem mem_insertIn {key : String} {value : α} {e : String × α} {es : List (String × α)}
    (h : e ∈ insertIn key value es) : e = (key, value) ∨ e ∈ es := by
  induction es with
  | nil => exact .inl (List.mem_singleton.1 h)
  | cons o es ih =>
    rw [insertIn] at h
    split at h
    · rcases List.mem_cons.1 h with h | h
      · exact .inl h
      · exact .inr (List.mem_cons_of_mem _ h)
    · rcases List.mem_cons.1 h with rfl | h
      · exact .inr List.mem_cons_self
      · exact (ih h).imp_right (List.mem_cons_of_mem _)

theorem mem_of_lookupIn {key : String} {value : α} {es : List (String × α)}
    (h : lookupIn key es = some value) : (key, value) ∈ es := by
  induction es with
  | nil => cases h
  | cons e es ih =>
    rw [lookupIn] at h
    split at h
    next hkey =>
      cases h
      rw [← hkey]
      exact List.mem_cons_self
    · exact List.mem_cons_of_mem _ (ih h)

theorem lookupIn_of_mem {key : String} {value : α} {es : List (String × α)}
    (h : (es.map (·.1)).Nodup) (he : (key, value) ∈ es) : lookupIn key es = some value := by
  induction es with
  | nil => cases he
  | cons e es ih =>
    obtain ⟨hfirst, hrest⟩ := List.nodup_cons.1 h
    rw [lookupIn]
    rcases List.mem_cons.1 he with rfl | he
    · rw [if_pos rfl]
    · have hmem : key ∈ es.map (·.1) := List.mem_map_of_mem he
      rw [if_neg, ih hrest he]
      rintro rfl
      exact hfirst hmem

/-- The map without entries. -/
def empty : OrderedMap α := ⟨[], List.Pairwise.nil⟩

instance : Inhabited (OrderedMap α) := ⟨empty⟩

/-- The value under a key. -/
def get? (m : OrderedMap α) (key : String) : Option α := lookupIn key m.entries

/-- Whether there is a value under a key. -/
def contains (m : OrderedMap α) (key : String) : Bool := (m.get? key).isSome

/-- Puts a value under a key, which keeps its place if it has one. -/
def insert (m : OrderedMap α) (key : String) (value : α) : OrderedMap α :=
  ⟨insertIn key value m.entries, nodup_insertIn key value m.nodup⟩

/-- Removes a key; the others keep their order. -/
def erase (m : OrderedMap α) (key : String) : OrderedMap α :=
  ⟨eraseIn key m.entries, nodup_eraseIn key m.nodup⟩

/-- Inserts entries one after the other. -/
def extend (m : OrderedMap α) (entries : List (String × α)) : OrderedMap α :=
  entries.foldl (fun m e => m.insert e.1 e.2) m

/-- The map of the given entries, inserted one after the other. -/
def ofList (entries : List (String × α)) : OrderedMap α := empty.extend entries

/-- How many entries there are. -/
def size (m : OrderedMap α) : Nat := m.entries.length

/-- Whether there are no entries. -/
def isEmpty (m : OrderedMap α) : Bool := m.entries.isEmpty

/-- The keys in order. -/
def keys (m : OrderedMap α) : List String := m.entries.map (·.1)

/-- The values in order. -/
def values (m : OrderedMap α) : List α := m.entries.map (·.2)

theorem keys_insert (m : OrderedMap α) (key : String) (value : α) :
    (m.insert key value).keys = if key ∈ m.keys then m.keys else m.keys ++ [key] :=
  map_insertIn key value m.entries

@[simp] theorem get?_empty (key : String) : (empty : OrderedMap α).get? key = none := rfl

@[simp] theorem get?_insert (m : OrderedMap α) (key other : String) (value : α) :
    (m.insert key value).get? other = if key = other then some value else m.get? other :=
  lookupIn_insertIn key other value m.entries

/-- An entry is a key with the value that is found under it. -/
theorem mem_entries {m : OrderedMap α} {key : String} {value : α} :
    (key, value) ∈ m.entries ↔ m.get? key = some value :=
  ⟨lookupIn_of_mem m.nodup, mem_of_lookupIn⟩

theorem mem_keys {m : OrderedMap α} {key : String} :
    key ∈ m.keys ↔ ∃ value, m.get? key = some value := by
  constructor
  · intro hkey
    obtain ⟨⟨_, value⟩, he, rfl⟩ := List.mem_map.1 hkey
    exact ⟨value, mem_entries.1 he⟩
  · rintro ⟨value, hfound⟩
    exact List.mem_map_of_mem (mem_entries.2 hfound)

theorem mem_values_of_get? {m : OrderedMap α} {key : String} {value : α}
    (h : m.get? key = some value) : value ∈ m.values :=
  List.mem_map_of_mem (mem_entries.2 h)

theorem mem_values_insert {m : OrderedMap α} {key : String} {x value : α}
    (h : value ∈ (m.insert key x).values) : value = x ∨ value ∈ m.values := by
  obtain ⟨e, he, rfl⟩ := List.mem_map.1 h
  rcases mem_insertIn he with rfl | he
  · exact .inl rfl
  · exact .inr (List.mem_map_of_mem he)

theorem mem_values_erase {m : OrderedMap α} {key : String} {value : α}
    (h : value ∈ (m.erase key).values) : value ∈ m.values :=
  ((eraseIn_sublist key m.entries).map _).subset h

theorem mem_values_extend {m : OrderedMap α} {es : List (String × α)} {value : α}
    (h : value ∈ (m.extend es).values) : value ∈ m.values ∨ value ∈ es.map (·.2) := by
  induction es generalizing m with
  | nil => exact .inl h
  | cons e es ih =>
    rcases ih (m := m.insert e.1 e.2) h with h | h
    · rcases mem_values_insert h with h | h
      · exact .inr (h ▸ List.mem_cons_self)
      · exact .inl h
    · exact .inr (List.mem_cons_of_mem _ h)

theorem mem_values_ofList {es : List (String × α)} {value : α} (h : value ∈ (ofList es).values) :
    value ∈ es.map (·.2) := by
  rcases mem_values_extend h with h | h
  · cases h
  · exact h

end OrderedMap

end LineScript
