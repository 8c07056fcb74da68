import LineScript.Proofs.World.Tables
import LineScript.Session
import Mathlib

/-!
# Writing through paths

A write finds a place first and changes it then. Main statement: where no container is inside
itself, a write that succeeds puts the value where its path leads, changes one place of one
container, is seen through every way to that container and leaves all else alone; a write that fails
changes nothing; and which writes succeed can be told from the path and the world before.
-/

namespace LineScript

/-- A list or a map. -/
def Value.IsContainer : Value → Prop
  | .list _ => True
  | .map _ => True
  | _ => False

/-- A whole number, as an index, is one of a sequence of the given length: it counts from the front
or, if it is negative, from the end. -/
def IsIndexOf (i : Int) (length : Nat) : Prop := -(length : Int) ≤ i ∧ i < (length : Int)

instance (i : Int) (length : Nat) : Decidable (IsIndexOf i length) :=
  inferInstanceAs (Decidable (_ ∧ _))

namespace World

/-- What a value refers to was made, if it is a list or a map. -/
def Made (w : World) : Value → Prop
  | .list r => r.index < w.lists.size
  | .map r => r.index < w.maps.size
  | _ => True

/-- Everything that is kept in a world was made. -/
def Intact (w : World) : Prop := ∀ v, w.Stores v → w.Made v

/-- No list and no map is found inside itself, however deep. -/
def Acyclic (w : World) : Prop :=
  ∀ t : Value, t.IsContainer → ∀ path, path ≠ [] → w.lookup? t path ≠ some t

/-- A write to the path succeeds: the value is a container, and all in front of the last key leads
through stored values to a container in which the last key has a place. Every key has one in a map;
in a list, one that writes a 32-bit index does. -/
def Writable (w : World) (v : Value) (path : Path) : Prop :=
  v.IsContainer ∧ ∃ parent last t, path = parent ++ [last] ∧ w.lookup? v parent = some t ∧
    t.IsContainer ∧ ∀ r, t = .list r → ∃ i, Number.readInt? (Text.trim last) = some i ∧
      (Number.minInt32 ≤ i ∧ i ≤ Number.maxInt32) ∧ IsIndexOf i (w.elements r).length

/-- One element of a list, or one entry of a map, has a new value. A new entry comes behind all
others. -/
def ChangesOne (w : World) (t : Value) (last : String) (x : Value) (w' : World) : Prop :=
  match t with
  | .list r => ∃ k < (w.elements r).length, w'.elements r = (w.elements r).set k x
  | .map r =>
    (w'.contents r).isInstance = (w.contents r).isInstance ∧
    (w'.contents r).entries.keys =
      (if last ∈ (w.contents r).entries.keys then (w.contents r).entries.keys
        else (w.contents r).entries.keys ++ [last]) ∧
    ∀ key, (w'.contents r).entries.get? key =
      if last = key then some x else (w.contents r).entries.get? key
  | _ => False

/-- A container was written in one place, that of a key. All who find the container find the value
in that place, however they write its key, and nothing else has changed. -/
structure WrittenOnce (w : World) (t : Value) (last : String) (x : Value) (w' : World) : Prop where
  place : w.ChangesOne t last x w'
  seen : ∀ u path key, w.lookup? u path = some t → w.slotAt t key = w.slotAt t last →
    w'.lookup? u (path ++ [key]) = some x
  lists : ∀ r, t ≠ .list r → w'.elements r = w.elements r
  maps : ∀ r, t ≠ .map r → w'.contents r = w.contents r
  others : ∃ lists maps, lists.size = w.lists.size ∧ maps.size = w.maps.size ∧
    w' = { w with lists := lists, maps := maps }

theorem wrapIndex_isSome_iff {i : Int} {length : Nat} :
    (wrapIndex i length).isSome = true ↔ IsIndexOf i length := by
  unfold wrapIndex IsIndexOf
  dsimp only
  by_cases hnegative : i < 0
  · rw [if_pos hnegative]
    split <;> simp <;> omega
  · rw [if_neg hnegative]
    split <;> simp <;> omega

theorem wrapIndex_lt {i : Int} {length k : Nat} (h : wrapIndex i length = some k) :
    k < length := by
  unfold wrapIndex at h
  obtain ⟨⟨hnonneg, hlt⟩, hk⟩ := Option.ite_none_right_eq_some.1 h
  cases hk
  omega

section Paths

variable {w : World}

theorem lookup?_append (v : Value) (path rest : Path) :
    w.lookup? v (path ++ rest) = (w.lookup? v path).bind fun t => w.lookup? t rest := by
  induction path generalizing v with
  | nil => rfl
  | cons key path ih =>
    rw [List.cons_append, lookup?, lookup?]
    cases w.child? v key with
    | none => rfl
    | some c => exact ih c

theorem lookup?_snoc (v : Value) (path : Path) (key : String) :
    w.lookup? v (path ++ [key]) = (w.lookup? v path).bind fun t => w.child? t key := by
  rw [lookup?_append]
  congr 1
  funext t
  rw [lookup?]
  cases w.child? t key <;> rfl

/-- What a path leads to was made, since all that is kept was. -/
theorem Intact.lookup? (h : w.Intact) {v t : Value} {path : Path} (hv : w.Made v)
    (ht : w.lookup? v path = some t) : w.Made t := by
  induction path generalizing v with
  | nil =>
    cases ht
    exact hv
  | cons key path ih =>
    rw [World.lookup?] at ht
    split at ht
    next c hc =>
      refine ih ?_ ht
      cases v with
      | string s =>
        obtain ⟨i, -, hi⟩ := Option.bind_eq_some_iff.1 hc
        unfold characterAt at hi
        split at hi
        · obtain ⟨_, -, rfl⟩ := Option.map_eq_some_iff.1 hi
          trivial
        · cases hi
      | list r =>
        obtain ⟨i, -, hi⟩ := Option.bind_eq_some_iff.1 hc
        obtain ⟨k, -, hk⟩ := Option.bind_eq_some_iff.1 hi
        exact h c (.element (List.mem_of_getElem? hk))
      | map r => exact h c (.entry (OrderedMap.mem_values_of_get? hc))
      | interface r =>
        obtain ⟨o, ho, hmember⟩ := Option.bind_eq_some_iff.1 hc
        exact h c (.member ho (OrderedMap.mem_values_of_get? hmember))
      | _ => cases hc
    · cases ht

/-- Values get smaller on the way into containers: then no container is inside itself. -/
theorem acyclic_of_rank (rank : Value → Nat)
    (hrank : ∀ v key c, w.child? v key = some c → rank c ≤ rank v)
    (hinto : ∀ v key c, v.IsContainer → w.child? v key = some c → rank c < rank v) :
    w.Acyclic := by
  have hle : ∀ path v t, w.lookup? v path = some t → rank t ≤ rank v := by
    intro path
    induction path with
    | nil =>
      intro v t ht
      cases ht
      exact Nat.le_refl _
    | cons key path ih =>
      intro v t ht
      rw [World.lookup?] at ht
      split at ht
      next c hc => exact Nat.le_trans (ih c t ht) (hrank v key c hc)
      · cases ht
  intro t ht path hpath hself
  cases path with
  | nil => exact hpath rfl
  | cons key path =>
    rw [World.lookup?] at hself
    split at hself
    next c hc => exact absurd (hle path c t hself) (Nat.not_le.2 (hinto t key c ht hc))
    · cases hself

end Paths

section Slots

variable {w : World} {t x : Value} {last : String} {s : Slot}

/-- The container that a place belongs to. -/
def Slot.container : Slot → Value
  | .element r _ => .list r
  | .entry r _ => .map r

/-- A place under a key belongs to the value that has the key. -/
theorem container_slotAt (h : w.slotAt t last = .ok s) : s.container = t := by
  cases t with
  | list r =>
    simp only [slotAt] at h
    split at h
    · cases h
    · split at h
      · cases h
      · cases h
        rfl
  | map r =>
    cases h
    rfl
  | _ => cases h

theorem Slot.container_isContainer (s : Slot) : s.container.IsContainer := by
  cases s <;> trivial

theorem elements_write (r : ListRef) (hr : s.container ≠ .list r) :
    (w.write s x).elements r = w.elements r := by
  cases s with
  | element q k =>
    rw [write, elements_setElements, if_neg]
    rintro ⟨rfl, -⟩
    exact hr rfl
  | entry q key => rfl

theorem contents_write (r : MapRef) (hr : s.container ≠ .map r) :
    (w.write s x).contents r = w.contents r := by
  cases s with
  | element q k => rfl
  | entry q key =>
    rw [write, contents_modifyMap, if_neg]
    rintro ⟨rfl, -⟩
    exact hr rfl

/-- What is under the keys of another value is as it was. -/
theorem child?_write (u : Value) (hu : s.container ≠ u) (key : String) :
    (w.write s x).child? u key = w.child? u key := by
  cases u with
  | list r => simp only [child?, elements_write r hu]
  | map r => simp only [child?, contents_write r hu]
  | interface r => cases s <;> rfl
  | _ => rfl

/-- Every way to the container of a place is still there behind the write, for no way passes the
container before its end. -/
theorem lookup?_write (hw : w.Acyclic) {u : Value} {path : Path}
    (h : w.lookup? u path = some s.container) :
    (w.write s x).lookup? u path = some s.container := by
  induction path generalizing u with
  | nil => exact h
  | cons key path ih =>
    have hu : s.container ≠ u := by
      rintro rfl
      exact hw _ s.container_isContainer (key :: path) (List.cons_ne_nil _ _) h
    rw [lookup?] at h ⊢
    rw [child?_write u hu]
    split at h
    next c _ => exact ih h
    · cases h

/-- The place of an index, and the index. -/
theorem slotAt_list {r : ListRef} (h : w.slotAt (.list r) last = .ok s) :
    ∃ i k, Number.readInt32? last = some i ∧ wrapIndex i (w.elements r).length = some k ∧
      s = .element r k := by
  simp only [slotAt] at h
  split at h
  · cases h
  next i hi =>
    split at h
    · cases h
    next k hk =>
      cases h
      exact ⟨i, k, hi, hk, rfl⟩

/-- What was written in a place is under every key of the place. -/
theorem child?_write_self (ht : w.Made t) (h : w.slotAt t last = .ok s) :
    (w.write s x).child? t last = some x := by
  cases t with
  | list r =>
    obtain ⟨i, k, hi, hk, rfl⟩ := slotAt_list h
    have hset : (w.write (.element r k) x).elements r = (w.elements r).set k x := by
      rw [write, elements_setElements, if_pos ⟨rfl, ht⟩]
    simp only [child?, hi, Option.bind_some, hset, List.length_set, hk]
    rw [List.getElem?_set_self (wrapIndex_lt hk)]
  | map r =>
    cases h
    rw [child?, write, contents_modifyMap, if_pos ⟨rfl, ht⟩]
    exact (OrderedMap.get?_insert _ _ _ _).trans (if_pos rfl)
  | _ => cases h

theorem changesOne_write (ht : w.Made t) (h : w.slotAt t last = .ok s) :
    w.ChangesOne t last x (w.write s x) := by
  cases t with
  | list r =>
    obtain ⟨i, k, hi, hk, rfl⟩ := slotAt_list h
    refine ⟨k, wrapIndex_lt hk, ?_⟩
    rw [write, elements_setElements, if_pos ⟨rfl, ht⟩]
  | map r =>
    cases h
    have hnew : (w.write (.entry r last) x).contents r = (w.contents r).insert last x := by
      rw [write, contents_modifyMap, if_pos ⟨rfl, ht⟩]
    refine ⟨?_, ?_, ?_⟩
    · rw [hnew]
      rfl
    · rw [hnew]
      exact OrderedMap.keys_insert _ _ _
    · intro key
      rw [hnew]
      exact OrderedMap.get?_insert _ _ _ _
  | _ => cases h

theorem writtenOnce_write (hw : w.Acyclic) (ht : w.Made t) (h : w.slotAt t last = .ok s) :
    w.WrittenOnce t last x (w.write s x) := by
  have hcontainer := container_slotAt h
  refine ⟨changesOne_write ht h, ?_, ?_, ?_, ?_⟩
  · intro u path key hu hkey
    rw [← hcontainer] at hu
    rw [lookup?_snoc, lookup?_write hw hu, Option.bind_some, hcontainer]
    exact child?_write_self ht (hkey.trans h)
  · intro r hr
    exact elements_write r (hcontainer ▸ hr)
  · intro r hr
    exact contents_write r (hcontainer ▸ hr)
  · cases s with
    | element r k => exact ⟨_, w.maps, Heap.size_set _ _ _, rfl, rfl⟩
    | entry r key => exact ⟨w.lists, _, rfl, Heap.size_modify _ _ _, rfl⟩

end Slots

section Succeeding

variable {w : World} {v : Value} {path : Path}

theorem splitLast?_snoc (parent : Path) (last : String) :
    Path.splitLast? (parent ++ [last]) = some (parent, last) := by
  simp [Path.splitLast?]

theorem slot_nil (w : World) (v : Value) (s : Slot) : w.slot v [] ≠ .ok s := by
  cases v <;> simp [slot, Path.splitLast?]

/-- All keys but the last one lead to the container that has the place. -/
theorem slot_snoc (hv : v.IsContainer) (parent : Path) (last : String) :
    w.slot v (parent ++ [last]) = match w.lookup? v parent with
      | none => .error (.of (.cannotSetPath (Path.text (parent ++ [last]))))
      | some t => w.slotAt t last := by
  cases v with
  | list r =>
    cases hlookup : w.lookup? (.list r) parent <;> simp only [slot, splitLast?_snoc, hlookup]
  | map r =>
    cases hlookup : w.lookup? (.map r) parent <;> simp only [slot, splitLast?_snoc, hlookup]
  | _ => exact hv.elim

/-- A path that has a place leads to it by its last key, in a container that the others lead to. -/
theorem slot_eq_ok_iff {s : Slot} : w.slot v path = .ok s ↔ v.IsContainer ∧
    ∃ parent last t, path = parent ++ [last] ∧ w.lookup? v parent = some t ∧
      w.slotAt t last = .ok s := by
  constructor
  · intro h
    have hv : v.IsContainer := by
      cases v with
      | list r => trivial
      | map r => trivial
      | _ => cases h
    rcases List.eq_nil_or_concat path with rfl | ⟨parent, last, rfl⟩
    · exact absurd h (slot_nil w v s)
    · rw [List.concat_eq_append, slot_snoc hv] at h
      split at h
      · cases h
      next t ht => exact ⟨hv, parent, last, t, List.concat_eq_append, ht, h⟩
  · rintro ⟨hv, parent, last, t, rfl, ht, h⟩
    rw [slot_snoc hv, ht]
    exact h

/-- A key has a place in every map, and in a list if it writes an index of it. -/
theorem slotAt_isOk_iff {t : Value} {last : String} : (∃ s, w.slotAt t last = .ok s) ↔
    t.IsContainer ∧ ∀ r, t = .list r → ∃ i, Number.readInt? (Text.trim last) = some i ∧
      (Number.minInt32 ≤ i ∧ i ≤ Number.maxInt32) ∧ IsIndexOf i (w.elements r).length := by
  cases t with
  | list r =>
    constructor
    · rintro ⟨s, h⟩
      obtain ⟨i, k, hi, hk, rfl⟩ := slotAt_list h
      refine ⟨trivial, ?_⟩
      intro q hq
      cases hq
      unfold Number.readInt32? at hi
      split at hi
      next j hj =>
        split at hi
        next hrange =>
          cases hi
          refine ⟨i, hj, by simpa using hrange, wrapIndex_isSome_iff.1 ?_⟩
          rw [hk, Option.isSome_some]
        · cases hi
      · cases hi
    · rintro ⟨-, h⟩
      obtain ⟨i, hi, hrange, hindex⟩ := h r rfl
      obtain ⟨k, hk⟩ := Option.isSome_iff_exists.1 (wrapIndex_isSome_iff.2 hindex)
      have hread : Number.readInt32? last = some i := by
        rw [Number.readInt32?, hi]
        exact if_pos (by simpa using hrange)
      exact ⟨.element r k, by simp only [slotAt, hread, hk]⟩
  | map r =>
    constructor
    · intro _
      refine ⟨trivial, ?_⟩
      intro q hq
      cases hq
    · intro _
      exact ⟨_, rfl⟩
  | _ => simp [slotAt, Value.IsContainer]

theorem slot_isOk_iff : (∃ s, w.slot v path = .ok s) ↔ w.Writable v path := by
  constructor
  · rintro ⟨s, hs⟩
    obtain ⟨hv, parent, last, t, hpath, ht, h⟩ := slot_eq_ok_iff.1 hs
    obtain ⟨hcontainer, hindex⟩ := slotAt_isOk_iff.1 ⟨s, h⟩
    exact ⟨hv, parent, last, t, hpath, ht, hcontainer, hindex⟩
  · rintro ⟨hv, parent, last, t, hpath, ht, hplace⟩
    obtain ⟨s, hs⟩ := slotAt_isOk_iff.2 hplace
    exact ⟨s, slot_eq_ok_iff.2 ⟨hv, parent, last, t, hpath, ht, hs⟩⟩

end Succeeding

end World

namespace Run

variable {w : World} {v x : Value} {path : Path} {site : Site}

/-- A write behind a value is one write of the world, or the fault of its place. -/
theorem writeChain_apply : writeChain path (some v) x site w = match w.set v path x with
    | .ok w' => .ok () w'
    | .error f => .error (.fault f) w := by
  change (read (fun w => w.slot v path) >>= fun s => modify fun w => w.write s x) w = _
  rw [World.set]
  change EStateM.bind _ _ w = _
  unfold EStateM.bind read
  dsimp only
  cases w.slot v path <;> rfl

/-- Writes through paths are exact and leave nothing half done. -/
theorem writeChain_exact (hintact : w.Intact) (hacyclic : w.Acyclic) (hv : w.Made v) (path : Path)
    (x : Value) (site : Site) :
    (∀ w', writeChain path (some v) x site w = .ok () w' →
      w'.lookup? v path = some x ∧
      ∃ parent last t, path = parent ++ [last] ∧ w.lookup? v parent = some t ∧
        w.WrittenOnce t last x w') ∧
    (∀ e w', writeChain path (some v) x site w = .error e w' → w' = w) ∧
    ((∃ w', writeChain path (some v) x site w = .ok () w') ↔ w.Writable v path) := by
  rw [writeChain_apply, World.set, ← World.slot_isOk_iff]
  cases hslot : w.slot v path with
  | error f =>
    refine ⟨?_, ?_, ?_⟩
    · intro w' h
      cases h
    · intro e w' h
      cases h
      rfl
    · constructor
      · rintro ⟨w', h⟩
        cases h
      · rintro ⟨s, h⟩
        cases h
  | ok s =>
    obtain ⟨-, parent, last, t, rfl, ht, hplace⟩ := World.slot_eq_ok_iff.1 hslot
    have hmade : w.Made t := hintact.lookup? hv ht
    have hwritten : w.WrittenOnce t last x (w.write s x) :=
      World.writtenOnce_write hacyclic hmade hplace
    refine ⟨?_, ?_, ?_⟩
    · intro w' h
      cases h
      exact ⟨hwritten.seen v parent last ht rfl, parent, last, t, rfl, ht, hwritten⟩
    · intro e w' h
      cases h
    · exact ⟨fun _ => ⟨s, rfl⟩, fun _ => ⟨w.write s x, rfl⟩⟩

/-- A world with a map that holds one list under two keys. -/
def sharedList : World :=
  let start := World.bare ⟨"main", [], .standard, Request.standardHandlers, .standard, default⟩
  let list := start.newList [.nil, .bool true]
  (list.2.newMap (.ofEntries [("a", list.1), ("b", list.1)])).2

theorem sharedList_elements (r : ListRef) :
    sharedList.elements r = if r.index = 0 then [.nil, .bool true] else [] := by
  obtain ⟨i⟩ := r
  cases i <;> rfl

theorem sharedList_contents (r : MapRef) : (sharedList.contents r).entries.entries =
    if r.index = 2 then [("a", .list ⟨0⟩), ("b", .list ⟨0⟩)] else [] := by
  obtain ⟨_ | _ | _ | i⟩ := r <;> rfl

theorem sharedList_intact : sharedList.Intact := by
  intro v hv
  cases hv with
  | @element r _ hv =>
    rw [sharedList_elements] at hv
    split at hv
    · simp only [List.mem_cons, List.not_mem_nil, or_false] at hv
      rcases hv with rfl | rfl <;> trivial
    · cases hv
  | @entry r _ hv =>
    rw [OrderedMap.values, sharedList_contents] at hv
    split at hv
    · simp only [List.map_cons, List.map_nil, List.mem_cons, List.not_mem_nil, or_false] at hv
      rcases hv with rfl | rfl <;> exact Nat.zero_lt_one
    · cases hv
  | default hi => cases hi
  | member hi => cases hi
  | @result r f hf =>
    obtain ⟨_ | _ | i⟩ := r
    · cases hf
      trivial
    · cases hf
      trivial
    · cases hf
  | table hv => cases hv

/-- How deep values nest in the world: the map holds the list, which holds nothing that nests. -/
def sharedDepth : Value → Nat
  | .map _ => 2
  | .list _ => 1
  | _ => 0

theorem sharedList_child? {v c : Value} {key : String} (h : sharedList.child? v key = some c) :
    sharedDepth c ≤ sharedDepth v ∧ (v.IsContainer → sharedDepth c < sharedDepth v) := by
  cases v with
  | string s =>
    obtain ⟨i, -, hi⟩ := Option.bind_eq_some_iff.1 h
    unfold World.characterAt at hi
    split at hi
    · obtain ⟨_, -, rfl⟩ := Option.map_eq_some_iff.1 hi
      exact ⟨Nat.le_refl _, False.elim⟩
    · cases hi
  | list r =>
    obtain ⟨i, -, hi⟩ := Option.bind_eq_some_iff.1 h
    obtain ⟨k, -, hk⟩ := Option.bind_eq_some_iff.1 hi
    have hmem := List.mem_of_getElem? hk
    rw [sharedList_elements] at hmem
    split at hmem
    · simp only [List.mem_cons, List.not_mem_nil, or_false] at hmem
      rcases hmem with rfl | rfl <;> exact ⟨Nat.zero_le _, fun _ => Nat.zero_lt_one⟩
    · cases hmem
  | map r =>
    have hmem := OrderedMap.mem_values_of_get? h
    rw [OrderedMap.values, sharedList_contents] at hmem
    split at hmem
    · simp only [List.map_cons, List.map_nil, List.mem_cons, List.not_mem_nil, or_false] at hmem
      rcases hmem with rfl | rfl <;> exact ⟨Nat.le_succ 1, fun _ => Nat.lt_succ_self 1⟩
    · cases hmem
  | interface r => cases h
  | _ => cases h

theorem sharedList_acyclic : sharedList.Acyclic :=
  World.acyclic_of_rank sharedDepth (fun _ _ _ h => (sharedList_child? h).1)
    fun _ _ _ hv h => (sharedList_child? h).2 hv

/-- What is written under one key of the shared list is found under the other, and under another
spelling of the index. -/
theorem writeChain_exact_sharedList : ∃ w', writeChain ["a", " -1 "] (some (.map ⟨2⟩)) (.string "x")
      ⟨⟨1⟩, []⟩ sharedList = .ok () w' ∧
    w'.lookup? (.map ⟨2⟩) ["a", " -1 "] = some (.string "x") ∧
    w'.lookup? (.map ⟨2⟩) ["b", "1"] = some (.string "x") := by
  have hmap : sharedList.Made (.map ⟨2⟩) := Nat.lt_succ_self 2
  obtain ⟨hwritten, -, hiff⟩ := writeChain_exact sharedList_intact sharedList_acyclic hmap
    ["a", " -1 "] (.string "x") ⟨⟨1⟩, []⟩
  have hwritable : sharedList.Writable (.map ⟨2⟩) ["a", " -1 "] := by
    refine ⟨trivial, ["a"], " -1 ", .list ⟨0⟩, rfl, rfl, trivial, ?_⟩
    intro r hr
    cases hr
    exact ⟨-1, by decide +kernel, by decide, by decide⟩
  obtain ⟨w', hw'⟩ := hiff.2 hwritable
  obtain ⟨hfound, parent, last, t, hpath, ht, hone⟩ := hwritten w' hw'
  refine ⟨w', hw', hfound, ?_⟩
  have hsplit : ["a"] ++ [" -1 "] = parent ++ [last] := hpath
  obtain ⟨rfl, hlast⟩ := List.append_inj' hsplit rfl
  cases hlast
  obtain rfl : t = .list ⟨0⟩ := (Option.some.inj ht).symm
  have hsame : sharedList.slotAt (.list ⟨0⟩) "1" = sharedList.slotAt (.list ⟨0⟩) " -1 " := by cbv
  exact hone.seen (.map ⟨2⟩) ["b"] "1" rfl hsame

end Run

end LineScript
