import LineScript.Proofs.Session.Table
import LineScript.Proofs.World.Writing

/-!
# Copies

Operators, copies by the host, `new`, and the methods `values` and `slice` of lists make containers
from what is in others. Main statement: they leave every container as it was; what they make is a
new container, in which the values inside the others are shared; and what becomes of it later is not
seen in the others, nor what becomes of these in it.
-/

namespace LineScript

namespace OrderedMap

variable {α : Type}

/-- Keys that have a place keep it, and the new ones come behind all others in their own order. -/
theorem keys_extend (m : OrderedMap α) {es : List (String × α)} (h : (es.map (·.1)).Nodup) :
    (m.extend es).keys = m.keys ++ (es.map (·.1)).filter fun key => decide (key ∉ m.keys) := by
  induction es generalizing m with
  | nil => simp [extend]
  | cons e es ih =>
    rw [List.map_cons, List.nodup_cons] at h
    have hstep : (m.extend (e :: es)).keys = ((m.insert e.1 e.2).extend es).keys := rfl
    rw [hstep, ih _ h.2, keys_insert]
    by_cases hkey : e.1 ∈ m.keys
    · simp [hkey]
    · have hrest : (es.map (·.1)).filter (fun key => decide (key ∉ m.keys ++ [e.1])) =
          (es.map (·.1)).filter fun key => decide (key ∉ m.keys) := by
        apply List.filter_congr
        intro key hmem
        have hne : key ≠ e.1 := by
          rintro rfl
          exact h.1 hmem
        simp [hne]
      rw [if_neg hkey, hrest, List.map_cons, List.filter_cons_of_pos (by simpa using hkey),
        List.append_assoc, List.singleton_append]

/-- Entries of which no two have the same key are those of the map that they make. -/
theorem get?_ofList {es : List (String × α)} (h : (es.map (·.1)).Nodup) (key : String) :
    (ofList es).get? key = lookupIn key es := by
  induction es with
  | nil => rfl
  | cons e es ih =>
    obtain ⟨hfirst, hrest⟩ := List.nodup_cons.1 h
    have hmake : ofList (e :: es) = (empty.insert e.1 e.2).extend es := rfl
    rw [hmake, get?_extend, ih hrest, get?_insert, lookupIn]
    by_cases hkey : e.1 = key
    · subst hkey
      have hnone : lookupIn e.1 es = none := by
        cases hfound : lookupIn e.1 es with
        | none => rfl
        | some v => exact absurd (List.mem_map_of_mem (mem_of_lookupIn hfound)) hfirst
      rw [if_pos rfl, if_pos rfl, hnone]
      rfl
    · rw [if_neg hkey, if_neg hkey, get?_empty, Option.or_none]

end OrderedMap

/-- A map has the entries of two others. What both have under a key is taken from the second, the
keys of the first come first, and what was made by `new` goes by the first. -/
structure MapObject.Merges (a b m : MapObject) : Prop where
  isInstance : m.isInstance = a.isInstance
  keys : m.entries.keys =
    a.entries.keys ++ b.entries.keys.filter fun key => decide (key ∉ a.entries.keys)
  found : ∀ key, m.entries.get? key = (b.entries.get? key).or (a.entries.get? key)

theorem MapObject.merges_extend (a b : MapObject) :
    Merges a b (a.extend b.entries.entries) where
  isInstance := rfl
  keys := OrderedMap.keys_extend a.entries b.entries.nodup
  found key := by
    have hlookup := OrderedMap.get?_extend a.entries b.entries.entries key
    rw [OrderedMap.get?_ofList b.entries.nodup] at hlookup
    exact hlookup

namespace World

/-- A container holds the same in two worlds. -/
def SameAt (t : Value) (w w' : World) : Prop :=
  match t with
  | .list r => w'.elements r = w.elements r
  | .map r => w'.contents r = w.contents r
  | _ => True

/-- A value is right inside a container. -/
def Holds (w : World) (t v : Value) : Prop :=
  match t with
  | .list r => v ∈ w.elements r
  | .map r => v ∈ (w.contents r).entries.values
  | _ => False

/-- All that can become of the containers of a world: one is written in a place, given other
elements, given other contents, or made. -/
inductive Change where
  | write (s : Slot) (x : Value)
  | elements (r : ListRef) (items : List Value)
  | contents (r : MapRef) (f : MapObject → MapObject)
  | newList (items : List Value)
  | newMap (m : MapObject)

namespace Change

/-- The container that is changed, if none is made. -/
def container? : Change → Option Value
  | .write s _ => some s.container
  | .elements r _ => some (.list r)
  | .contents r _ => some (.map r)
  | .newList _ => none
  | .newMap _ => none

/-- The world behind a change. -/
def apply (w : World) : Change → World
  | .write s x => w.write s x
  | .elements r items => w.setElements r items
  | .contents r f => w.modifyMap r f
  | .newList items => (w.newList items).2
  | .newMap m => (w.newMap m).2

end Change

/-- The world behind some changes. -/
def after (w : World) (changes : List Change) : World := changes.foldl Change.apply w

section Changes

variable {w : World} {t : Value}

theorem SameAt.refl (t : Value) (w : World) : SameAt t w w := by
  cases t <;> trivial

theorem SameAt.trans {w' w'' : World} (h : SameAt t w w') (h' : SameAt t w' w'') :
    SameAt t w w'' := by
  cases t with
  | list r => exact Eq.trans h' h
  | map r => exact Eq.trans h' h
  | _ => trivial

theorem Made.mono {w' : World} (ht : w.Made t) (hlists : w.lists.size ≤ w'.lists.size)
    (hmaps : w.maps.size ≤ w'.maps.size) : w'.Made t := by
  cases t with
  | list r => exact Nat.lt_of_lt_of_le ht hlists
  | map r => exact Nat.lt_of_lt_of_le ht hmaps
  | _ => trivial

/-- No change takes a container away. -/
theorem Made.apply (ht : w.Made t) (c : Change) : (c.apply w).Made t := by
  have hsizes : w.lists.size ≤ (c.apply w).lists.size ∧ w.maps.size ≤ (c.apply w).maps.size := by
    cases c with
    | write s x =>
      cases s with
      | element r k => exact ⟨(Heap.size_set _ _ _).ge, Nat.le_refl _⟩
      | entry r key => exact ⟨Nat.le_refl _, (Heap.size_modify _ _ _).ge⟩
    | elements r items => exact ⟨(Heap.size_set _ _ _).ge, Nat.le_refl _⟩
    | contents r f => exact ⟨Nat.le_refl _, (Heap.size_modify _ _ _).ge⟩
    | newList items => exact ⟨(Heap.size_push _ _).ge.trans' (Nat.le_succ _), Nat.le_refl _⟩
    | newMap m => exact ⟨Nat.le_refl _, (Heap.size_push _ _).ge.trans' (Nat.le_succ _)⟩
  exact ht.mono hsizes.1 hsizes.2

theorem sameAt_newList (ht : w.Made t) (items : List Value) :
    SameAt t w (w.newList items).2 := by
  cases t with
  | list r =>
    have hne : r.index ≠ w.lists.size := Nat.ne_of_lt ht
    rw [SameAt, elements_newList, if_neg hne]
  | map r => rfl
  | _ => trivial

theorem sameAt_newMap (ht : w.Made t) (m : MapObject) : SameAt t w (w.newMap m).2 := by
  cases t with
  | list r => rfl
  | map r =>
    have hne : r.index ≠ w.maps.size := Nat.ne_of_lt ht
    rw [SameAt, contents_newMap, if_neg hne]
  | _ => trivial

/-- A container that was made keeps what it holds when another is changed or made. -/
theorem sameAt_apply (ht : w.Made t) {c : Change} (hc : c.container? ≠ some t) :
    SameAt t w (c.apply w) := by
  cases c with
  | newList items => exact sameAt_newList ht items
  | newMap m => exact sameAt_newMap ht m
  | write s x =>
    have hne : s.container ≠ t := fun h => hc (congrArg some h)
    cases t with
    | list r => exact elements_write r hne
    | map r => exact contents_write r hne
    | _ => trivial
  | elements q items =>
    cases t with
    | list r =>
      rw [SameAt, Change.apply, elements_setElements, if_neg]
      rintro ⟨rfl, -⟩
      exact hc rfl
    | map r => rfl
    | _ => trivial
  | contents q f =>
    cases t with
    | list r => rfl
    | map r =>
      rw [SameAt, Change.apply, contents_modifyMap, if_neg]
      rintro ⟨rfl, -⟩
      exact hc rfl
    | _ => trivial

/-- However many others are changed or made. -/
theorem sameAt_after (ht : w.Made t) {changes : List Change}
    (h : ∀ c ∈ changes, c.container? ≠ some t) : SameAt t w (w.after changes) := by
  induction changes generalizing w with
  | nil => exact SameAt.refl t w
  | cons c changes ih =>
    obtain ⟨hc, hrest⟩ := List.forall_mem_cons.1 h
    exact (sameAt_apply ht hc).trans (ih (ht.apply c) hrest)

end Changes

/-- What makes copies: an operator on two values, a copy by the host, `new`, and the two methods of
lists that give lists of the same elements. -/
inductive Copying where
  | operator (operator : BinaryOperator) (left right : Value)
  | copy (v : Value)
  | instantiate (r : MapRef)
  | values (a : Arguments)
  | slice (a : Arguments)

namespace Copying

/-- What is made, and the world behind it. -/
def made (w : World) : Copying → Value × World
  | .operator o left right => w.apply o left right
  | .copy v => w.copy v
  | .instantiate r => w.newMap (w.contents r).instantiate
  | .values a => w.listMethod .values a
  | .slice a => w.listMethod .slice a

/-- The values that a copy is made from. -/
def operands : Copying → List Value
  | .operator _ left right => [left, right]
  | .copy v => [v]
  | .instantiate r => [.map r]
  | .values a => [a.receiver]
  | .slice a => [a.receiver]

/-- What a copy holds. Nothing else makes a container. -/
def Yields (w : World) (made : Value × World) : Copying → Prop
  | .operator o (.list a) (.list b) =>
    if o = .add then ∃ r, made.1 = .list r ∧ made.2.elements r = w.elements a ++ w.elements b
    else ¬ made.1.IsContainer
  | .operator o (.map a) (.map b) =>
    if o = .add then
      ∃ r, made.1 = .map r ∧ MapObject.Merges (w.contents a) (w.contents b) (made.2.contents r)
    else ¬ made.1.IsContainer
  | .copy (.list a) => ∃ r, made.1 = .list r ∧ made.2.elements r = w.elements a
  | .copy (.map a) => ∃ r, made.1 = .map r ∧ made.2.contents r = w.contents a
  | .instantiate a => ∃ r, made.1 = .map r ∧ made.2.contents r = ⟨(w.contents a).entries, true⟩
  | .values ⟨.list a, _, _⟩ => ∃ r, made.1 = .list r ∧ made.2.elements r = w.elements a
  | .slice ⟨.list a, _, _⟩ =>
    made.1 = .nil ∨ ∃ r, made.1 = .list r ∧ made.2.elements r <:+: w.elements a
  | _ => ¬ made.1.IsContainer

end Copying

/-- A container was made that was not there. What becomes of it is not seen in those that were
there, and what becomes of these is not seen in it; what is inside of it is what was put there, as
it is in every later world. -/
structure Apart (w : World) (made : Value × World) : Prop where
  isNew : ¬ w.Made made.1
  isMade : made.2.Made made.1
  unseen : ∀ changes, (∀ c ∈ changes, ∀ t, c.container? = some t → t = made.1) →
    ∀ t, w.Made t → SameAt t w (made.2.after changes)
  unmoved : ∀ changes, (∀ c ∈ changes, c.container? ≠ some made.1) →
    SameAt made.1 made.2 (made.2.after changes)
  shared : ∀ changes, (∀ c ∈ changes, c.container? ≠ some made.1) →
    ∀ key v path, made.2.child? made.1 key = some v →
      (made.2.after changes).lookup? made.1 (key :: path) = (made.2.after changes).lookup? v path

/-- Something is made of what is right inside some containers: a value that is no container, or a
new container. -/
inductive Gathers (w : World) (operands : List Value) : Value × World → Prop where
  | scalar {v : Value} (h : ¬ v.IsContainer) : Gathers w operands (v, w)
  | list {items : List Value} (h : ∀ v ∈ items, ∃ t ∈ operands, w.Holds t v) :
      Gathers w operands (w.newList items)
  | map {m : MapObject} (h : ∀ v ∈ m.entries.values, ∃ t ∈ operands, w.Holds t v) :
      Gathers w operands (w.newMap m)

namespace Gathers

variable {w : World} {operands : List Value} {made : Value × World}

theorem sameAt (h : Gathers w operands made) {t : Value} (ht : w.Made t) :
    SameAt t w made.2 := by
  cases h with
  | scalar => exact SameAt.refl t w
  | list => exact sameAt_newList ht _
  | map => exact sameAt_newMap ht _

theorem others (h : Gathers w operands made) :
    ∃ lists maps, made.2 = { w with lists := lists, maps := maps } := by
  cases h with
  | scalar => exact ⟨w.lists, w.maps, rfl⟩
  | list => exact ⟨_, w.maps, rfl⟩
  | map => exact ⟨w.lists, _, rfl⟩

theorem isNew (h : Gathers w operands made) (hmade : made.1.IsContainer) : ¬ w.Made made.1 := by
  cases h with
  | scalar hv => exact absurd hmade hv
  | list => exact Nat.lt_irrefl _
  | map => exact Nat.lt_irrefl _

theorem isMade (h : Gathers w operands made) (hmade : made.1.IsContainer) :
    made.2.Made made.1 := by
  cases h with
  | scalar hv => exact absurd hmade hv
  | list => simp [Made, newList]
  | map => simp [Made, newMap]

theorem mono (h : Gathers w operands made) {t : Value} (ht : w.Made t) : made.2.Made t := by
  cases h with
  | scalar => exact ht
  | list => exact ht.mono (by simp [newList]) (Nat.le_refl _)
  | map => exact ht.mono (Nat.le_refl _) (by simp [newMap])

theorem holds (h : Gathers w operands made) {v : Value} (hv : made.2.Holds made.1 v) :
    ∃ t ∈ operands, w.Holds t v := by
  cases h with
  | scalar hscalar =>
    rename_i u
    cases u <;> first | exact absurd trivial hscalar | exact hv.elim
  | list hitems =>
    have hmem : v ∈ (w.newList _).2.elements ⟨w.lists.size⟩ := hv
    rw [elements_newList, if_pos rfl] at hmem
    exact hitems v hmem
  | map hvalues =>
    have hmem : v ∈ ((w.newMap _).2.contents ⟨w.maps.size⟩).entries.values := hv
    rw [contents_newMap, if_pos rfl] at hmem
    exact hvalues v hmem

theorem apart (h : Gathers w operands made) (hmade : made.1.IsContainer) : Apart w made where
  isNew := h.isNew hmade
  isMade := h.isMade hmade
  unseen changes hchanges t ht := by
    refine (h.sameAt ht).trans (sameAt_after (h.mono ht) ?_)
    intro c hc hcontainer
    exact h.isNew hmade (hchanges c hc t hcontainer ▸ ht)
  unmoved changes hchanges := sameAt_after (h.isMade hmade) hchanges
  shared changes hchanges key v path hchild := by
    have hsame := sameAt_after (h.isMade hmade) hchanges
    have hchild' : (made.2.after changes).child? made.1 key = some v := by
      rw [← hchild]
      generalize made.1 = t at hsame hmade
      cases t with
      | list r => simp only [child?, show _ = _ from hsame]
      | map r => simp only [child?, show _ = _ from hsame]
      | _ => exact hmade.elim
    rw [lookup?, hchild']

end Gathers

section Making

variable {w : World}

theorem elements_newList_self (items : List Value) :
    (w.newList items).2.elements ⟨w.lists.size⟩ = items := by
  rw [elements_newList, if_pos rfl]

theorem contents_newMap_self (m : MapObject) : (w.newMap m).2.contents ⟨w.maps.size⟩ = m := by
  rw [contents_newMap, if_pos rfl]

/-- Of all operators on two lists, only the sum makes a list. -/
theorem applyList_cases (o : BinaryOperator) (a b : ListRef) :
    (o = .add ∧ w.applyList o a b = w.newList (w.elements a ++ w.elements b)) ∨
      (o ≠ .add ∧ ∃ v, w.applyList o a b = (v, w) ∧ ¬ v.IsContainer) := by
  cases o
  case add => exact .inl ⟨rfl, rfl⟩
  all_goals exact .inr ⟨nofun, _, rfl, id⟩

/-- Of all operators on two maps, only the sum makes a map. -/
theorem applyMap_cases (o : BinaryOperator) (a b : MapRef) :
    (o = .add ∧ w.applyMap o a b =
      w.newMap ((w.contents a).extend (w.contents b).entries.entries)) ∨
      (o ≠ .add ∧ ∃ v, w.applyMap o a b = (v, w) ∧ ¬ v.IsContainer) := by
  cases o
  case add => exact .inl ⟨rfl, rfl⟩
  all_goals exact .inr ⟨nofun, _, rfl, id⟩

end Making

namespace Copying

variable {w : World}

/-- The part of a list that a slice has, if it has one. -/
theorem made_slice (a : ListRef) (names : List String) (values : List Value) :
    (∃ items, items <:+: w.elements a ∧
      (Copying.slice ⟨.list a, names, values⟩).made w = w.newList items) ∨
      (Copying.slice ⟨.list a, names, values⟩).made w = (.nil, w) := by
  cases hbounds : Arguments.sliceBounds ⟨.list a, names, values⟩ (w.elements a).length with
  | none =>
    right
    simp only [made, listMethod, Arguments.list?, hbounds]
  | some bounds =>
    left
    refine ⟨sliceOf (w.elements a) bounds, ?_, ?_⟩
    · exact (List.take_prefix _ _).isInfix.trans (List.drop_suffix _ _).isInfix
    · simp only [made, listMethod, Arguments.list?, hbounds]

/-- What an operator makes is made of what is right inside both operands. -/
theorem operator_copies (o : BinaryOperator) (left right : Value) :
    Gathers w [left, right] (w.apply o left right) ∧
      (Copying.operator o left right).Yields w (w.apply o left right) := by
  cases left with
  | list a =>
    cases right with
    | list b =>
      rw [apply, Yields]
      rcases applyList_cases (w := w) o a b with ⟨ho, hmade⟩ | ⟨ho, v, hmade, hscalar⟩
      · rw [hmade, if_pos ho]
        refine ⟨.list ?_, ⟨w.lists.size⟩, rfl, elements_newList_self _⟩
        intro v hv
        rcases List.mem_append.1 hv with hv | hv
        · exact ⟨.list a, List.mem_cons_self, hv⟩
        · exact ⟨.list b, List.mem_cons_of_mem _ List.mem_cons_self, hv⟩
      · rw [hmade, if_neg ho]
        exact ⟨.scalar hscalar, hscalar⟩
    | _ => exact ⟨.scalar id, id⟩
  | map a =>
    cases right with
    | map b =>
      rw [apply, Yields]
      rcases applyMap_cases (w := w) o a b with ⟨ho, hmade⟩ | ⟨ho, v, hmade, hscalar⟩
      · rw [hmade, if_pos ho]
        refine ⟨.map ?_, ⟨w.maps.size⟩, rfl, ?_⟩
        · intro v hv
          rcases OrderedMap.mem_values_extend hv with hv | hv
          · exact ⟨.map a, List.mem_cons_self, hv⟩
          · exact ⟨.map b, List.mem_cons_of_mem _ List.mem_cons_self, hv⟩
        · rw [contents_newMap_self]
          exact MapObject.merges_extend _ _
      · rw [hmade, if_neg ho]
        exact ⟨.scalar hscalar, hscalar⟩
    | _ => exact ⟨.scalar id, id⟩
  | _ => cases o <;> exact ⟨.scalar id, id⟩

/-- A list of elements of another. -/
theorem list_copies {a : ListRef} {items : List Value} (h : items ⊆ w.elements a) :
    Gathers w [.list a] (w.newList items) :=
  .list fun _ hv => ⟨.list a, List.mem_cons_self, h hv⟩

/-- A map of values of another. -/
theorem map_copies {a : MapRef} {m : MapObject}
    (h : m.entries.values ⊆ (w.contents a).entries.values) : Gathers w [.map a] (w.newMap m) :=
  .map fun _ hv => ⟨.map a, List.mem_cons_self, h hv⟩

/-- What is copied is made of what is right inside the operands. -/
theorem made_copies (c : Copying) :
    Gathers w c.operands (c.made w) ∧ c.Yields w (c.made w) := by
  cases c with
  | operator o left right => exact operator_copies o left right
  | copy v =>
    cases v with
    | list a => exact ⟨list_copies fun _ => id, ⟨w.lists.size⟩, rfl, elements_newList_self _⟩
    | map a => exact ⟨map_copies fun _ => id, ⟨w.maps.size⟩, rfl, contents_newMap_self _⟩
    | _ => exact ⟨.scalar id, id⟩
  | instantiate r => exact ⟨map_copies fun _ => id, ⟨w.maps.size⟩, rfl, contents_newMap_self _⟩
  | values a =>
    obtain ⟨receiver, names, values⟩ := a
    cases receiver with
    | list a => exact ⟨list_copies fun _ => id, ⟨w.lists.size⟩, rfl, elements_newList_self _⟩
    | _ => exact ⟨.scalar id, id⟩
  | slice a =>
    obtain ⟨receiver, names, values⟩ := a
    cases receiver with
    | list a =>
      rcases made_slice (w := w) a names values with ⟨items, hpart, hmade⟩ | hmade
      · rw [hmade]
        refine ⟨list_copies hpart.subset, .inr ⟨⟨w.lists.size⟩, rfl, ?_⟩⟩
        rw [elements_newList_self]
        exact hpart
      · rw [hmade]
        exact ⟨.scalar id, .inl rfl⟩
    | _ => exact ⟨.scalar id, id⟩

end Copying

/-- Copies are new containers, apart from all that were there, and leave these as they are. What is
inside the operands is inside the copy too, and is not copied. -/
theorem copying_apart (w : World) (c : Copying) :
    (∀ t, w.Made t → SameAt t w (c.made w).2) ∧
    (∃ lists maps, (c.made w).2 = { w with lists := lists, maps := maps }) ∧
    c.Yields w (c.made w) ∧
    ((c.made w).1.IsContainer → Apart w (c.made w) ∧
      ∀ v, (c.made w).2.Holds (c.made w).1 v → ∃ t ∈ c.operands, w.Holds t v) ∧
    (∀ n argument site w₀ r, Run.eval n argument site w₀ = .ok (.map r) w →
      Run.eval (n + 1) (.instantiate argument) site w₀ =
        .ok ((Copying.instantiate r).made w).1 ((Copying.instantiate r).made w).2) := by
  obtain ⟨hgathers, hyields⟩ := Copying.made_copies c (w := w)
  refine ⟨fun t ht => hgathers.sameAt ht, hgathers.others, hyields, ?_, ?_⟩
  · intro hmade
    exact ⟨hgathers.apart hmade, fun v hv => hgathers.holds hv⟩
  · intro n argument site w₀ r hargument
    change (Run.eval n argument site >>= _) w₀ = _
    rw [Run.bind_apply, hargument]
    rfl

/-- The sum of a map with itself is another map, and what is written there is not seen in the map.
-/
theorem copying_apart_sumWithItself :
    ∃ r w', Run.sharedList.apply .add (.map ⟨2⟩) (.map ⟨2⟩) = (.map r, w') ∧
      ¬ Run.sharedList.Made (.map r) ∧ (w'.contents r).entries.keys = ["a", "b"] ∧
      ∀ x, (w'.write (.entry r "a") x).contents ⟨2⟩ = Run.sharedList.contents ⟨2⟩ := by
  refine ⟨⟨3⟩, _, rfl, ?_⟩
  obtain ⟨-, -, -, hcopy, -⟩ := copying_apart Run.sharedList (.operator .add (.map ⟨2⟩) (.map ⟨2⟩))
  obtain ⟨hapart, -⟩ := hcopy trivial
  refine ⟨hapart.isNew, rfl, ?_⟩
  intro x
  have hwritten := hapart.unseen [.write (.entry ⟨3⟩ "a") x] ?_ (.map ⟨2⟩) (Nat.lt_succ_self 2)
  · exact hwritten
  · intro c hc t ht
    obtain rfl := List.mem_singleton.1 hc
    exact (Option.some.inj ht).symm

end World

end LineScript
