import LineScript.Proofs.Value.Order

/-!
# Equal values

Containers are compared by what they hold, down through the containers inside them, unless they are
the same. Main statement: where no container is inside itself, equality is symmetric and transitive;
two maps are equal just if both or none were made by `new` and they have equal values under the same
keys, in whatever order; and only what is not a number differs from itself.
-/

namespace LineScript

/-- Two maps of as many entries have related values under the same keys just if each entry of the
first has its counterpart in the second. -/
theorem OrderedMap.rel_iff {α : Type} (R : α → α → Prop) (m m' : OrderedMap α) :
    (m.size = m'.size ∧ ∀ e ∈ m.entries, ∃ v, m'.get? e.1 = some v ∧ R e.2 v) ↔
      ∀ key, Option.Rel R (m.get? key) (m'.get? key) := by
  have hsize : ∀ m : OrderedMap α, m.size = m.keys.length := fun m => (List.length_map _).symm
  rw [hsize, hsize]
  constructor
  · rintro ⟨hlength, hentries⟩ key
    cases hfound : m.get? key with
    | some x =>
      obtain ⟨v, hv, hrel⟩ := hentries (key, x) (mem_entries.2 hfound)
      rw [hv]
      exact .some hrel
    | none =>
      have hsub : m.keys ⊆ m'.keys := by
        intro other hother
        obtain ⟨x, hx⟩ := mem_keys.1 hother
        obtain ⟨v, hv, -⟩ := hentries (other, x) (mem_entries.2 hx)
        exact mem_keys.2 ⟨v, hv⟩
      -- All keys of the second are among those of the first, for it has no more of them.
      have hperm := (List.subperm_of_subset m.nodup hsub).perm_of_length_le hlength.ge
      cases hfound' : m'.get? key with
      | none => exact .none
      | some v =>
        obtain ⟨x, hx⟩ := mem_keys.1 (hperm.mem_iff.2 (mem_keys.2 ⟨v, hfound'⟩))
        rw [hfound] at hx
        cases hx
  · intro hrel
    constructor
    · refine ((List.perm_ext_iff_of_nodup m.nodup m'.nodup).2 fun key => ?_).length_eq
      change key ∈ m.keys ↔ key ∈ m'.keys
      rw [mem_keys, mem_keys]
      have hkey := hrel key
      generalize m.get? key = found at *
      generalize m'.get? key = found' at *
      cases hkey with
      | some => simp
      | none => simp
    · rintro ⟨key, x⟩ he
      have hkey := hrel key
      rw [mem_entries.1 he] at hkey
      generalize m'.get? key = found at hkey
      cases hkey with
      | some hv => exact ⟨_, rfl, hv⟩

/-- To have related values under the same keys is to have the same keys and related values. -/
theorem OrderedMap.rel_iff_keys {α : Type} (R : α → α → Prop) (m m' : OrderedMap α) :
    (∀ key, Option.Rel R (m.get? key) (m'.get? key)) ↔
      (∀ key, key ∈ m.keys ↔ key ∈ m'.keys) ∧
      ∀ key x y, m.get? key = some x → m'.get? key = some y → R x y := by
  simp only [mem_keys, ← forall_and]
  refine forall_congr' fun key => ?_
  generalize m.get? key = found
  generalize m'.get? key = found'
  constructor
  · rintro (hrel | -)
    · simpa using hrel
    · simp
  · rintro ⟨hboth, hrel⟩
    cases found with
    | some x =>
      obtain ⟨y, rfl⟩ := hboth.1 ⟨x, rfl⟩
      exact .some (hrel x y rfl rfl)
    | none =>
      cases found' with
      | some y =>
        obtain ⟨x, hx⟩ := hboth.2 ⟨y, rfl⟩
        cases hx
      | none => exact .none

section Lifting

variable {α : Type} {R : α → α → Prop}

theorem forall₂_trans (hR : ∀ x y z, R x y → R y z → R x z) {xs ys zs : List α}
    (h : List.Forall₂ R xs ys) (h' : List.Forall₂ R ys zs) : List.Forall₂ R xs zs := by
  induction h generalizing zs with
  | nil => exact h'
  | cons hxy _ ih =>
    cases h' with
    | cons hyz hrest => exact .cons (hR _ _ _ hxy hyz) (ih hrest)

theorem rel_symm (hR : ∀ x y, R x y → R y x) {x y : Option α} (h : Option.Rel R x y) :
    Option.Rel R y x := by
  cases h with
  | some h => exact .some (hR _ _ h)
  | none => exact .none

theorem rel_trans (hR : ∀ x y z, R x y → R y z → R x z) {x y z : Option α}
    (h : Option.Rel R x y) (h' : Option.Rel R y z) : Option.Rel R x z := by
  cases h with
  | none => exact h'
  | some hxy =>
    cases h' with
    | some hyz => exact .some (hR _ _ _ hxy hyz)

end Lifting

namespace World

/-- No container is found inside itself, however deep. -/
def NoCycle (w : World) : Prop := ∀ t, ¬ Relation.TransGen w.Holds t t

/-- Values nest at least so deep inside a value. -/
def Nests (w : World) : Nat → Value → Prop
  | 0, _ => True
  | n + 1, v => ∃ c, w.Holds v c ∧ w.Nests n c

/-- The lists and maps that were made. -/
def madeContainers (w : World) : List Value :=
  (List.range w.lists.size).map (fun i => .list ⟨i⟩) ++
    (List.range w.maps.size).map fun i => .map ⟨i⟩

section Levels

variable {w : World} {n : Nat}

/-- Lists are equal when they are the same or have as many elements, equal in pairs. -/
theorem equalTo_list {a b : ListRef} :
    w.equalTo (n + 1) (.list a) (.list b) = true ↔
      a = b ∨ List.Forall₂ (fun x y => w.equalTo n x y = true) (w.elements a) (w.elements b) := by
  rw [equalTo, Bool.or_eq_true, beq_iff_eq, Bool.and_eq_true, beq_iff_eq, List.all_eq_true,
    List.forall₂_iff_zip]
  exact or_congr_right (and_congr_right fun _ => Prod.forall)

/-- Maps are equal when they are the same or have as many entries, and each entry of the first is
found in the second. -/
theorem equalTo_entries {a b : MapRef} :
    w.equalTo (n + 1) (.map a) (.map b) = true ↔
      a = b ∨ ((w.contents a).isInstance = (w.contents b).isInstance ∧
        (w.contents a).entries.size = (w.contents b).entries.size) ∧
        ∀ e ∈ (w.contents a).entries.entries,
          ∃ v, (w.contents b).entries.get? e.1 = some v ∧ w.equalTo n e.2 v = true := by
  rw [equalTo, Bool.or_eq_true, beq_iff_eq, Bool.and_eq_true, Bool.and_eq_true, beq_iff_eq,
    beq_iff_eq, List.all_eq_true]
  refine or_congr_right (and_congr_right fun _ => forall₂_congr fun e _ => ?_)
  cases (w.contents b).entries.get? e.1 with
  | none => simp
  | some v => simp

/-- Maps are equal when they are the same, or both or none were made by `new` and each key has equal
values in both or none in either. -/
theorem equalTo_map {a b : MapRef} :
    w.equalTo (n + 1) (.map a) (.map b) = true ↔
      a = b ∨ (w.contents a).isInstance = (w.contents b).isInstance ∧
        ∀ key, Option.Rel (fun x y => w.equalTo n x y = true)
          ((w.contents a).entries.get? key) ((w.contents b).entries.get? key) := by
  rw [equalTo_entries, and_assoc]
  have hrel := OrderedMap.rel_iff (fun x y => w.equalTo n x y = true) (w.contents a).entries
    (w.contents b).entries
  exact or_congr_right (and_congr_right fun _ => hrel)

/-- What two equal values are: the same, numbers that are equal, or containers that hold equal
values. -/
inductive Matches (w : World) : Nat → Value → Value → Prop where
  | same {n : Nat} {v : Value} (h : ∀ x, v ≠ .number x) : Matches w n v v
  | number {n : Nat} {x y : Float} (h : (x == y) = true) : Matches w n (.number x) (.number y)
  | list {n : Nat} {a b : ListRef}
      (h : List.Forall₂ (fun x y => w.equalTo n x y = true) (w.elements a) (w.elements b)) :
      Matches w (n + 1) (.list a) (.list b)
  | map {n : Nat} {a b : MapRef} (hinstance : (w.contents a).isInstance = (w.contents b).isInstance)
      (h : ∀ key, Option.Rel (fun x y => w.equalTo n x y = true)
        ((w.contents a).entries.get? key) ((w.contents b).entries.get? key)) :
      Matches w (n + 1) (.map a) (.map b)

theorem equalTo_iff_matches {a b : Value} :
    w.equalTo n a b = true ↔ w.Matches n a b := by
  constructor
  · intro h
    unfold equalTo at h
    split at h
    · exact .same nofun
    · rw [eq_of_beq h]
      exact .same nofun
    · exact .number h
    · rw [eq_of_beq h]
      exact .same nofun
    · rw [eq_of_beq h]
      exact .same nofun
    · rw [eq_of_beq h]
      exact .same nofun
    · rw [eq_of_beq h]
      exact .same nofun
    · rw [eq_of_beq h]
      exact .same nofun
    · rcases equalTo_list.1 h with rfl | h
      · exact .same nofun
      · exact .list h
    · rcases equalTo_map.1 h with rfl | ⟨hinstance, h⟩
      · exact .same nofun
      · exact .map hinstance h
    · cases h
  · intro h
    cases h with
    | same h =>
      cases a with
      | number x => exact absurd rfl (h x)
      | nil => cases n <;> rfl
      | _ => cases n <;> simp [equalTo]
    | number h => cases n <;> exact h
    | list h => exact equalTo_list.2 (.inr h)
    | map hinstance h => exact equalTo_map.2 (.inr ⟨hinstance, h⟩)

end Levels

section Depth

variable {w : World}

theorem length_madeContainers (w : World) : w.madeContainers.length = w.containerCount := by
  simp [madeContainers, containerCount]

/-- A container that holds something was made. -/
theorem mem_madeContainers {t v : Value} (h : w.Holds t v) : t ∈ w.madeContainers := by
  rw [madeContainers, List.mem_append, List.mem_map, List.mem_map]
  cases t with
  | list r =>
    refine .inl ⟨r.index, ?_, rfl⟩
    rw [List.mem_range]
    cases hfound : w.lists.get? r.index with
    | some items => exact Heap.lt_size_of_get? hfound
    | none =>
      have hmem : v ∈ w.elements r := h
      rw [elements, hfound] at hmem
      cases hmem
  | map r =>
    refine .inr ⟨r.index, ?_, rfl⟩
    rw [List.mem_range]
    cases hfound : w.maps.get? r.index with
    | some m => exact Heap.lt_size_of_get? hfound
    | none =>
      have hmem : v ∈ (w.contents r).entries.values := h
      rw [contents, hfound] at hmem
      cases hmem
  | _ => exact h.elim

/-- On the way down into a value there are as many containers as it nests deep, all different. -/
theorem Nests.exists_chain (hcycle : w.NoCycle) {n : Nat} {v : Value} (h : w.Nests n v) :
    ∃ ts : List Value, ts.length = n ∧ ts.Nodup ∧
      ∀ t ∈ ts, t ∈ w.madeContainers ∧ Relation.ReflTransGen w.Holds v t := by
  induction n generalizing v with
  | zero => exact ⟨[], rfl, List.nodup_nil, List.forall_mem_nil _⟩
  | succ n ih =>
    obtain ⟨c, hc, hdeep⟩ := h
    obtain ⟨ts, hlength, hnodup, hts⟩ := ih hdeep
    refine ⟨v :: ts, by rw [List.length_cons, hlength], ?_, ?_⟩
    · rw [List.nodup_cons]
      refine ⟨?_, hnodup⟩
      intro hv
      exact hcycle v (Relation.TransGen.head' hc (hts v hv).2)
    · rw [List.forall_mem_cons]
      refine ⟨⟨mem_madeContainers hc, .refl⟩, ?_⟩
      intro t ht
      exact ⟨(hts t ht).1, (hts t ht).2.head hc⟩

/-- No value nests deeper than there are containers. -/
theorem NoCycle.not_nests (hcycle : w.NoCycle) (v : Value) :
    ¬ w.Nests (w.containerCount + 1) v := by
  intro h
  obtain ⟨ts, hlength, hnodup, hts⟩ := h.exists_chain hcycle
  have hle := (List.subperm_of_subset hnodup fun t ht => (hts t ht).1).length_le
  rw [hlength, length_madeContainers] at hle
  omega

theorem not_nests_of_holds {n : Nat} {t v : Value} (h : ¬ w.Nests (n + 1) t) (hv : w.Holds t v) :
    ¬ w.Nests n v := fun hdeep => h ⟨v, hv, hdeep⟩

theorem holds_list {r : ListRef} {v : Value} (h : v ∈ w.elements r) : w.Holds (.list r) v := h

theorem holds_map {r : MapRef} {e : String × Value} (h : e ∈ (w.contents r).entries.entries) :
    w.Holds (.map r) e.2 := List.mem_map_of_mem h

/-- Looking deeper than values nest makes no difference. -/
theorem equalTo_deeper {n k : Nat} {a : Value} (hn : ¬ w.Nests n a) (hk : ¬ w.Nests k a)
    (b : Value) : w.equalTo n a b = w.equalTo k a b := by
  induction n generalizing k a b with
  | zero => exact absurd trivial hn
  | succ n ih =>
    cases k with
    | zero => exact absurd trivial hk
    | succ k =>
      cases a with
      | list r =>
        cases b with
        | list s =>
          rw [Bool.eq_iff_iff, equalTo_list, equalTo_list, List.forall₂_iff_zip,
            List.forall₂_iff_zip]
          refine or_congr_right (and_congr_right fun _ => forall₃_congr fun x y hxy => ?_)
          have hheld := holds_list (List.of_mem_zip hxy).1
          rw [ih (not_nests_of_holds hn hheld) (not_nests_of_holds hk hheld)]
        | _ => rfl
      | map r =>
        cases b with
        | map s =>
          rw [Bool.eq_iff_iff, equalTo_entries, equalTo_entries]
          refine or_congr_right (and_congr_right fun _ => forall₂_congr fun e he => ?_)
          have hheld := holds_map he
          simp only [ih (not_nests_of_holds hn hheld) (not_nests_of_holds hk hheld)]
        | _ => rfl
      | _ => cases b <;> rfl

end Depth

section Laws

variable {w : World} {n : Nat} {a b c : Value}

theorem equalTo_symm (h : w.equalTo n a b = true) : w.equalTo n b a = true := by
  induction n using Nat.strong_induction_on generalizing a b with
  | _ n ih =>
    rw [equalTo_iff_matches] at h ⊢
    cases h with
    | same h => exact .same h
    | number h => exact .number (BEq.symm h)
    | list h =>
      refine .list (h.flip.imp ?_)
      intro x y hxy
      exact ih _ (Nat.lt_succ_self _) hxy
    | map hinstance h =>
      refine .map hinstance.symm fun key => rel_symm ?_ (h key)
      intro x y hxy
      exact ih _ (Nat.lt_succ_self _) hxy

theorem equalTo_trans (h : w.equalTo n a b = true) (h' : w.equalTo n b c = true) :
    w.equalTo n a c = true := by
  induction n using Nat.strong_induction_on generalizing a b c with
  | _ n ih =>
    rw [equalTo_iff_matches] at h h' ⊢
    cases h with
    | same => exact h'
    | number h =>
      cases h' with
      | same => exact .number h
      | number h' => exact .number (BEq.trans h h')
    | list h =>
      cases h' with
      | same => exact .list h
      | list h' =>
        refine .list (forall₂_trans ?_ h h')
        intro x y z hxy hyz
        exact ih _ (Nat.lt_succ_self _) hxy hyz
    | map hinstance h =>
      cases h' with
      | same => exact .map hinstance h
      | map hinstance' h' =>
        refine .map (hinstance.trans hinstance') fun key => rel_trans ?_ (h key) (h' key)
        intro x y z hxy hyz
        exact ih _ (Nat.lt_succ_self _) hxy hyz

theorem equalTo_self (n : Nat) (v : Value) :
    w.equalTo n v v = false ↔ ∃ x, v = .number x ∧ x.isNaN = true := by
  by_cases hnumber : ∃ x, v = .number x
  · obtain ⟨x, rfl⟩ := hnumber
    have hself : w.equalTo n (.number x) (.number x) = (x == x) := by cases n <;> rfl
    have hnan : x = Float.nan ↔ x.isNaN = true := by
      rw [Float.isNaN_eq_decide_eq_nan, decide_eq_true_iff]
    rw [hself, Float.beq_self_eq_false_iff, hnan]
    constructor
    · exact fun hx => ⟨x, rfl, hx⟩
    · rintro ⟨y, hy, hnan⟩
      cases hy
      exact hnan
  · have hself : w.equalTo n v v = true :=
      equalTo_iff_matches.2 (.same fun x hx => hnumber ⟨x, hx⟩)
    rw [hself]
    exact iff_of_false Bool.true_eq_false.mp fun ⟨x, hx, _⟩ => hnumber ⟨x, hx⟩

end Laws

/-- What is inside a container is compared as anything else is. -/
theorem equalTo_inside {w : World} (hcycle : w.NoCycle) {t x : Value} (hx : w.Holds t x)
    (y : Value) : w.equalTo w.containerCount x y = w.equal x y :=
  equalTo_deeper (not_nests_of_holds (hcycle.not_nests t) hx) (hcycle.not_nests x) y

/-- Where no container is inside itself, equality is symmetric and transitive. Two lists are equal
just if they are the same or hold equal values in the same order; two maps, just if they are the
same or both or none are instances and they have the same keys with equal values. What differs from
itself is not a number. -/
theorem equal_partial_equivalence {w : World} (hcycle : w.NoCycle) :
    (∀ a b, w.equal a b = w.equal b a) ∧
    (∀ a b c, w.equal a b = true → w.equal b c = true → w.equal a c = true) ∧
    (∀ a b, a ≠ b → (w.equal (.list a) (.list b) = true ↔
      List.Forall₂ (fun x y => w.equal x y = true) (w.elements a) (w.elements b))) ∧
    (∀ a b, a ≠ b → (w.equal (.map a) (.map b) = true ↔
      (w.contents a).isInstance = (w.contents b).isInstance ∧
      (∀ key, key ∈ (w.contents a).entries.keys ↔ key ∈ (w.contents b).entries.keys) ∧
      ∀ key x y, (w.contents a).entries.get? key = some x →
        (w.contents b).entries.get? key = some y → w.equal x y = true)) ∧
    ∀ v, w.equal v v = false ↔ ∃ x, v = .number x ∧ x.isNaN = true := by
  refine ⟨?_, ?_, ?_, ?_, equalTo_self _⟩
  · intro a b
    rw [Bool.eq_iff_iff]
    exact ⟨equalTo_symm, equalTo_symm⟩
  · intro a b c
    exact equalTo_trans
  · intro a b hne
    rw [equal, equalTo_list, or_iff_right hne, List.forall₂_iff_zip, List.forall₂_iff_zip]
    refine and_congr_right fun _ => forall₃_congr fun x y hxy => ?_
    rw [equalTo_inside hcycle (holds_list (List.of_mem_zip hxy).1)]
  · intro a b hne
    rw [equal, equalTo_map, or_iff_right hne, OrderedMap.rel_iff_keys]
    refine and_congr_right fun _ => and_congr_right fun _ => ?_
    refine forall₃_congr fun key x y => forall₂_congr fun hx _ => ?_
    have hheld : w.Holds (.map a) x := OrderedMap.mem_values_of_get? hx
    rw [equalTo_inside hcycle hheld]

/-- Where all that is inside a container ranks lower, no container is inside itself. -/
theorem noCycle_of_rank {w : World} (rank : Value → Nat)
    (h : ∀ t v, w.Holds t v → rank v < rank t) : w.NoCycle := by
  have hlower : ∀ t v, Relation.TransGen w.Holds t v → rank v < rank t := by
    intro t v hway
    induction hway with
    | single hv => exact h _ _ hv
    | tail _ hv ih => exact (h _ _ hv).trans ih
  intro t ht
  exact Nat.lt_irrefl _ (hlower t t ht)

/-- A world with a map that holds one list twice, and a map of the same keys in the other order,
which holds the list and another one of the same elements. -/
def twoOrders : World :=
  let list := Run.sharedList.newList [.nil, .bool true]
  (list.2.newMap (.ofEntries [("b", list.1), ("a", .list ⟨0⟩)])).2

theorem twoOrders_elements (r : ListRef) :
    twoOrders.elements r = if r.index < 2 then [.nil, .bool true] else [] := by
  obtain ⟨_ | _ | i⟩ := r <;> rfl

theorem twoOrders_contents (r : MapRef) : (twoOrders.contents r).entries.entries =
    if r.index = 2 then [("a", .list ⟨0⟩), ("b", .list ⟨0⟩)]
    else if r.index = 3 then [("b", .list ⟨1⟩), ("a", .list ⟨0⟩)] else [] := by
  obtain ⟨_ | _ | _ | _ | i⟩ := r <;> rfl

theorem twoOrders_noCycle : twoOrders.NoCycle := by
  refine noCycle_of_rank Run.sharedDepth ?_
  intro t v hv
  cases t with
  | list r =>
    have hmem : v ∈ twoOrders.elements r := hv
    rw [twoOrders_elements] at hmem
    split at hmem
    · simp only [List.mem_cons, List.not_mem_nil, or_false] at hmem
      rcases hmem with rfl | rfl <;> exact Nat.zero_lt_one
    · cases hmem
  | map r =>
    have hmem : v ∈ (twoOrders.contents r).entries.values := hv
    rw [OrderedMap.values, twoOrders_contents] at hmem
    split at hmem
    · simp only [List.map_cons, List.map_nil, List.mem_cons, List.not_mem_nil, or_false] at hmem
      rcases hmem with rfl | rfl <;> exact Nat.lt_succ_self 1
    · split at hmem
      · simp only [List.map_cons, List.map_nil, List.mem_cons, List.not_mem_nil, or_false] at hmem
        rcases hmem with rfl | rfl <;> exact Nat.lt_succ_self 1
      · cases hmem
  | _ => exact hv.elim

/-- The order of the keys makes no difference, and neither does it that a list is shared. -/
theorem equal_partial_equivalence_twoOrders : twoOrders.NoCycle ∧
      (twoOrders.contents ⟨2⟩).entries.keys ≠ (twoOrders.contents ⟨3⟩).entries.keys ∧
      twoOrders.equal (.map ⟨2⟩) (.map ⟨3⟩) = true ∧
      twoOrders.equal (.map ⟨3⟩) (.map ⟨2⟩) = true := by
  obtain ⟨hsymm, -, hlists, hmaps, hself⟩ := equal_partial_equivalence twoOrders_noCycle
  have hlist : twoOrders.equal (.list ⟨0⟩) (.list ⟨1⟩) = true := by
    rw [hlists _ _ (by decide)]
    exact .cons rfl (.cons rfl .nil)
  have hequal : twoOrders.equal (.map ⟨2⟩) (.map ⟨3⟩) = true := by
    rw [hmaps _ _ (by decide)]
    refine ⟨rfl, ?_, ?_⟩
    · intro key
      rw [OrderedMap.keys, twoOrders_contents, OrderedMap.keys, twoOrders_contents]
      simp [or_comm]
    · intro key x y hx hy
      rw [← OrderedMap.mem_entries, twoOrders_contents] at hx hy
      have hcases : key = "a" ∧ x = .list ⟨0⟩ ∨ key = "b" ∧ x = .list ⟨0⟩ := by simpa using hx
      rcases hcases with ⟨rfl, rfl⟩ | ⟨rfl, rfl⟩
      · obtain rfl : y = .list ⟨0⟩ := by simpa using hy
        rw [← Bool.not_eq_false, hself]
        rintro ⟨_, h, -⟩
        cases h
      · obtain rfl : y = .list ⟨1⟩ := by simpa using hy
        exact hlist
  exact ⟨twoOrders_noCycle, by decide, hequal, (hsymm _ _).trans hequal⟩

end World

end LineScript
