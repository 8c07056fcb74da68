import LineScript.Proofs.World.Sealed

/-!
# What built-in functions make

What the operators, the built-in functions and the host make from values that scripts may hold are
again such values, and making them leaves tables alone.
-/

namespace LineScript

/-- Whether a value is a map. -/
def Value.isMap : Value → Bool
  | .map _ => true
  | _ => false

namespace World

theorem admits_of_isMap {w : World} {v : Value} (h : v.isMap = false) : w.Admits v := by
  cases v with
  | map r => cases h
  | _ => trivial

section AdmitsAll

variable {w : World} {v : Value} {vs us : List Value}

theorem AdmitsAll.nil : w.AdmitsAll [] := by
  intro v hv
  cases hv

theorem AdmitsAll.cons (hv : w.Admits v) (hvs : w.AdmitsAll vs) : w.AdmitsAll (v :: vs) :=
  List.forall_mem_cons.2 ⟨hv, hvs⟩

theorem AdmitsAll.append (hvs : w.AdmitsAll vs) (hus : w.AdmitsAll us) : w.AdmitsAll (vs ++ us) :=
  List.forall_mem_append.2 ⟨hvs, hus⟩

theorem AdmitsAll.map {α : Type} {f : α → Value} (hf : ∀ a, (f a).isMap = false) (as : List α) :
    w.AdmitsAll (as.map f) := by
  intro v hv
  obtain ⟨a, _, rfl⟩ := List.mem_map.1 hv
  exact admits_of_isMap (hf a)

theorem AdmitsAll.subset (hvs : w.AdmitsAll vs) (h : us ⊆ vs) : w.AdmitsAll us :=
  fun v hv => hvs v (h hv)

end AdmitsAll

/-- What is made in a sealed world: a value that scripts may hold, by a change that leaves tables
alone. -/
structure Proper (pending : Bool) (w : World) (made : Value × World) : Prop where
  inert : Inert pending w made.2
  admits : made.2.Admits made.1

namespace Proper

variable {pending : Bool} {w : World}

theorem keep (hw : w.Sealed pending) {v : Value} (hv : w.Admits v) : Proper pending w (v, w) :=
  ⟨.refl hw, hv⟩

theorem scalar (hw : w.Sealed pending) {v : Value} (hv : v.isMap = false) :
    Proper pending w (v, w) :=
  keep hw (admits_of_isMap hv)

theorem newList (hw : w.Sealed pending) {items : List Value} (h : w.AdmitsAll items) :
    Proper pending w (w.newList items) :=
  ⟨.newList hw h, trivial⟩

theorem newMap (hw : w.Sealed pending) {m : MapObject} (h : w.AdmitsAll m.entries.values) :
    Proper pending w (w.newMap m) := by
  have hinert := Inert.newMap hw h
  refine ⟨hinert, by simp [World.newMap], ?_⟩
  rintro ⟨s, f, hf, _, hscope⟩
  have hlt := hw.linked.scope s f hf
  rw [hscope] at hlt
  exact Nat.lt_irrefl _ hlt

theorem newClosure (hw : w.Sealed pending) (d : FunctionDeclaration) {r : FrameRef}
    (hr : w.IsSite r) : Proper pending w (w.newFunction (.closure d r)) :=
  ⟨.newClosure hw d hr, trivial⟩

theorem newHost (hw : w.Sealed pending) (name : String) {parameters : List (String × Value)}
    (action : HostAction) (h : w.AdmitsAll (parameters.map (·.2))) :
    Proper pending w (w.newFunction (.host name parameters action)) :=
  ⟨.newHost hw name action h, trivial⟩

theorem newInterface (hw : w.Sealed pending) {o : InterfaceObject}
    (h : w.AdmitsAll o.functions.values) : Proper pending w (w.newInterface o) :=
  ⟨.newInterface hw h, trivial⟩

theorem copy (hw : w.Sealed pending) {v : Value} (hv : w.Admits v) :
    Proper pending w (w.copy v) := by
  cases v with
  | list r => exact newList hw (hw.elements r)
  | map r => exact newMap hw (hw.values r)
  | _ => exact keep hw trivial

theorem itemValue (hw : w.Sealed pending) {i : Item} (hi : w.Admits i.held) :
    Proper pending w (w.itemValue i) := by
  cases i with
  | value v => exact keep hw hi
  | entry key v =>
    apply newMap hw
    intro x hx
    rcases List.mem_cons.1 (OrderedMap.mem_values_ofList hx) with rfl | hx
    · trivial
    · obtain rfl := List.mem_singleton.1 hx
      exact hi

theorem apply (hw : w.Sealed pending) (operator : BinaryOperator) {left right : Value} :
    Proper pending w (w.apply operator left right) := by
  have hnumber : ∀ a b, (applyNumber operator a b).isMap = false := by
    intro a b
    cases operator <;> rfl
  have hstring : ∀ a b, (applyString operator a b).isMap = false := by
    intro a b
    cases operator <;> rfl
  have hidentity : ∀ a b, (w.applyIdentity operator a b).isMap = false := by
    intro a b
    cases operator <;> rfl
  cases left with
  | nil => cases operator <;> exact scalar hw rfl
  | number x => exact scalar hw (hnumber _ _)
  | bool b => exact scalar hw (hnumber _ _)
  | string s => exact scalar hw (hstring _ _)
  | list a =>
    cases right with
    | list b =>
      cases operator
      case add => exact newList hw ((hw.elements a).append (hw.elements b))
      all_goals exact scalar hw rfl
    | _ => exact scalar hw rfl
  | map a =>
    cases right with
    | map b =>
      cases operator
      case add =>
        apply newMap hw
        intro x hx
        rcases OrderedMap.mem_values_extend hx with hx | hx
        · exact hw.values a x hx
        · exact hw.values b x hx
      all_goals exact scalar hw rfl
    | _ => exact scalar hw rfl
  | function f => exact scalar hw (hidentity _ _)
  | interface r => exact scalar hw (hidentity _ _)

end Proper

end World

/-- All arguments of a call are such that scripts may hold them. -/
def Arguments.Fits (a : Arguments) (w : World) : Prop :=
  w.Admits a.receiver ∧ w.AdmitsAll a.values

namespace Arguments

variable {a : Arguments} {w : World}

theorem Fits.named (h : a.Fits w) (name : String) : w.Admits (a.named name) := by
  unfold Arguments.named
  cases hfind : (a.names.zip a.values).find? (fun p => p.1 == name) with
  | none => trivial
  | some p => exact h.2 p.2 (List.of_mem_zip (List.mem_of_find?_eq_some hfind)).2

theorem admits_fill {defaults given : List Value} (hdefaults : w.AdmitsAll defaults)
    (hgiven : w.AdmitsAll given) : w.AdmitsAll (fill defaults given) :=
  hgiven.append (hdefaults.subset (List.drop_subset _ _))

end Arguments

namespace World.Proper

variable {pending : Bool} {w : World} {a : Arguments}

theorem stringMethod (hw : w.Sealed pending) (m : StringMethod) (a : Arguments) :
    Proper pending w (w.stringMethod m a) := by
  have hposition : ∀ p, (positionValue p).isMap = false := by
    intro p
    cases p with
    | none => rfl
    | some k =>
      rw [positionValue]
      split <;> rfl
  unfold World.stringMethod
  cases a.text? with
  | none => cases m <;> exact scalar hw rfl
  | some s =>
    cases m
    case indexOf => exact scalar hw (hposition _)
    case lastIndexOf => exact scalar hw (hposition _)
    case split => exact newList hw (.map (fun _ => rfl) _)
    case slice =>
      dsimp only
      split <;> exact scalar hw rfl
    all_goals exact scalar hw rfl

theorem listMethod (hw : w.Sealed pending) (m : ListMethod) (ha : a.Fits w) :
    Proper pending w (w.listMethod m a) := by
  unfold World.listMethod
  cases a.list? with
  | none => cases m <;> exact scalar hw rfl
  | some r =>
    have hr := hw.elements r
    have hset : ∀ {v : Value} {items : List Value}, w.Admits v → w.AdmitsAll items →
        Proper pending w (v, w.setElements r items) := by
      intro v items hv hitems
      have hinert := Inert.setElements hw r hitems
      exact ⟨hinert, hv.mono hinert.later⟩
    cases m
    case push => exact hset trivial (hr.append (.cons (ha.named _) .nil))
    case unshift => exact hset trivial (.cons (ha.named _) hr)
    case shift =>
      dsimp only
      cases helements : w.elements r with
      | nil => exact scalar hw rfl
      | cons v vs =>
        rw [helements] at hr
        exact hset (hr v List.mem_cons_self) (hr.subset (List.subset_cons_self _ _))
    case pop =>
      dsimp only
      split
      next v hv =>
        exact hset (hr v (List.mem_of_getLast? hv)) (hr.subset (List.dropLast_subset _))
      · exact scalar hw rfl
    case removeAt =>
      dsimp only
      split
      · exact hset trivial (hr.subset (List.eraseIdx_subset))
      · exact scalar hw rfl
    case slice =>
      dsimp only
      split
      next b _ =>
        exact newList hw (hr.subset fun v hv => List.mem_of_mem_drop (List.mem_of_mem_take hv))
      · exact scalar hw rfl
    case values => exact newList hw hr
    case keys => exact newList hw (.map (fun _ => rfl) _)
    case indexOf =>
      dsimp only
      split <;> exact scalar hw rfl
    all_goals exact scalar hw rfl

theorem mapMethod (hw : w.Sealed pending) (m : MapMethod) (ha : a.Fits w) :
    Proper pending w (w.mapMethod m a) := by
  unfold World.mapMethod
  cases hmap : a.map? with
  | none => cases m <;> exact scalar hw rfl
  | some r =>
    have hr : w.Admits (.map r) := by
      have hreceiver := ha.1
      unfold Arguments.map? at hmap
      split at hmap
      next s hs =>
        cases hmap
        rwa [hs] at hreceiver
      · cases hmap
    cases m
    case delete =>
      refine ⟨.modifyMap hw hr fun v hv => ?_, trivial⟩
      exact .inl (OrderedMap.mem_values_erase hv)
    case values => exact newList hw (hw.values r)
    case keys => exact newList hw (.map (fun _ => rfl) _)
    case indexOf =>
      dsimp only
      split <;> exact scalar hw rfl
    all_goals exact scalar hw rfl

theorem globalFunction (hw : w.Sealed pending) (f : GlobalFunction) (a : Arguments) :
    Proper pending w (w.globalFunction f a) := by
  cases f
  case print => exact ⟨.aside hw, trivial⟩
  case char =>
    unfold World.globalFunction
    dsimp only
    split
    · unfold characterValue
      split <;> exact scalar hw rfl
    · exact scalar hw rfl
  case code =>
    unfold World.globalFunction codeValue
    dsimp only
    split
    · split <;> exact scalar hw rfl
    · exact scalar hw rfl
  case range => exact newList hw (.map (fun _ => rfl) _)
  case rng => exact ⟨.aside hw, trivial⟩
  all_goals exact scalar hw rfl

/-- Values that are made one behind the other, and held in between. -/
theorem foldl {β : Type} (g : World → β → Value × World) (xs : List β)
    (hg : ∀ w, w.Sealed pending → ∀ x ∈ xs, Proper pending w (g w x)) (hw : w.Sealed pending)
    {done : List Value} (hdone : w.AdmitsAll done) :
    let made := xs.foldl (fun acc x => let r := g acc.2 x; (acc.1 ++ [r.1], r.2)) (done, w)
    Inert pending w made.2 ∧ made.2.AdmitsAll made.1 := by
  induction xs generalizing done w with
  | nil => exact ⟨.refl hw, hdone⟩
  | cons x xs ih =>
    have hx := hg w hw x List.mem_cons_self
    have hmore := (hdone.mono hx.inert.later).append (.cons hx.admits .nil)
    obtain ⟨hrest, hadmits⟩ :=
      ih (fun v hv y hy => hg v hv y (List.mem_cons_of_mem _ hy)) hx.inert.isSealed hmore
    exact ⟨hx.inert.trans hrest, hadmits⟩

/-- A list of what was made one behind the other. -/
theorem newList_foldl {β : Type} (g : World → β → Value × World) (xs : List β)
    (hg : ∀ w, w.Sealed pending → ∀ x ∈ xs, Proper pending w (g w x)) (hw : w.Sealed pending) :
    Proper pending w (let made := xs.foldl (fun (acc : List Value × World) x =>
        let r := g acc.2 x
        (acc.1 ++ [r.1], r.2)) ([], w)
      made.2.newList made.1) := by
  obtain ⟨hmade, hadmits⟩ := foldl g xs hg hw .nil
  have hlist := newList hmade.isSealed hadmits
  exact ⟨hmade.trans hlist.inert, hlist.admits⟩

theorem crossed (hw : w.Sealed pending) (n : Nat) (v : Value) :
    Proper pending w (World.crossed n v w) := by
  induction n generalizing v w with
  | zero => exact scalar hw rfl
  | succ n ih =>
    cases v with
    | list r => exact newList_foldl (fun w v => World.crossed n v w) _ (fun _ hv x _ => ih hv x) hw
    | _ => exact scalar hw rfl

theorem newRows (hw : w.Sealed pending) {rows : List (List Value)}
    (hrows : ∀ row ∈ rows, ∀ v ∈ row, v.isMap = false) : Proper pending w (w.newRows rows) := by
  refine newList_foldl World.newList rows (fun _ hv row hrow => ?_) hw
  exact newList hv fun v hv => admits_of_isMap (hrows row hrow v hv)

theorem replyValue (hw : w.Sealed pending) (r : Reply) : Proper pending w (w.replyValue r) := by
  cases r with
  | value v => exact crossed hw _ v
  | flags a b => exact newList hw (.cons trivial (.cons trivial .nil))
  | recovered es =>
    apply newRows hw
    intro row hrow v hv
    obtain ⟨e, _, rfl⟩ := List.mem_map.1 hrow
    simp only [List.mem_cons, List.not_mem_nil, or_false] at hv
    rcases hv with rfl | rfl <;> rfl
  | collected es =>
    apply newRows hw
    intro row hrow v hv
    obtain ⟨e, _, rfl⟩ := List.mem_map.1 hrow
    simp only [List.mem_cons, List.not_mem_nil, or_false] at hv
    rcases hv with rfl | rfl | rfl <;> rfl
  | _ => exact scalar hw rfl

end World.Proper

namespace World

variable {pending : Bool} {w : World} {known : List (String × Value)}

mutual

theorem make_proper {w : World} (hw : w.Sealed pending)
    (hknown : w.AdmitsAll (known.map (·.2))) :
    (d : Description) → Proper pending w (make known d w)
  | .nil => .scalar hw rfl
  | .bool _ => .scalar hw rfl
  | .number _ => .scalar hw rfl
  | .string _ => .scalar hw rfl
  | .list items => by
    have hitems := makeList_inert hw hknown items
    have hlist := Proper.newList hitems.1.isSealed hitems.2
    rw [make]
    exact ⟨hitems.1.trans hlist.inert, hlist.admits⟩
  | .map entries => by
    have hentries := makeEntries_inert hw hknown entries
    have hmap := Proper.newMap hentries.1.isSealed (m := .ofEntries _)
      fun v hv => hentries.2 v (OrderedMap.mem_values_ofList hv)
    rw [make]
    exact ⟨hentries.1.trans hmap.inert, hmap.admits⟩
  | .instanceMap entries => by
    have hentries := makeEntries_inert hw hknown entries
    have hmap := Proper.newMap hentries.1.isSealed (m := (MapObject.ofEntries _).instantiate)
      fun v hv => hentries.2 v (OrderedMap.mem_values_ofList hv)
    rw [make]
    exact ⟨hentries.1.trans hmap.inert, hmap.admits⟩
  | .named name => by
    rw [make]
    cases hfind : known.find? (fun k => k.1 == name) with
    | none => exact .scalar hw rfl
    | some k => exact .keep hw (hknown k.2 (List.mem_map_of_mem (List.mem_of_find?_eq_some hfind)))
  | .function name parameters action => by
    have hentries := makeEntries_inert hw hknown parameters
    have hmade := Proper.newHost hentries.1.isSealed name action hentries.2
    rw [make]
    exact ⟨hentries.1.trans hmade.inert, hmade.admits⟩
  | .interface name functions => by
    have hmembers := makeFunctions_inert hw hknown functions
    have hmade := Proper.newInterface hmembers.1.isSealed (o := ⟨name, .ofList _⟩)
      fun v hv => hmembers.2 v (OrderedMap.mem_values_ofList hv)
    rw [make]
    exact ⟨hmembers.1.trans hmade.inert, hmade.admits⟩

theorem makeList_inert {w : World} (hw : w.Sealed pending)
    (hknown : w.AdmitsAll (known.map (·.2))) :
    (ds : List Description) → Inert pending w (makeList known ds w).2 ∧
      (makeList known ds w).2.AdmitsAll (makeList known ds w).1
  | [] => by
    rw [makeList]
    exact ⟨.refl hw, .nil⟩
  | d :: ds => by
    have hd := make_proper hw hknown d
    have hds := makeList_inert hd.inert.isSealed (hknown.mono hd.inert.later) ds
    rw [makeList]
    exact ⟨hd.inert.trans hds.1, .cons (hd.admits.mono hds.1.later) hds.2⟩

theorem makeEntries_inert {w : World} (hw : w.Sealed pending)
    (hknown : w.AdmitsAll (known.map (·.2))) :
    (ds : List (String × Description)) → Inert pending w (makeEntries known ds w).2 ∧
      (makeEntries known ds w).2.AdmitsAll ((makeEntries known ds w).1.map (·.2))
  | [] => by
    rw [makeEntries]
    exact ⟨.refl hw, .nil⟩
  | (key, d) :: ds => by
    have hd := make_proper hw hknown d
    have hds := makeEntries_inert hd.inert.isSealed (hknown.mono hd.inert.later) ds
    rw [makeEntries]
    exact ⟨hd.inert.trans hds.1, .cons (hd.admits.mono hds.1.later) hds.2⟩

theorem makeFunctions_inert {w : World} (hw : w.Sealed pending)
    (hknown : w.AdmitsAll (known.map (·.2))) :
    (fs : List (String × List (String × Description) × HostAction)) →
      Inert pending w (makeFunctions known fs w).2 ∧
        (makeFunctions known fs w).2.AdmitsAll ((makeFunctions known fs w).1.map (·.2))
  | [] => by
    rw [makeFunctions]
    exact ⟨.refl hw, .nil⟩
  | (name, parameters, action) :: fs => by
    have hentries := makeEntries_inert hw hknown parameters
    have hmade := Proper.newHost hentries.1.isSealed name action hentries.2
    have hinert := hentries.1.trans hmade.inert
    have hfs := makeFunctions_inert hinert.isSealed (hknown.mono hinert.later) fs
    rw [makeFunctions]
    exact ⟨hinert.trans hfs.1, .cons (hmade.admits.mono hfs.1.later) hfs.2⟩

end

end World

end LineScript
