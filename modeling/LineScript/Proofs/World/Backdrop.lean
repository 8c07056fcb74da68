import LineScript.Builtin.Methods
import LineScript.Host.Making
import LineScript.Session.Request

/-!
# Worlds before another backdrop

Values, what is read from them and what the library does with them show nothing of the frames, of
the frames that functions were declared in, nor of the state of the run and of its breakpoint. These
are the backdrop of a world. Main statement: the functions of the library do the same whatever the
backdrop, and leave it as it is.
-/

namespace LineScript

namespace Heap

variable {α : Type}

/-- A heap with a change to all its cells. -/
def map (f : α → α) (h : Heap α) : Heap α := ⟨h.cells.map f⟩

theorem get?_map (f : α → α) (h : Heap α) (i : Nat) : (h.map f).get? i = (h.get? i).map f := by
  simp [map, get?]

@[simp] theorem size_map (f : α → α) (h : Heap α) : (h.map f).size = h.size := by
  simp [map, size]

theorem map_push (f : α → α) (h : Heap α) (a : α) : (h.push a).map f = (h.map f).push (f a) := by
  simp [map, push]

theorem ext_get? {h k : Heap α} (he : ∀ i, h.get? i = k.get? i) : h = k := by
  cases h with
  | mk a =>
    cases k with
    | mk b =>
      congr 1
      exact Array.ext_getElem? he

theorem map_modify {f g g' : α → α} (hg : ∀ a, f (g a) = g' (f a)) (h : Heap α) (i : Nat) :
    (h.modify i g).map f = (h.map f).modify i g' := by
  apply ext_get?
  intro j
  rw [get?_map, get?_modify, get?_modify, get?_map]
  by_cases hij : i = j
  · simp only [if_pos hij, Option.map_map]
    congr 1
    funext a
    exact hg a
  · simp only [if_neg hij]

theorem modify_id (h : Heap α) (i : Nat) : h.modify i (fun a => a) = h := by
  apply ext_get?
  intro j
  rw [get?_modify]
  simp

end Heap

/-- The function as it is if it was declared in another frame. -/
def FunctionObject.recapture (s : FrameRef → FrameRef) : FunctionObject → FunctionObject
  | .closure d frame => .closure d (s frame)
  | .host name parameters action => .host name parameters action

/-- The parts of a world that values do not show. -/
structure Backdrop where
  frames : Heap Frame
  process : Process
  debugger : Debugger
  /-- The frame that takes the place of one in which functions were declared. -/
  captured : FrameRef → FrameRef
  /-- The two frames in which programs run. -/
  api : FrameRef
  global : FrameRef

namespace World

/-- The world before another backdrop. -/
def against (w : World) (b : Backdrop) : World :=
  { w with
    frames := b.frames, process := b.process, debugger := b.debugger
    functions := w.functions.map (·.recapture b.captured)
    configuration := { w.configuration with api := b.api, global := b.global } }

/-- The backdrop that a world has. -/
def backdrop (w : World) : Backdrop :=
  ⟨w.frames, w.process, w.debugger, id, w.configuration.api, w.configuration.global⟩

theorem recapture_id (w : World) : w.functions.map (·.recapture id) = w.functions := by
  apply Heap.ext_get?
  intro i
  rw [Heap.get?_map]
  cases w.functions.get? i with
  | none => rfl
  | some f => cases f <;> rfl

theorem against_backdrop (w : World) : w.against w.backdrop = w := by
  have hfunctions := w.recapture_id
  unfold against backdrop
  rw [hfunctions]

section Reading

variable (w : World) (b : Backdrop)

theorem get?_against (i : Nat) :
    (w.against b).functions.get? i = (w.functions.get? i).map (·.recapture b.captured) :=
  Heap.get?_map _ _ _

@[simp] theorem elements_against (r : ListRef) :
    (w.against b).elements r = w.elements r := rfl

@[simp] theorem contents_against (r : MapRef) :
    (w.against b).contents r = w.contents r := rfl

@[simp] theorem functionName_against (f : FunctionRef) :
    (w.against b).functionName f = w.functionName f := by
  cases f with
  | builtin => rfl
  | made i =>
    simp only [functionName, get?_against]
    cases w.functions.get? i with
    | none => rfl
    | some f => cases f <;> rfl

@[simp] theorem parameterNames_against (f : FunctionRef) :
    (w.against b).parameterNames f = w.parameterNames f := by
  cases f with
  | builtin => rfl
  | made i =>
    simp only [parameterNames, get?_against]
    cases w.functions.get? i with
    | none => rfl
    | some f => cases f <;> rfl

@[simp] theorem functionText_against (f : FunctionRef) :
    (w.against b).functionText f = w.functionText f := by
  simp only [functionText, functionName_against, parameterNames_against]

@[simp] theorem displayTo_against (n : Nat) (v : Value) :
    (w.against b).displayTo n v = w.displayTo n v := by
  induction n generalizing v with
  | zero =>
    cases v with
    | function f => exact functionText_against w b f
    | _ => rfl
  | succ n ih =>
    cases v with
    | function f => exact functionText_against w b f
    | list r => simp only [displayTo, elements_against, ih]
    | map r => simp only [displayTo, contents_against, ih]
    | _ => rfl

@[simp] theorem display_against : (w.against b).display = w.display :=
  funext fun v => displayTo_against w b _ v

@[simp] theorem typeName_against (v : Value) : (w.against b).typeName v = w.typeName v := by
  cases v with
  | map r => simp only [typeName, contents_against, display_against]
  | _ => rfl

@[simp] theorem truthy_against (v : Value) : (w.against b).truthy v = w.truthy v := by
  cases v <;> rfl

@[simp] theorem count?_against (v : Value) : (w.against b).count? v = w.count? v := by
  cases v <;> rfl

@[simp] theorem equalTo_against (n : Nat) (u v : Value) :
    (w.against b).equalTo n u v = w.equalTo n u v := by
  induction n generalizing u v with
  | zero => cases u <;> cases v <;> rfl
  | succ n ih =>
    cases u <;> cases v <;> simp only [equalTo, elements_against, contents_against, ih]

@[simp] theorem equal_against (u v : Value) : (w.against b).equal u v = w.equal u v :=
  equalTo_against w b _ u v

@[simp] theorem child?_against (v : Value) (key : String) :
    (w.against b).child? v key = w.child? v key := by
  cases v <;> rfl

@[simp] theorem lookup?_against (v : Value) (path : Path) :
    (w.against b).lookup? v path = w.lookup? v path := by
  induction path generalizing v with
  | nil => rfl
  | cons key rest ih => simp only [lookup?, child?_against, ih]

@[simp] theorem readKey_against (v : Value) (key : String) (path : Path) :
    (w.against b).readKey v key path = w.readKey v key path := by
  cases v <;> rfl

@[simp] theorem get_against (v : Value) (path : Path) :
    (w.against b).get v path = w.get v path := by
  induction path generalizing v with
  | nil => rfl
  | cons key rest ih => simp only [World.get, readKey_against, ih]

@[simp] theorem slotAt_against (v : Value) (key : String) :
    (w.against b).slotAt v key = w.slotAt v key := by
  cases v <;> rfl

@[simp] theorem slot_against (v : Value) (path : Path) :
    (w.against b).slot v path = w.slot v path := by
  cases v <;> simp only [slot, lookup?_against, slotAt_against]

@[simp] theorem items_against (v : Value) : (w.against b).items v = w.items v := by
  cases v <;> simp only [items, elements_against, contents_against, typeName_against]

end Reading

/-- A change to a world that neither looks at its backdrop nor makes functions. -/
structure Aloof {α : Type} (g : World → α × World) : Prop where
  blind : ∀ w b, g (w.against b) = ((g w).1, (g w).2.against b)
  functions : ∀ w, (g w).2.functions = w.functions

namespace Aloof

variable {α β γ : Type}

/-- Nothing changes, and what is read does not come from the backdrop. -/
theorem pure {f : World → α} (hf : ∀ w b, f (w.against b) = f w) : Aloof fun w => (f w, w) :=
  ⟨fun w b => by rw [hf], fun _ => rfl⟩

theorem keep (a : α) : Aloof fun w => (a, w) := pure fun _ _ => rfl

/-- A change that goes by something read from the world. -/
theorem choose {c : World → γ} (hc : ∀ w b, c (w.against b) = c w)
    {g : γ → World → α × World} (hg : ∀ x, Aloof (g x)) : Aloof fun w => g (c w) w where
  blind w b := by rw [hc, (hg _).blind]
  functions w := (hg _).functions w

/-- One change behind another. -/
theorem seq {g : World → α × World} (hg : Aloof g) {k : α → World → β × World}
    (hk : ∀ a, Aloof (k a)) : Aloof fun w => k (g w).1 (g w).2 where
  blind w b := by rw [hg.blind, (hk _).blind]
  functions w := by rw [(hk _).functions, hg.functions]

/-- A change for each item. -/
theorem foldl {f : α × World → β → α × World} (hf : ∀ a x, Aloof fun w => f (a, w) x)
    (xs : List β) (a : α) : Aloof fun w => xs.foldl f (a, w) := by
  induction xs generalizing a with
  | nil => exact keep a
  | cons x xs ih => exact seq (hf a x) ih

theorem newList (xs : List Value) : Aloof fun w => w.newList xs :=
  ⟨fun _ _ => rfl, fun _ => rfl⟩

theorem newListOf {xs : World → List Value} (hxs : ∀ w b, xs (w.against b) = xs w) :
    Aloof fun w => w.newList (xs w) :=
  choose hxs newList

theorem newMap (m : MapObject) : Aloof fun w => w.newMap m :=
  ⟨fun _ _ => rfl, fun _ => rfl⟩

theorem newMapOf {m : World → MapObject} (hm : ∀ w b, m (w.against b) = m w) :
    Aloof fun w => w.newMap (m w) :=
  choose hm newMap

theorem setElements (a : α) (r : ListRef) (xs : List Value) :
    Aloof fun w => (a, w.setElements r xs) :=
  ⟨fun _ _ => rfl, fun _ => rfl⟩

theorem setElementsOf {xs : World → List Value} (hxs : ∀ w b, xs (w.against b) = xs w) (a : α)
    (r : ListRef) : Aloof fun w => (a, w.setElements r (xs w)) :=
  choose hxs (setElements a r)

theorem modifyMap (a : α) (r : MapRef) (f : MapObject → MapObject) :
    Aloof fun w => (a, w.modifyMap r f) :=
  ⟨fun _ _ => rfl, fun _ => rfl⟩

theorem write (s : Slot) (x : Value) : Aloof fun w => ((), w.write s x) := by
  cases s with
  | element r k => exact setElementsOf (fun _ _ => rfl) () r
  | entry r key => exact modifyMap () r _

theorem copy (v : Value) : Aloof fun w => w.copy v := by
  cases v with
  | list r => exact newListOf fun _ _ => rfl
  | map r => exact newMapOf fun _ _ => rfl
  | _ => exact keep _

theorem itemValue (i : Item) : Aloof fun w => w.itemValue i := by
  cases i with
  | value v => exact keep v
  | entry key v => exact newMapOf fun _ _ => rfl

theorem applyList (operator : BinaryOperator) (a b : ListRef) :
    Aloof fun w => w.applyList operator a b := by
  cases operator
  case add => exact newListOf fun _ _ => rfl
  all_goals exact pure fun w b => by simp only [elements_against, equal_against]

theorem applyMap (operator : BinaryOperator) (a b : MapRef) :
    Aloof fun w => w.applyMap operator a b := by
  cases operator
  case add => exact newMapOf fun _ _ => rfl
  all_goals exact pure fun w b => by simp only [contents_against, equal_against]

theorem apply (operator : BinaryOperator) (left right : Value) :
    Aloof fun w => w.apply operator left right := by
  have identity : Aloof fun w => (w.applyIdentity operator left right, w) :=
    pure fun w b => by cases operator <;> simp only [applyIdentity, equal_against]
  cases left with
  | nil => cases operator <;> exact keep _
  | number x => exact keep _
  | bool b => exact keep _
  | string s => exact pure fun w b => by rw [display_against]
  | list a =>
    cases right with
    | list b => exact applyList operator a b
    | _ => exact keep _
  | map a =>
    cases right with
    | map b => exact applyMap operator a b
    | _ => exact keep _
  | function f => exact identity
  | interface r => exact identity

theorem stringMethod (m : StringMethod) (a : Arguments) : Aloof fun w => w.stringMethod m a := by
  unfold World.stringMethod
  cases a.text? with
  | none => cases m <;> exact keep _
  | some s =>
    cases m
    case split => exact newListOf fun w b => by simp only [argumentText, display_against]
    case slice => dsimp only; split <;> exact keep _
    all_goals exact pure fun w b => by simp only [argumentText, display_against]

theorem listMethod (m : ListMethod) (a : Arguments) : Aloof fun w => w.listMethod m a := by
  unfold World.listMethod
  cases a.list? with
  | none => cases m <;> exact keep _
  | some r =>
    cases m
    case push => exact setElementsOf (fun _ _ => rfl) _ r
    case unshift => exact setElementsOf (fun _ _ => rfl) _ r
    case shift =>
      refine ⟨fun w b => ?_, fun w => ?_⟩ <;> dsimp only [elements_against] <;>
        cases w.elements r <;> rfl
    case pop =>
      refine ⟨fun w b => ?_, fun w => ?_⟩ <;> dsimp only [elements_against] <;>
        cases (w.elements r).getLast? <;> rfl
    case removeAt =>
      refine ⟨fun w b => ?_, fun w => ?_⟩ <;> dsimp only [elements_against] <;>
        cases wrapIndex (toInt (a.named "index")) (w.elements r).length <;> rfl
    case slice =>
      refine ⟨fun w b => ?_, fun w => ?_⟩ <;> dsimp only [elements_against] <;>
        cases a.sliceBounds (w.elements r).length <;> rfl
    case values => exact newListOf fun _ _ => rfl
    case keys => exact newListOf fun _ _ => rfl
    all_goals
      apply pure
      intro w b
      simp only [elements_against, child?_against, display_against]

theorem mapMethod (m : MapMethod) (a : Arguments) : Aloof fun w => w.mapMethod m a := by
  unfold World.mapMethod
  cases a.map? with
  | none => cases m <;> exact keep _
  | some r =>
    cases m
    case delete =>
      exact choose (c := fun w => (w.display (a.named "key"), w.contents r))
        (fun w b => by rw [display_against, contents_against]) fun x =>
          modifyMap (Value.bool (x.2.entries.contains x.1)) r
            fun m => { m with entries := m.entries.erase x.1 }
    case values => exact newListOf fun _ _ => rfl
    case keys => exact newListOf fun _ _ => rfl
    all_goals exact pure fun w b => by simp only [contents_against, display_against]

theorem globalFunction (f : GlobalFunction) (a : Arguments) :
    Aloof fun w => w.globalFunction f a := by
  cases f
  case print =>
    exact choose (c := fun w => w.display (a.named "message"))
      (fun w b => by rw [display_against])
      fun line => (⟨fun _ _ => rfl, fun _ => rfl⟩ :
        Aloof fun w => (Value.nil, w.print line))
  case range => exact newList _
  case rng => exact ⟨fun _ _ => rfl, fun _ => rfl⟩
  case char =>
    unfold World.globalFunction
    dsimp only
    split <;> exact keep _
  case str => exact pure fun w b => by rw [display_against]
  all_goals exact keep _

theorem crossed (n : Nat) (v : Value) : Aloof (World.crossed n v) := by
  induction n generalizing v with
  | zero => exact keep _
  | succ n ih =>
    cases v with
    | list r =>
      have item : ∀ (done : List Value) (v : Value), Aloof fun w =>
          (done ++ [(World.crossed n v w).1], (World.crossed n v w).2) :=
        fun done v => seq (ih v) fun c => keep (done ++ [c])
      exact choose (c := fun w => w.elements r) (fun _ _ => rfl) fun xs =>
        seq (foldl item xs []) newList
    | _ => exact keep _

theorem newRows (rows : List (List Value)) : Aloof fun w => w.newRows rows := by
  have row : ∀ (done row : List Value), Aloof fun w =>
      (done ++ [(w.newList row).1], (w.newList row).2) :=
    fun done row => seq (newList row) fun r => keep (done ++ [r])
  exact seq (foldl row rows []) newList

theorem replyValue (r : Reply) : Aloof fun w => w.replyValue r := by
  cases r with
  | value v => exact crossed _ v
  | flags a b => exact newList _
  | recovered es => exact newRows _
  | collected es => exact newRows _
  | _ => exact keep _

theorem backdrop {g : World → α × World} (hg : Aloof g) (w : World) :
    (g w).2.backdrop = w.backdrop := by
  have h := hg.blind w w.backdrop
  rw [against_backdrop] at h
  rw [h]
  rfl

end Aloof

section Making

theorem newFunction_against (w : World) (b : Backdrop) (f : FunctionObject) :
    (w.against b).newFunction (f.recapture b.captured) =
      ((w.newFunction f).1, (w.newFunction f).2.against b) := by
  simp only [newFunction, against, Heap.size_map, Heap.map_push]

variable (known : List (String × Value))

mutual

theorem make_against (w : World) (b : Backdrop) : (d : Description) →
    make known d (w.against b) = ((make known d w).1, (make known d w).2.against b)
  | .nil => rfl
  | .bool _ => rfl
  | .number _ => rfl
  | .string _ => rfl
  | .list items => by
    simp only [make, makeList_against w b items]
    rfl
  | .map entries => by
    simp only [make, makeEntries_against w b entries]
    rfl
  | .instanceMap entries => by
    simp only [make, makeEntries_against w b entries]
    rfl
  | .named name => rfl
  | .function name parameters action => by
    have hmade := newFunction_against (makeEntries known parameters w).2 b
      (.host name (makeEntries known parameters w).1 action)
    simp only [FunctionObject.recapture] at hmade
    simp only [make, makeEntries_against w b parameters, hmade]
  | .interface name functions => by
    simp only [make, makeFunctions_against w b functions]
    rfl

theorem makeList_against (w : World) (b : Backdrop) : (ds : List Description) →
    makeList known ds (w.against b) = ((makeList known ds w).1, (makeList known ds w).2.against b)
  | [] => rfl
  | d :: ds => by
    simp only [makeList, make_against w b d, makeList_against (make known d w).2 b ds]

theorem makeEntries_against (w : World) (b : Backdrop) : (ds : List (String × Description)) →
    makeEntries known ds (w.against b) =
      ((makeEntries known ds w).1, (makeEntries known ds w).2.against b)
  | [] => rfl
  | (key, d) :: ds => by
    simp only [makeEntries, make_against w b d, makeEntries_against (make known d w).2 b ds]

theorem makeFunctions_against (w : World) (b : Backdrop) :
    (fs : List (String × List (String × Description) × HostAction)) →
    makeFunctions known fs (w.against b) =
      ((makeFunctions known fs w).1, (makeFunctions known fs w).2.against b)
  | [] => rfl
  | (name, parameters, action) :: fs => by
    have hmade := newFunction_against (makeEntries known parameters w).2 b
      (.host name (makeEntries known parameters w).1 action)
    simp only [FunctionObject.recapture] at hmade
    simp only [makeFunctions, makeEntries_against w b parameters, hmade,
      makeFunctions_against ((makeEntries known parameters w).2.newFunction _).2 b fs]

end

end Making

end World

end LineScript
