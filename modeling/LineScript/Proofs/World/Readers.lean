import LineScript.World.Frames

/-!
# The two ways to read a path

A path can be followed through stored values only, or read, where a key that is missing may give
nothing or a method. Main statement: what is stored is what is read; where nothing is stored,
reading gives a fault, nothing, or a method that the last key names, of the value that the keys in
front of it lead to. So a name that is found in a scope by the first way is read from it by the
second.
-/

namespace LineScript

/-- A built-in function is the method of a value under a name: it has the name, and it is one of the
methods of the type of the value. -/
def Value.HasMethod (v : Value) (name : String) (b : Builtin) : Prop :=
  b.name = name ∧
  match v with
  | .string _ => ∃ m, b = .string m
  | .list _ => ∃ m, b = .list m
  | .map _ => ∃ m, b = .map m
  | _ => False

namespace World

variable {w : World} {v c : Value} {key : String} {path : Path}

/-- A table of methods gives the one that has the name asked for. -/
theorem name_of_find? {α : Type} {all : List α} {name : α → String} {into : α → Builtin}
    (hname : ∀ m, (into m).name = name m) {m : Value}
    (h : ((all.find? fun m => name m == key).map into).map
      (fun b => Value.function (.builtin b)) = some m) :
    ∃ a, m = .function (.builtin (into a)) ∧ (into a).name = key := by
  rw [Option.map_map] at h
  obtain ⟨a, hfound, rfl⟩ := Option.map_eq_some_iff.1 h
  refine ⟨a, rfl, ?_⟩
  have hbeq := List.find?_some hfound
  rw [hname]
  exact eq_of_beq hbeq

theorem hasMethod_of_method? {m : Value} (h : method? v key = some m) :
    ∃ b, m = .function (.builtin b) ∧ v.HasMethod key b := by
  cases v with
  | string s =>
    obtain ⟨a, rfl, hname⟩ := name_of_find? (fun _ => rfl) h
    exact ⟨_, rfl, hname, a, rfl⟩
  | list r =>
    obtain ⟨a, rfl, hname⟩ := name_of_find? (fun _ => rfl) h
    exact ⟨_, rfl, hname, a, rfl⟩
  | map r =>
    obtain ⟨a, rfl, hname⟩ := name_of_find? (fun _ => rfl) h
    exact ⟨_, rfl, hname, a, rfl⟩
  | _ => cases h

/-- What is stored under a key is read by it. -/
theorem readKey_of_child? (h : w.child? v key = some c) (path : Path) :
    w.readKey v key path = .ok (some c) := by
  cases v with
  | string s =>
    obtain ⟨i, hi, hc⟩ := Option.bind_eq_some_iff.1 h
    simp only [readKey, hi, hc]
  | list r =>
    obtain ⟨i, hi, hc⟩ := Option.bind_eq_some_iff.1 h
    simp only [readKey, hi, hc]
  | map r => exact congrArg Except.ok h
  | interface r => exact congrArg Except.ok h
  | _ => cases h

/-- Where nothing is stored under a key, reading it is a fault or a miss. -/
theorem readKey_of_missing (h : w.child? v key = none) (path : Path) :
    (∃ f, w.readKey v key path = .error f) ∨ w.readKey v key path = .ok none := by
  cases v with
  | string s =>
    cases hi : Number.readInt32? key with
    | none => exact .inr (by simp only [readKey, hi])
    | some i =>
      have hc : characterAt s i = none := by simpa only [child?, hi, Option.bind_some] using h
      exact .inl ⟨.of (.stringIndexOutOfRange i), by simp only [readKey, hi, hc]⟩
  | list r =>
    cases hi : Number.readInt32? key with
    | none => exact .inr (by simp only [readKey, hi])
    | some i =>
      have hc : ((wrapIndex i (w.elements r).length).bind fun k => (w.elements r)[k]?) = none := by
        simpa only [child?, hi, Option.bind_some] using h
      exact .inl ⟨.of (.listIndexOutOfRange i), by simp only [readKey, hi, hc]⟩
  | map r => exact .inr (congrArg Except.ok h)
  | interface r => exact .inr (congrArg Except.ok h)
  | _ => exact .inl ⟨_, rfl⟩

/-- Reading goes on from what is stored under the first key. -/
theorem get_of_child? (h : w.child? v key = some c) (rest : Path) :
    w.get v (key :: rest) = w.get c rest := by
  rw [get, readKey_of_child? h]

/-- Reading a single key that is missing is a fault, or gives nothing or a method; with more keys
behind, there is no method. -/
theorem get_of_missing (h : w.child? v key = none) (rest : Path) :
    (∃ f, w.get v (key :: rest) = .error f) ∨ w.get v (key :: rest) = .ok .nil ∨
      rest = [] ∧ ∃ b, v.HasMethod key b ∧
        w.get v (key :: rest) = .ok (.function (.builtin b)) := by
  rw [get]
  rcases readKey_of_missing h (key :: rest) with ⟨f, hread⟩ | hread
  · exact .inl ⟨f, by rw [hread]⟩
  · right
    rw [hread]
    cases rest with
    | cons other rest => exact .inl rfl
    | nil =>
      cases hm : method? v key with
      | none => exact .inl rfl
      | some m =>
        obtain ⟨b, rfl, hb⟩ := hasMethod_of_method? hm
        exact .inr ⟨rfl, b, hb, rfl⟩

theorem get_of_lookup? {x : Value} (h : w.lookup? v path = some x) : w.get v path = .ok x := by
  induction path generalizing v with
  | nil =>
    cases h
    rfl
  | cons key rest ih =>
    rw [lookup?] at h
    cases hc : w.child? v key with
    | none =>
      rw [hc] at h
      cases h
    | some c =>
      rw [hc] at h
      rw [get_of_child? hc]
      exact ih h

/-- Reading a path that is not stored. -/
theorem get_of_not_stored (h : w.lookup? v path = none) :
    (∃ f, w.get v path = .error f) ∨ w.get v path = .ok .nil ∨
      ∃ parent last u b, path = parent ++ [last] ∧ w.lookup? v parent = some u ∧
        u.HasMethod last b ∧ w.get v path = .ok (.function (.builtin b)) := by
  induction path generalizing v with
  | nil => cases h
  | cons key rest ih =>
    rw [lookup?] at h
    cases hc : w.child? v key with
    | none =>
      rcases get_of_missing hc rest with hfault | hnil | ⟨rfl, b, hb, hget⟩
      · exact .inl hfault
      · exact .inr (.inl hnil)
      · exact .inr (.inr ⟨[], key, v, b, rfl, rfl, hb, hget⟩)
    | some c =>
      rw [hc] at h
      rw [get_of_child? hc]
      rcases ih h with hfault | hnil | ⟨parent, last, u, b, rfl, hu, hb, hget⟩
      · exact .inl hfault
      · exact .inr (.inl hnil)
      · refine .inr (.inr ⟨key :: parent, last, u, b, rfl, ?_, hb, hget⟩)
        rw [lookup?, hc]
        exact hu

/-- The first scope in which a path is stored gives what is stored there. -/
theorem findInFrame_eq_stored (w : World) (f : Frame) (path : Path) :
    w.findInFrame f path =
      ((w.lookup? (scopeOf f) path).or
        ((f.api.bind w.frame?).bind fun a => w.lookup? (scopeOf a) path)).map .ok := by
  rw [findInFrame]
  cases hown : w.lookup? (scopeOf f) path with
  | some x =>
    simp only [Option.isSome_some, if_true, get_of_lookup? hown]
    rfl
  | none =>
    cases f.api.bind w.frame? with
    | none => rfl
    | some a =>
      cases hglobal : w.lookup? (scopeOf a) path with
      | some x =>
        simp only [Option.isSome_none, Bool.false_eq_true, if_false, Option.isSome_some, if_true,
          get_of_lookup? hglobal, Option.bind_some, hglobal]
        rfl
      | none => simp [hglobal]

/-- Both ways of reading agree on what is stored. On what is not stored, reading gives a fault,
nothing, or a method named by the last key. The scopes of a frame, which are searched by the first
way, are read by the second. -/
theorem readers_agree (w : World) (v : Value) (path : Path) :
    (match w.lookup? v path with
      | some x => w.get v path = .ok x
      | none =>
        (∃ f, w.get v path = .error f) ∨ w.get v path = .ok .nil ∨
          ∃ parent last u b, path = parent ++ [last] ∧ w.lookup? v parent = some u ∧
            u.HasMethod last b ∧ w.get v path = .ok (.function (.builtin b))) ∧
    ∀ f, w.findInFrame f path =
      ((w.lookup? (scopeOf f) path).or
        ((f.api.bind w.frame?).bind fun a => w.lookup? (scopeOf a) path)).map .ok := by
  constructor
  · split
    next x h => exact get_of_lookup? h
    next h => exact get_of_not_stored h
  · intro f
    exact findInFrame_eq_stored w f path

end World

end LineScript
