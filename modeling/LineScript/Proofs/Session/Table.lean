import LineScript.Proofs.Session.History

/-!
# The table that a run begins with

The host may replace its table between runs. What is global in a run is put into the table of the
frames that programs run in, which is emptied only with the frames. Main statement: a run begins
with the entries of the table that the host has now, then those that are built in, then all that
earlier runs in the same frames began with.
-/

namespace LineScript

namespace OrderedMap

variable {α : Type}

/-- Entries take the place of what was there under their names. -/
theorem get?_extend (m : OrderedMap α) (entries : List (String × α)) (key : String) :
    (m.extend entries).get? key = ((ofList entries).get? key).or (m.get? key) := by
  induction entries generalizing m with
  | nil => rfl
  | cons e es ih =>
    have hone : ∀ m : OrderedMap α, (m.extend (e :: es)).get? key =
        ((ofList es).get? key).or ((m.insert e.1 e.2).get? key) := fun m => ih (m.insert e.1 e.2)
    rw [ofList, hone m, hone empty, Option.or_assoc, get?_insert, get?_insert]
    split <;> rfl

theorem get?_ofList_append (entries others : List (String × α)) (key : String) :
    (ofList (entries ++ others)).get? key =
      ((ofList others).get? key).or ((ofList entries).get? key) := by
  have happend : ofList (entries ++ others) = (ofList entries).extend others :=
    List.foldl_append
  rw [happend, get?_extend]

end OrderedMap

open Run

/-- What a step adds to what runs began with, or takes from it. -/
def Run.Moment.carry (m : Moment) (earlier : OrderedMap Value) : OrderedMap Value :=
  match m.event with
  | some .began => earlier.extend (World.globalTable ++ m.world.configuration.table)
  | some .rebuilt => .empty
  | _ => earlier

/-- All that was global in the runs that began since the frames of programs were last replaced. -/
def carried (ms : List Moment) : OrderedMap Value :=
  ms.foldl (fun earlier m => m.carry earlier) .empty

theorem Run.Moment.table_after (m : Moment) (s : World.Standing) :
    (m.after s).table = m.carry s.table := by
  obtain ⟨event, inRun, world⟩ := m
  cases event with
  | none => rfl
  | some e => cases e <;> simp only [after, carry]

/-- The table holds what runs began with. -/
theorem Run.Account.table_eq {ms : List Moment} {s s' : World.Standing} (h : Account s ms s') :
    s'.table = ms.foldl (fun earlier m => m.carry earlier) s.table := by
  rw [h.last_eq]
  exact (List.foldl_hom World.Standing.table fun s m => (m.table_after s).symm).symm

/-- A name is looked up in the table of the host, then among what is built in, then among what
earlier runs began with. So the table is that of the host over what is built in just if there is
nothing else among the latter. -/
theorem Session.table_began {s : Setup} {definitions : List (String × Description)}
    {before after : List Moment} {m : Moment}
    (h : IsHistory s definitions (before ++ m :: after)) (hbegan : m.event = some .began) :
    (∀ name, m.world.table.get? name =
      ((OrderedMap.ofList m.world.configuration.table).get? name).or
        (((OrderedMap.ofList World.globalTable).get? name).or ((carried before).get? name))) ∧
    ((∀ name, m.world.table.get? name =
        ((OrderedMap.ofList m.world.configuration.table).get? name).or
          ((OrderedMap.ofList World.globalTable).get? name)) ↔
      ∀ name, (carried before).contains name = true →
        (OrderedMap.ofList m.world.configuration.table).contains name = true ∨
          (OrderedMap.ofList World.globalTable).contains name = true) := by
  obtain ⟨last, haccount⟩ := h.account
  obtain ⟨s', hbefore, hrest⟩ := haccount.split
  have hcarried : s'.table = carried before := hbefore.table_eq
  have htable : m.world.table =
      (carried before).extend (World.globalTable ++ m.world.configuration.table) := by
    cases hrest with
    | cons _ here _ =>
      have htable : m.world.table = m.carry s'.table := by
        rw [← Moment.table_after, ← here]
        rfl
      rw [htable, Moment.carry, hbegan, hcarried]
  have hlookup : ∀ name, m.world.table.get? name =
      ((OrderedMap.ofList m.world.configuration.table).get? name).or
        (((OrderedMap.ofList World.globalTable).get? name).or ((carried before).get? name)) := by
    intro name
    rw [htable, OrderedMap.get?_extend, OrderedMap.get?_ofList_append, Option.or_assoc]
  refine ⟨hlookup, ?_, ?_⟩
  · intro hlaw name hname
    have hboth := (hlaw name).symm.trans (hlookup name)
    unfold OrderedMap.contains at hname ⊢
    cases hhost : (OrderedMap.ofList m.world.configuration.table).get? name with
    | some v => exact .inl rfl
    | none =>
      cases hbuiltin : (OrderedMap.ofList World.globalTable).get? name with
      | some v => exact .inr rfl
      | none =>
        -- Both tables lack the name, so that only an earlier run can have brought it.
        rw [hhost, hbuiltin, Option.none_or, Option.none_or, Option.none_or] at hboth
        rw [← hboth] at hname
        cases hname
  · intro hknown name
    rw [hlookup name]
    have hname := hknown name
    unfold OrderedMap.contains at hname
    cases hhost : (OrderedMap.ofList m.world.configuration.table).get? name with
    | some v => rfl
    | none =>
      cases hbuiltin : (OrderedMap.ofList World.globalTable).get? name with
      | some v => rfl
      | none =>
        rw [hhost, hbuiltin] at hname
        cases hcarried : (carried before).get? name with
        | none => rfl
        | some v =>
          rw [hcarried] at hname
          rcases hname rfl with hname | hname <;> cases hname

/-- The host takes its table back between two runs. -/
theorem Session.table_began_tableTaken :
    ∃ before m after, IsHistory .plain [("foo", .string "bar")] (before ++ m :: after) ∧
      m.event = some .began ∧
      (OrderedMap.ofList m.world.configuration.table).contains "foo" = false ∧
      (OrderedMap.ofList World.globalTable).contains "foo" = false ∧
      (carried before).contains "foo" = true ∧ m.world.table.contains "foo" = true := by
  have hrun : (match (World.initial .plain [("foo", .string "bar")]).replay 20
        [.run "", .setTable []] with
      | some (_, w) => ((Task.perform (.run "print(foo)") w.hostSite).course 20 w).any fun m =>
        m.event = some .began && !(OrderedMap.ofList m.world.configuration.table).contains "foo" &&
          m.world.table.contains "foo"
      | none => false) = true := by decide +kernel
  split at hrun
  next earlier w hreplay =>
    obtain ⟨m, hm, hchecked⟩ := List.any_eq_true.1 hrun
    simp only [Bool.and_eq_true, Bool.not_eq_true', decide_eq_true_eq] at hchecked
    obtain ⟨⟨hbegan, hhost⟩, htable⟩ := hchecked
    obtain ⟨before, after, hsplit⟩ := List.append_of_mem hm
    have hhistory : IsHistory .plain [("foo", .string "bar")]
        (([] ++ earlier ++ before) ++ m :: after) := by
      refine ⟨_, w, .run "print(foo)", 20, Session.start.replay hreplay, ?_⟩
      rw [hsplit, List.append_assoc]
    have hbuiltin : (OrderedMap.ofList World.globalTable).contains "foo" = false := by
      decide +kernel
    refine ⟨_, m, after, hhistory, hbegan, hhost, hbuiltin, ?_, htable⟩
    have hlookup := (Session.table_began hhistory hbegan).1 "foo"
    unfold OrderedMap.contains at hhost hbuiltin htable ⊢
    rw [Option.isSome_eq_false_iff, Option.isNone_iff_eq_none] at hhost hbuiltin
    rw [hhost, hbuiltin, Option.none_or, Option.none_or] at hlookup
    rw [← hlookup]
    exact htable
  · cases hrun

end LineScript
