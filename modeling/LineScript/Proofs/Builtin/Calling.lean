import LineScript.Proofs.Run.Snapshot

/-!
# Calling methods

A method is found in a value under its name, and is called with the value as its receiver. Main
statements: a method of texts, and a method of lists that calls no function itself, gives what the
table of methods says, whatever the world and wherever the call is made.
-/

namespace LineScript.Run

open World Plan

/-- Calling what a value has under a name, with arguments, gives a value and leaves a world. -/
def Answers (site : Site) (w : World) (receiver : Value) (name : String) (given : List Value)
    (v : Value) (w' : World) : Prop :=
  ∃ f, w.get receiver [name] = .ok (.function f) ∧
    (Task.callFunction f receiver given site).Ends w (.ok v) w'

variable {site : Site} {w w' w'' : World} {receiver v u : Value} {name : String}
  {given : List Value}

/-- A call gives one value at most. -/
theorem Answers.unique (h : Answers site w receiver name given v w')
    (h' : Answers site w receiver name given u w'') : v = u ∧ w' = w'' := by
  obtain ⟨f, hf, hends⟩ := h
  obtain ⟨g, hg, hends'⟩ := h'
  obtain rfl : f = g := by
    rw [hf] at hg
    cases hg
    rfl
  obtain ⟨hvalue, hworld⟩ := Ends.unique (ends_task.2 hends) (ends_task.2 hends')
  cases hvalue
  exact ⟨rfl, hworld⟩

/-- The receiver and the arguments of a call of a built-in function, parameters without an argument
filled in. -/
def argumentsOf (b : Builtin) (receiver : Value) (given : List Value) : Arguments :=
  ⟨receiver, b.parameters.map (·.1),
    Arguments.fill (b.parameters.map fun p => Value.ofLiteral p.2) given⟩

theorem answers_iff {b : Builtin} (h : w.get receiver [name] = .ok (.function (.builtin b))) :
    Answers site w receiver name given v w' ↔
      (Task.callFunction (.builtin b) receiver given site).Ends w (.ok v) w' := by
  constructor
  · rintro ⟨f, hf, hends⟩
    rw [h] at hf
    cases hf
    exact hends
  · exact fun hends => ⟨_, h, hends⟩

/-- A method of texts gives what the table of methods says. -/
theorem answers_string (m : StringMethod) {s : String} :
    Answers site w (.string s) m.name given v w' ↔
      (v, w') = w.stringMethod m (argumentsOf (.string m) (.string s) given) := by
  have hget : w.get (.string s) [m.name] = .ok (.function (.builtin (.string m))) := by
    cases m <;> rfl
  rw [answers_iff hget, callBuiltin_ends, Prod.ext_iff]
  change (plain (produce _)).Ends w (.ok v) w' ↔ _
  rw [ends_produce, Except.ok.injEq]
  rfl

/-- A method of lists that calls no function itself gives what the table of methods says. -/
theorem answers_list {m : ListMethod} (hm : m ∉ [.find, .forEach, .map, .reduce]) {r : ListRef} :
    Answers site w (.list r) m.name given v w' ↔
      (v, w') = w.listMethod m (argumentsOf (.list m) (.list r) given) := by
  have hget : w.get (.list r) [m.name] = .ok (.function (.builtin (.list m))) := by
    cases m <;> rfl
  have hplan : (Task.callBuiltin (.list m) (argumentsOf (.list m) (.list r) given)
      (builtinSite (.list m) (.list r) given site)).plan =
        plain (produce fun w => w.listMethod m (argumentsOf (.list m) (.list r) given)) := by
    have hreceiver : (argumentsOf (.list m) (.list r) given).list? = some r := rfl
    simp only [Task.plan, hreceiver]
    cases (argumentsOf (.list m) (.list r) given).callback? with
    | none => rfl
    | some f =>
      cases m with
      | find | forEach | map | reduce => simp at hm
      | _ => rfl
  rw [answers_iff hget, callBuiltin_ends, Prod.ext_iff]
  change (Task.callBuiltin (.list m) (argumentsOf (.list m) (.list r) given)
    (builtinSite (.list m) (.list r) given site)).plan.Ends w (.ok v) w' ↔ _
  rw [hplan, ends_produce, Except.ok.injEq]

end LineScript.Run
