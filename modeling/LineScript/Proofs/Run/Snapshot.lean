import LineScript.Proofs.Run.Ends
import LineScript.Proofs.World.Copying
import LineScript.Proofs.World.Scoping
import Mathlib

/-!
# Iteration walks a snapshot

A loop over a list, a map or a text, and the methods of lists and maps that call a function for each
element, take all that they walk over when they begin. Main statement: they visit what was there
then, in its order and each once, whatever becomes of the container meanwhile; a visit is the last
one only if nothing is left, if it fails, if the loop is left in it, or if it finds what is looked
for.
-/

namespace LineScript

namespace Run

open Plan (plain Equivalent carry_seq carry_return carry_if)

/-- What a round comes to: the rounds behind it go on with a state, or they are left out. -/
inductive Turn (σ β : Type) where
  | onward (s : σ)
  | stop (b : β)

variable {α σ β : Type}

/-- What is done behind a round. -/
def Turn.follow (next : σ → Plan β) : Turn σ β → Plan β
  | .onward s => next s
  | .stop b => pure b

theorem Turn.carry_follow_if {run : ∀ {α : Type}, Task α → Run α} {next : σ → Plan β} {c : Prop}
    [Decidable c] {s : σ} {b : β} :
    (Turn.follow next (if c then .stop b else .onward s)).carry run =
      if c then pure b else (next s).carry run := by
  split <;> rfl

/-- Items are visited from left to right, by one round each, which goes on. A round knows the items
behind its own. What is left of the items, and the state and the world then, are given last. -/
inductive Visits (round : α → List α → σ → Plan (Turn σ β)) :
    List α → σ → World → List α → σ → World → Prop
  | here {xs : List α} {s : σ} {w : World} : Visits round xs s w xs s w
  | next {x : α} {rest left : List α} {s s₁ s' : σ} {w w₁ w' : World}
      (h : (round x rest s).Ends w (.ok (.onward s₁)) w₁)
      (hrest : Visits round rest s₁ w₁ left s' w') : Visits round (x :: rest) s w left s' w'

/-- How a walk over items ends: behind the last of them, or with the round of one of them, which
stops or fails and is the last. -/
def Walked (round : α → List α → σ → Plan (Turn σ β)) (finish : σ → β) (items : List α) (s : σ)
    (w : World) (r : Except Fault β) (w' : World) : Prop :=
  (∃ s', Visits round items s w [] s' w' ∧ r = .ok (finish s')) ∨
    ∃ x rest s₁ w₁, Visits round items s w (x :: rest) s₁ w₁ ∧
      ((∃ b, (round x rest s₁).Ends w₁ (.ok (.stop b)) w' ∧ r = .ok b) ∨
        ∃ f, (round x rest s₁).Ends w₁ (.error f) w' ∧ r = .error f)

section Walking

variable {round : α → List α → σ → Plan (Turn σ β)} {finish : σ → β} {items : List α} {s : σ}
  {w w' : World} {r : Except Fault β}

theorem walked_nil : Walked round finish [] s w r w' ↔ r = .ok (finish s) ∧ w' = w := by
  constructor
  · rintro (⟨s', hvisits, rfl⟩ | ⟨x, rest, s₁, w₁, hvisits, -⟩)
    · cases hvisits
      exact ⟨rfl, rfl⟩
    · cases hvisits
  · rintro ⟨rfl, rfl⟩
    exact .inl ⟨s, .here, rfl⟩

/-- A walk goes on behind a round that goes on, and ends with a round that does not. -/
theorem walked_cons {x : α} {rest : List α} : Walked round finish (x :: rest) s w r w' ↔
    (∃ f, (round x rest s).Ends w (.error f) w' ∧ r = .error f) ∨
      ∃ t w₁, (round x rest s).Ends w (.ok t) w₁ ∧
        match t with
        | .onward s₁ => Walked round finish rest s₁ w₁ r w'
        | .stop b => r = .ok b ∧ w' = w₁ := by
  constructor
  · rintro (⟨s', hvisits, rfl⟩ | ⟨y, left, s₂, w₂, hvisits, hlast⟩)
    · cases hvisits with
      | next h hrest => exact .inr ⟨_, _, h, .inl ⟨s', hrest, rfl⟩⟩
    · cases hvisits with
      | here =>
        rcases hlast with ⟨b, hstop, rfl⟩ | ⟨f, hfails, rfl⟩
        · exact .inr ⟨.stop b, w', hstop, rfl, rfl⟩
        · exact .inl ⟨f, hfails, rfl⟩
      | next h hrest => exact .inr ⟨_, _, h, .inr ⟨y, left, s₂, w₂, hrest, hlast⟩⟩
  · rintro (⟨f, hfails, rfl⟩ | ⟨t, w₁, ht, hbehind⟩)
    · exact .inr ⟨x, rest, s, w, .here, .inr ⟨f, hfails, rfl⟩⟩
    · cases t with
      | onward s₁ =>
        rcases hbehind with ⟨s', hvisits, rfl⟩ | ⟨y, left, s₂, w₂, hvisits, hlast⟩
        · exact .inl ⟨s', .next ht hvisits, rfl⟩
        · exact .inr ⟨y, left, s₂, w₂, .next ht hvisits, hlast⟩
      | stop b =>
        obtain ⟨rfl, rfl⟩ := hbehind
        exact .inr ⟨x, rest, s, w, .here, .inl ⟨b, ht, rfl⟩⟩

/-- A task that is carried out over a list by a round for its first item, and then over the rest if
that goes on, is a walk. -/
theorem ends_iff_walked (walk : List α → σ → Task β)
    (hnil : ∀ s, (walk [] s).plan = pure (finish s))
    (hcons : ∀ x rest s n, (walk (x :: rest) s).plan.carry (Task.run n) =
      (round x rest s >>= Turn.follow fun s₁ => .task (walk rest s₁)).carry (Task.run n)) :
    (walk items s).Ends w r w' ↔ Walked round finish items s w r w' := by
  -- Each round hands its state and its world on, so the induction is for all of them.
  induction items generalizing s w with
  | nil =>
    rw [← Plan.ends_task, Equivalent.task _ w r w', hnil, Plan.ends_pure, walked_nil]
  | cons x rest ih =>
    have hround := (Equivalent.task (walk (x :: rest) s)).trans (.of_carry (hcons x rest s))
    rw [← Plan.ends_task, hround w r w', Plan.ends_bind, walked_cons]
    apply or_congr Iff.rfl
    refine exists_congr fun t => exists_congr fun w₁ => and_congr_right fun _ => ?_
    cases t with
    | onward s₁ => exact ih
    | stop b => exact Plan.ends_pure

/-- If every round that begins goes on, all items are visited. -/
theorem visits_all (h : ∀ x rest s₁ w₁, Visits round items s w (x :: rest) s₁ w₁ →
    ∃ s₂ w₂, (round x rest s₁).Ends w₁ (.ok (.onward s₂)) w₂) :
    ∃ s' w', Visits round items s w [] s' w' := by
  induction items generalizing s w with
  | nil => exact ⟨s, w, .here⟩
  | cons x rest ih =>
    obtain ⟨s₁, w₁, hfirst⟩ := h x rest s w .here
    obtain ⟨s', w', hvisits⟩ := ih fun y left s₂ w₂ hy => h y left s₂ w₂ (.next hfirst hy)
    exact ⟨s', w', .next hfirst hvisits⟩

end Walking

/-- A round of a loop: the loop takes note that a round begins, the item becomes a value, the value
is written to the target, and the body is run once. -/
def forRound (path : Path) (origin : Option Value) (body : List Statement) (site : Site)
    (item : World.Item) (rest : List World.Item) (_ : Unit) : Plan (Turn Unit Unit) := do
  plain (modify fun w => w.beginRound site.frame)
  let x ← plain (produce fun w => w.itemValue item)
  plain (writeChain path origin x site)
  .task (.runBlock body (site.hold (rest.map (·.held))))
  return if (← plain get).leavesLoop site.frame then .stop () else .onward ()

/-- A function is called with an item and its index or key. -/
def callRound (f : FunctionRef) (receiver : Value) (site : Site) (p : Value × Value)
    (rest : List (Value × Value)) (_ : Unit) : Plan (Turn Unit Value) := do
  let _ ← .task (.callFunction f receiver [p.1, p.2] (site.hold (rest.map (·.1))))
  return .onward ()

/-- A function is called with an item and its index or key, and the item is found if the result is
true. -/
def findRound (f : FunctionRef) (receiver : Value) (site : Site) (p : Value × Value)
    (rest : List (Value × Value)) (_ : Unit) : Plan (Turn Unit Value) := do
  let found ← .task (.callFunction f receiver [p.1, p.2] (site.hold (p.1 :: rest.map (·.1))))
  return if (← plain get).truthy found then .stop p.1 else .onward ()

/-- A function is called with an item and its index, and its result comes behind those before. -/
def mapRound (f : FunctionRef) (receiver : Value) (site : Site) (p : Value × Value)
    (rest : List (Value × Value)) (done : List Value) : Plan (Turn (List Value) (List Value)) := do
  let y ← .task (.callFunction f receiver [p.1, p.2] (site.hold (done ++ rest.map (·.1))))
  return .onward (done ++ [y])

/-- A function is called with its result for the item before, an item and its index. -/
def reduceRound (f : FunctionRef) (receiver : Value) (site : Site) (p : Value × Value)
    (rest : List (Value × Value)) (done : Value) : Plan (Turn Value Value) := do
  let y ← .task (.callFunction f receiver [done, p.1, p.2] (site.hold (rest.map (·.1))))
  return .onward y

section Loops

variable {w w' : World} {site : Site} {f : FunctionRef} {receiver : Value}
  {items : List (Value × Value)}

theorem runFor_walked {entries : List World.Item} {path : Path} {origin : Option Value}
    {body : List Statement} {r : Except Fault Unit} :
    (Task.runFor entries path origin body site).Ends w r w' ↔
      Walked (forRound path origin body site) id entries () w r w' := by
  refine ends_iff_walked (fun items _ => .runFor items path origin body site) (fun _ => rfl) ?_
  intro item rest _ n
  simp only [Task.plan, forRound, carry_seq, carry_if, carry_return, bind_assoc, pure_bind,
    Turn.carry_follow_if]

theorem callEach_walked {r : Except Fault Value} :
    (Task.callEach f receiver items site).Ends w r w' ↔
      Walked (callRound f receiver site) (fun _ => .nil) items () w r w' := by
  refine ends_iff_walked (fun items _ => .callEach f receiver items site) (fun _ => rfl) ?_
  intro p rest _ n
  simp only [Task.plan, callRound, carry_seq, carry_return, bind_assoc, pure_bind, Turn.follow]

theorem callFind_walked {r : Except Fault Value} :
    (Task.callFind f receiver items site).Ends w r w' ↔
      Walked (findRound f receiver site) (fun _ => .nil) items () w r w' := by
  refine ends_iff_walked (fun items _ => .callFind f receiver items site) (fun _ => rfl) ?_
  intro p rest _ n
  simp only [Task.plan, findRound, carry_seq, carry_if, carry_return, bind_assoc, pure_bind,
    Turn.carry_follow_if]

theorem callMap_walked {done : List Value} {r : Except Fault (List Value)} :
    (Task.callMap f receiver items done site).Ends w r w' ↔
      Walked (mapRound f receiver site) id items done w r w' := by
  refine ends_iff_walked (fun items done => .callMap f receiver items done site) (fun _ => rfl) ?_
  intro p rest done n
  simp only [Task.plan, mapRound, carry_seq, carry_return, bind_assoc, pure_bind, Turn.follow]

theorem callReduce_walked {done : Value} {r : Except Fault Value} :
    (Task.callReduce f receiver items done site).Ends w r w' ↔
      Walked (reduceRound f receiver site) id items done w r w' := by
  refine ends_iff_walked (fun items done => .callReduce f receiver items done site)
    (fun _ => rfl) ?_
  intro p rest done n
  simp only [Task.plan, reduceRound, carry_seq, carry_return, bind_assoc, pure_bind, Turn.follow]

/-- A round of a loop that does not fail writes the value of its item to the target and runs the
body once. The rounds behind it are left out if the loop is left then. -/
theorem forRound_ends {path : Path} {origin : Option Value} {body : List Statement}
    {item : World.Item} {rest : List World.Item} {t : Turn Unit Unit} :
    (forRound path origin body site item rest ()).Ends w (.ok t) w' ↔
      ∃ x w₁ w₂, (w.beginRound site.frame).itemValue item = (x, w₁) ∧
        writeChain path origin x site w₁ = .ok () w₂ ∧
        (Task.runBlock body (site.hold (rest.map (·.held)))).Ends w₂ (.ok ()) w' ∧
        t = if w'.leavesLoop site.frame then .stop () else .onward () := by
  have hvalue : produce (fun w => w.itemValue item) (w.beginRound site.frame) =
      .ok ((w.beginRound site.frame).itemValue item).1
        ((w.beginRound site.frame).itemValue item).2 := rfl
  have hnoted : (modify fun w : World => w.beginRound site.frame : Run Unit) w =
      .ok () (w.beginRound site.frame) := rfl
  unfold forRound
  rw [Plan.ends_step hnoted, Plan.ends_step hvalue, Plan.ends_bind_ok]
  constructor
  · rintro ⟨_, w₂, hwrite, h⟩
    obtain ⟨_ | _, hbody, ht⟩ := Plan.ends_map_get.1 h
    · cases ht
    · cases ht
      exact ⟨_, _, w₂, rfl, Plan.ends_plain.1 hwrite, hbody, rfl⟩
  · rintro ⟨x, w₁, w₂, hitem, hwrite, hbody, rfl⟩
    rw [hitem]
    exact ⟨(), w₂, Plan.ends_plain.2 hwrite, Plan.ends_map_get.2 ⟨.ok (), hbody, rfl⟩⟩

end Loops

/-- A loop over a sequence: what it walks over is taken from it once, before the rounds. -/
def forItems (sequence : Value) (path : Path) (origin : Option Value) (body : List Statement)
    (site : Site) : Plan Unit := do
  let items ← plain (read fun w => w.items sequence)
  .task (.runFor items path origin body site)

/-- Where a built-in function runs that is called. -/
def builtinSite (b : Builtin) (receiver : Value) (given : List Value) (site : Site) : Site :=
  site.hold (receiver :: Arguments.fill (b.parameters.map fun p => Value.ofLiteral p.2) given)

/-- What a loop walks over, and the value that it binds for each item: the elements of a list, a new
map with the key and the value for each entry of a map, and texts of one character. -/
structure Presents (w : World) : Prop where
  list : ∀ r, w.items (.list r) = .ok ((w.elements r).map .value)
  text : ∀ s, w.items (.string s) = .ok (s.toList.map fun c => .value (.ofChars [c]))
  map : ∀ r, w.items (.map r) = .ok ((w.contents r).entries.entries.map fun e => .entry e.1 e.2)
  element : ∀ v, w.itemValue (.value v) = (v, w)
  entry : ∀ key v, ∃ r w', w.itemValue (.entry key v) = (.map r, w') ∧ ¬ w.Made (.map r) ∧
    w'.contents r = ⟨.ofList [("key", .string key), ("value", v)], false⟩ ∧
    ∀ t, w.Made t → World.SameAt t w w'

/-- A loop visits the items that are there when its sequence was evaluated, and it visits all of
them if every round goes on. A round writes the value of its item to the target and runs the body
once, and it goes on unless it fails or the loop is left in it. -/
structure LoopWalks (site : Site) : Prop where
  begins : ∀ target iterator body,
    Equivalent (.task (.eval (.forLoop target iterator body) site)) (do
      let frame ← plain (produce fun w => w.forkLoop site.frame)
      let inner := site.enter frame
      let (path, origin) ← .task (.walk target none inner)
      let sequence ← .task (.eval iterator (inner.hold origin.toList))
      forItems sequence path origin body (inner.hold (sequence :: origin.toList))
      return .nil)
  walks : ∀ sequence path origin body w r w',
    (forItems sequence path origin body site).Ends w r w' ↔
      (∃ f, w.items sequence = .error f ∧ r = .error f ∧ w' = w) ∨
        ∃ items, w.items sequence = .ok items ∧
          Walked (forRound path origin body site) id items () w r w'
  all : ∀ path origin body items w,
    (∀ item rest w₁, Visits (forRound path origin body site) items () w (item :: rest) () w₁ →
      ∃ w₂, (forRound path origin body site item rest ()).Ends w₁ (.ok (.onward ())) w₂) →
    ∃ w', Visits (forRound path origin body site) items () w [] () w' ∧
      (Task.runFor items path origin body site).Ends w (.ok ()) w'
  round : ∀ path origin body item rest w t w',
    (forRound path origin body site item rest ()).Ends w (.ok t) w' ↔
      ∃ x w₁ w₂, (w.beginRound site.frame).itemValue item = (x, w₁) ∧
        writeChain path origin x site w₁ = .ok () w₂ ∧
        (Task.runBlock body (site.hold (rest.map (·.held)))).Ends w₂ (.ok ()) w' ∧
        t = if w'.leavesLoop site.frame then .stop () else .onward ()

/-- A round of a method calls the function once, with an item and its index or key. Without a fault,
only the one that looks for an item stops, and it does so if the result of the call is true. -/
structure MethodsRound (f : FunctionRef) (site : Site) : Prop where
  each : ∀ receiver p rest w r w', (callRound f receiver site p rest ()).Ends w r w' ↔ ∃ out,
    (Task.callFunction f receiver [p.1, p.2] (site.hold (rest.map (·.1)))).Ends w out w' ∧
      r = out.map fun _ => .onward ()
  find : ∀ receiver p rest w r w', (findRound f receiver site p rest ()).Ends w r w' ↔ ∃ out,
    (Task.callFunction f receiver [p.1, p.2] (site.hold (p.1 :: rest.map (·.1)))).Ends w out w' ∧
      r = out.map fun found => if w'.truthy found then .stop p.1 else .onward ()
  map : ∀ receiver p rest done w r w', (mapRound f receiver site p rest done).Ends w r w' ↔ ∃ out,
    (Task.callFunction f receiver [p.1, p.2] (site.hold (done ++ rest.map (·.1)))).Ends w out w' ∧
      r = out.map fun y => .onward (done ++ [y])
  reduce : ∀ receiver p rest done w r w',
    (reduceRound f receiver site p rest done).Ends w r w' ↔ ∃ out,
      (Task.callFunction f receiver [done, p.1, p.2] (site.hold (rest.map (·.1)))).Ends w out w' ∧
        r = out.map fun y => .onward y

/-- The methods that call a function for each element visit the elements that are there when they
are called, each with its index or its key. -/
structure MethodsWalk (f : FunctionRef) (more : List Value) (site : Site) : Prop where
  listForEach : ∀ r w res w',
    (Task.callFunction (.builtin (.list .forEach)) (.list r) (.function f :: more) site).Ends w
      res w' ↔ Walked (callRound f (.list r)
        (builtinSite (.list .forEach) (.list r) (.function f :: more) site)) (fun _ => .nil)
        (numbered (w.elements r)) () w res w'
  listFind : ∀ r w res w',
    (Task.callFunction (.builtin (.list .find)) (.list r) (.function f :: more) site).Ends w
      res w' ↔ Walked (findRound f (.list r)
        (builtinSite (.list .find) (.list r) (.function f :: more) site)) (fun _ => .nil)
        (numbered (w.elements r)) () w res w'
  listMap : ∀ r w res w',
    (Task.callFunction (.builtin (.list .map)) (.list r) (.function f :: more) site).Ends w
      res w' ↔ ∃ mapped w₁, Walked (mapRound f (.list r)
        (builtinSite (.list .map) (.list r) (.function f :: more) site)) id
        (numbered (w.elements r)) [] w mapped w₁ ∧
        match mapped with
        | .ok xs => res = .ok (w₁.newList xs).1 ∧ w' = (w₁.newList xs).2
        | .error e => res = .error e ∧ w' = w₁
  listReduce : ∀ r w res w',
    (Task.callFunction (.builtin (.list .reduce)) (.list r) (.function f :: more) site).Ends w
      res w' ↔ Walked (reduceRound f (.list r)
        (builtinSite (.list .reduce) (.list r) (.function f :: more) site)) id
        (numbered (w.elements r)) (more.headD .nil) w res w'
  mapForEach : ∀ r w res w',
    (Task.callFunction (.builtin (.map .forEach)) (.map r) (.function f :: more) site).Ends w
      res w' ↔ Walked (callRound f (.map r)
        (builtinSite (.map .forEach) (.map r) (.function f :: more) site)) (fun _ => .nil)
        (keyed (w.contents r)) () w res w'
  mapFind : ∀ r w res w',
    (Task.callFunction (.builtin (.map .find)) (.map r) (.function f :: more) site).Ends w
      res w' ↔ Walked (findRound f (.map r)
        (builtinSite (.map .find) (.map r) (.function f :: more) site)) (fun _ => .nil)
        (keyed (w.contents r)) () w res w'

theorem presents (w : World) : Presents w where
  list _ := rfl
  text _ := rfl
  map _ := rfl
  element _ := rfl
  entry key v :=
    ⟨⟨w.maps.size⟩, (w.newMap (.ofEntries [("key", .string key), ("value", v)])).2, rfl,
      Nat.lt_irrefl _, World.contents_newMap_self _, fun _ ht => World.sameAt_newMap ht _⟩

theorem loopWalks (site : Site) : LoopWalks site where
  begins target iterator body := by
    refine (Equivalent.task _).trans (.of_carry fun n => ?_)
    simp only [Task.plan, forItems, carry_seq, bind_assoc]
  walks sequence path origin body w r w' := by
    unfold forItems
    rw [Plan.ends_bind]
    simp only [Plan.ends_read, Plan.ends_task, runFor_walked]
    constructor
    · rintro (⟨f, ⟨hf, rfl⟩, rfl⟩ | ⟨items, _, ⟨hitems, rfl⟩, hwalk⟩)
      · exact .inl ⟨f, hf.symm, rfl, rfl⟩
      · exact .inr ⟨items, hitems.symm, hwalk⟩
    · rintro (⟨f, hf, rfl, rfl⟩ | ⟨items, hitems, hwalk⟩)
      · exact .inl ⟨f, ⟨hf.symm, rfl⟩, rfl⟩
      · exact .inr ⟨items, w, ⟨hitems.symm, rfl⟩, hwalk⟩
  all path origin body items w h := by
    obtain ⟨_, w', hvisits⟩ := visits_all (s := ()) (w := w) fun item rest _ w₁ hv => by
      obtain ⟨w₂, hround⟩ := h item rest w₁ hv
      exact ⟨(), w₂, hround⟩
    exact ⟨w', hvisits, runFor_walked.2 (.inl ⟨(), hvisits, rfl⟩)⟩
  round _ _ _ _ _ _ _ _ := forRound_ends

theorem methodsRound (f : FunctionRef) (site : Site) : MethodsRound f site where
  each _ _ _ _ _ _ := Plan.ends_map
  find _ _ _ _ _ _ := Plan.ends_map_get
  map _ _ _ _ _ _ _ := Plan.ends_map
  reduce _ _ _ _ _ _ _ := Plan.ends_map

/-- Calling a built-in function comes to carrying out what is written for it. -/
theorem callBuiltin_ends {b : Builtin} {given : List Value} {receiver : Value} {site : Site}
    {w w' : World} {r : Except Fault Value} :
    (Task.callFunction (.builtin b) receiver given site).Ends w r w' ↔
      (Task.callBuiltin b ⟨receiver, b.parameters.map (·.1),
        Arguments.fill (b.parameters.map fun p => Value.ofLiteral p.2) given⟩
        (builtinSite b receiver given site)).plan.Ends w r w' :=
  Plan.ends_task.symm.trans <|
    (Equivalent.task _ w r w').trans (Equivalent.task (.callBuiltin _ _ _) w r w')

/-- What a method that looks at the world first does is done with the world that it is called in. -/
theorem callBuiltin_get {b : Builtin} {given : List Value} {receiver : Value} {site : Site}
    {w w' : World} {r : Except Fault Value} {t : World → Plan Value}
    (h : (Task.callBuiltin b ⟨receiver, b.parameters.map (·.1),
      Arguments.fill (b.parameters.map fun p => Value.ofLiteral p.2) given⟩
      (builtinSite b receiver given site)).plan = plain get >>= t) :
    (Task.callFunction (.builtin b) receiver given site).Ends w r w' ↔ (t w).Ends w r w' := by
  rw [callBuiltin_ends, h, Plan.ends_get]

theorem methodsWalk (f : FunctionRef) (more : List Value) (site : Site) :
    MethodsWalk f more site where
  listForEach _ _ _ _ := by
    refine (callBuiltin_get rfl).trans ?_
    exact Plan.ends_task.trans callEach_walked
  listFind _ _ _ _ := by
    refine (callBuiltin_get rfl).trans ?_
    exact Plan.ends_task.trans callFind_walked
  listMap r w res w' := by
    refine (callBuiltin_get rfl).trans ?_
    change (Plan.task (.callMap f (.list r) (numbered (w.elements r)) [] _) >>= fun xs =>
      plain (produce fun w => w.newList xs)).Ends w res w' ↔ _
    rw [Plan.ends_bind]
    simp only [Plan.ends_task, Plan.ends_produce, callMap_walked]
    constructor
    · rintro (⟨e, h, rfl⟩ | ⟨xs, w₁, h, hnew⟩)
      · exact ⟨.error e, w', h, rfl, rfl⟩
      · exact ⟨.ok xs, w₁, h, hnew⟩
    · rintro ⟨e | xs, w₁, h, hnew⟩
      · obtain ⟨rfl, rfl⟩ := hnew
        exact .inl ⟨e, h, rfl⟩
      · exact .inr ⟨xs, w₁, h, hnew⟩
  listReduce r w res w' := by
    have hstart : (⟨.list r, ["fn", "initalValue"], Arguments.fill [.nil, .nil]
        (.function f :: more)⟩ : Arguments).named "initalValue" = more.headD .nil := by
      cases more <;> rfl
    refine (callBuiltin_get rfl).trans ?_
    rw [← hstart]
    exact Plan.ends_task.trans callReduce_walked
  mapForEach _ _ _ _ := by
    refine (callBuiltin_get rfl).trans ?_
    exact Plan.ends_task.trans callEach_walked
  mapFind _ _ _ _ := by
    refine (callBuiltin_get rfl).trans ?_
    exact Plan.ends_task.trans callFind_walked

/-- A world with a list of two texts under a name, in which a loop is about to begin. -/
def twoTexts : World :=
  let made := World.loopInClosure.newList [.string "a", .string "b"]
  (made.2.setVariable ⟨4⟩ ["l"] made.1).toOption.getD made.2

/-- A body that puts the item behind the list that the loop walks over. -/
def pushItem : List Statement :=
  [.mk (.call [.name "l", .name "push"] [.resolve [.name "x"]]) ⟨1, 1⟩]

/-- That loop, as far as it comes within a bound. -/
def pushedItems : EStateM.Result Stop World Unit :=
  (forItems (.list ⟨0⟩) ["x"] none pushItem ⟨⟨4⟩, []⟩).carry (Task.run 12) twoTexts

end Run

end LineScript
