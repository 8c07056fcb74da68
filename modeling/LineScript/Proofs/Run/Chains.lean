import LineScript.Proofs.Grammar.Drawn
import LineScript.Proofs.Operation.Imports
import LineScript.Proofs.Run.Ends
import Mathlib

/-!
# Chains of access

A chain of access is walked link by link, and one walk serves reading, writing and calling. Main
statement: whatever its length, a chain that a source text writes is read as a left fold over its
links; an assignment reads all links but the last, then evaluates the last key, then the new value,
and writes once; a call reads what is to be called before its arguments, and gives the value in
front of the last link as the receiver.
-/

namespace LineScript

namespace Run

/-- A link of a chain of access: a name, or an index that is yet to be evaluated. -/
inductive Key where
  | name (x : String)
  | index (o : Operation)

/-- A chain of access: a variable or the value of an operation, with links behind it. -/
inductive AccessChain where
  | name (x : String)
  | value (o : Operation)
  | link (c : AccessChain) (k : Key)

/-- The segment of a link. -/
def Key.segment : Key → Segment
  | .name x => .name x
  | .index o => .index o

/-- The segments of a chain. -/
def AccessChain.segments : AccessChain → List Segment
  | .name x => [.name x]
  | .value o => [.root o]
  | .link c k => c.segments ++ [k.segment]

open Plan (plain Equivalent carry_seq carry_return)

/-- The key of a link, evaluated while the value in front of the link is in use: an index is the
text of its value. -/
def Key.text (k : Key) (v : Value) (site : Site) : Plan String :=
  match k with
  | .name x => return x
  | .index o => do
    let i ← .task (.eval o (site.hold [v]))
    return (← plain get).display i

/-- Reads one link behind a value. -/
def Key.read (k : Key) (v : Value) (site : Site) : Plan Value := do
  let key ← k.text v site
  plain (Run.read fun w => w.get v [key])

namespace AccessChain

/-- Reads a chain from left to right: its front, and then link by link. -/
def read (site : Site) : AccessChain → Plan Value
  | .name x => plain (Run.read fun w => w.getVariable site.frame [x])
  | .value o => .task (.eval o site)
  | .link c k => do
    let v ← c.read site
    k.read v site

/-- Assigns to a chain: all links but the last are read, then the last key, then the new value, and
one place is written. -/
def assign (value : Operation) (site : Site) : AccessChain → Plan Value
  | .name x => do
    let y ← .task (.eval value site)
    plain (update fun w => w.setVariable site.frame [x] y)
    return .nil
  | .value o => do
    let v ← .task (.eval o site)
    let y ← .task (.eval value (site.hold [v]))
    plain (update fun w => w.set v [] y)
    return .nil
  | .link c k => do
    let v ← c.read site
    let key ← k.text v site
    let y ← .task (.eval value (site.hold [v]))
    plain (update fun w => w.set v [key] y)
    return .nil

/-- What is called and its receiver: the value in front of the last link, the value itself if there
is no link, and none for a variable. -/
def callee (site : Site) : AccessChain → Plan (Value × Value)
  | .name x => do
    let f ← plain (Run.read fun w => w.getVariable site.frame [x])
    return (f, .nil)
  | .value o => do
    let f ← .task (.eval o site)
    return (f, f)
  | .link c k => do
    let v ← c.read site
    let f ← k.read v site
    return (f, v)

/-- Calls what a chain leads to: the chain is read first, and then the arguments. -/
def call (arguments : List Operation) (site : Site) (c : AccessChain) : Plan Value := do
  let (f, receiver) ← c.callee site
  let xs ← .task (.evalList arguments [] (site.hold [f, receiver]))
  match f with
  | .function g => .task (.callFunction g receiver xs site)
  | _ => plain (fail .notCallable)

end AccessChain

section Walking

variable {site : Site} {rest : List Segment}

/-- At a link, the key is evaluated first. -/
theorem walk_link (k : Key) (v : Value) :
    Equivalent (.task (.walk (k.segment :: rest) (some v) site))
      (k.text v site >>= fun key => .task (.walkKey key rest (some v) site)) := by
  cases k with
  | name x => exact (Equivalent.task _).trans (Equivalent.pure_bind x fun key =>
      .task (.walkKey key rest (some v) site)).symm
  | index o =>
    refine (Equivalent.task _).trans (Equivalent.symm ?_)
    refine (Equivalent.bind_assoc _ _ _).trans (.bind (.refl _) fun i => ?_)
    exact (Equivalent.bind_assoc _ _ _).trans (.bind (.refl _) fun w => Equivalent.pure_bind _ _)

/-- A key that is not the last is read at once. -/
theorem walkKey_on (key : String) (origin : Option Value) (hrest : rest ≠ []) :
    Equivalent (.task (.walkKey key rest origin site))
      (plain (readChain [key] origin site) >>= fun v => .task (.walk rest (some v) site)) := by
  refine (Equivalent.task _).trans ?_
  rw [Task.plan, if_neg (by simpa using hrest)]
  exact .refl _

/-- The last key is left as it is. -/
theorem walkKey_last (key : String) (origin : Option Value) :
    Equivalent (.task (.walkKey key [] origin site)) (pure ([key], origin)) :=
  Equivalent.task _

/-- What lies in front of other segments is read before them. -/
theorem walk_chain (c : AccessChain) (hrest : rest ≠ []) :
    Equivalent (.task (.walk (c.segments ++ rest) none site))
      (c.read site >>= fun v => .task (.walk rest (some v) site)) := by
  induction c generalizing rest with
  | name x => exact (Equivalent.task _).trans (walkKey_on x none hrest)
  | value o => exact Equivalent.task _
  | link c k ih =>
    rw [AccessChain.segments, List.append_assoc]
    refine (ih (List.cons_ne_nil k.segment rest)).trans ?_
    refine Equivalent.trans (.bind (.refl _) fun v => ?_) (Equivalent.bind_assoc _ _ _).symm
    refine (walk_link k v).trans (Equivalent.trans ?_ (Equivalent.bind_assoc _ _ _).symm)
    exact .bind (.refl _) fun key => walkKey_on key (some v) hrest

/-- A chain with a link is walked up to the key of its last link. -/
theorem walk_last (c : AccessChain) (k : Key) :
    Equivalent (.task (.walk (AccessChain.link c k).segments none site)) (do
      let v ← c.read site
      let key ← k.text v site
      return ([key], some v)) := by
  refine (walk_chain c (List.cons_ne_nil k.segment [])).trans (.bind (.refl _) fun v => ?_)
  exact (walk_link k v).trans (.bind (.refl _) fun key => walkKey_last key (some v))

theorem walk_name (x : String) :
    Equivalent (.task (.walk (AccessChain.name x).segments none site)) (pure ([x], none)) :=
  (Equivalent.task _).trans (walkKey_last x none)

theorem walk_value (o : Operation) :
    Equivalent (.task (.walk (AccessChain.value o).segments none site)) (do
      let v ← .task (.eval o site)
      return ([], some v)) :=
  (Equivalent.task _).trans (.bind (.refl _) fun _ => Equivalent.task _)

end Walking

/-- A place is found and written in one step. -/
theorem writeAt_eq_update (find : World → Except Fault World.Slot) (x : Value) :
    writeAt find x = update fun w => (find w).map fun s => w.write s x := by
  funext w
  change EStateM.bind (read find) _ w = _
  unfold EStateM.bind read update
  dsimp only
  cases find w <;> rfl

section Evaluation

variable (c : AccessChain) (site : Site)

/-- Reading a chain reads its links from left to right. -/
theorem eval_resolve : Equivalent (.task (.eval (.resolve c.segments) site)) (c.read site) := by
  refine (Equivalent.task _).trans ?_
  cases c with
  | name x =>
    refine (walk_name x).bind_left.trans (.of_carry fun n => ?_)
    simp only [carry_seq, carry_return, pure_bind]
    rfl
  | value o =>
    refine (walk_value o).bind_left.trans (.of_carry fun n => ?_)
    have hself : ∀ v, readChain [] (some v) site = pure v := fun _ => rfl
    simp only [carry_seq, carry_return, bind_assoc, pure_bind, hself]
    exact bind_pure _
  | link c k =>
    refine (walk_last c k).bind_left.trans (.of_carry fun n => ?_)
    simp only [AccessChain.read, Key.read, carry_seq, carry_return, bind_assoc, pure_bind]
    rfl

theorem writeChain_some (path : Path) (v x : Value) :
    writeChain path (some v) x site = update fun w => w.set v path x :=
  writeAt_eq_update _ x

theorem writeChain_none (path : Path) (x : Value) :
    writeChain path none x site = update fun w => w.setVariable site.frame path x :=
  writeAt_eq_update _ x

/-- An assignment writes once, to what all links but the last lead to. -/
theorem eval_assign (value : Operation) :
    Equivalent (.task (.eval (.assign c.segments value) site)) (c.assign value site) := by
  refine (Equivalent.task _).trans ?_
  cases c with
  | name x =>
    refine (walk_name x).bind_left.trans (.of_carry fun n => ?_)
    simp only [AccessChain.assign, writeChain_none, carry_seq, carry_return, pure_bind]
    rfl
  | value o =>
    refine (walk_value o).bind_left.trans (.of_carry fun n => ?_)
    simp only [AccessChain.assign, writeChain_some, carry_seq, carry_return, bind_assoc, pure_bind]
    rfl
  | link c k =>
    refine (walk_last c k).bind_left.trans (.of_carry fun n => ?_)
    simp only [AccessChain.assign, writeChain_some, carry_seq, carry_return, bind_assoc, pure_bind]
    rfl

/-- A receiver of nothing keeps nothing in use. -/
theorem hold_nil (f : Value) : site.hold [f, .nil] = site.hold [f] := by
  have hnil : Thing.ofValues [.nil] = [] := rfl
  simp only [Site.hold, Thing.ofValues, List.filterMap_cons] at hnil ⊢
  split <;> simp_all

/-- A call reads what is called before its arguments. -/
theorem eval_call (arguments : List Operation) :
    Equivalent (.task (.eval (.call c.segments arguments) site)) (c.call arguments site) := by
  refine (Equivalent.task _).trans ?_
  cases c with
  | name x =>
    refine (walk_name x).bind_left.trans (.of_carry fun n => ?_)
    simp only [AccessChain.call, AccessChain.callee, carry_seq, carry_return, bind_assoc,
      pure_bind, hold_nil]
    rfl
  | value o =>
    refine (walk_value o).bind_left.trans (.of_carry fun n => ?_)
    simp only [AccessChain.call, AccessChain.callee, carry_seq, carry_return, bind_assoc, pure_bind]
    rfl
  | link c k =>
    refine (walk_last c k).bind_left.trans (.of_carry fun n => ?_)
    simp only [AccessChain.call, AccessChain.callee, Key.read, carry_seq, carry_return, bind_assoc,
      pure_bind]
    rfl

end Evaluation

end Run

namespace Lowering

variable {α β : Type} {l l' : Linker}

theorem bind_eq_ok {x : Lowering α} {k : α → Lowering β} {b : β}
    (h : (x >>= k) l = .ok b l') : ∃ a l₁, x l = .ok a l₁ ∧ k a l₁ = .ok b l' := by
  rw [bind_apply] at h
  split at h
  next a l₁ hx => exact ⟨a, l₁, hx, h⟩
  · cases h

theorem atLine_eq_ok {line : Nat} {x : Lowering α} {a : α} (h : atLine line x l = .ok a l') :
    x l = .ok a l' := by
  unfold atLine at h
  split at h
  next hx =>
    cases h
    exact hx
  · cases h

end Lowering

open Run (AccessChain Key)
open Run.Plan (Equivalent)

/-- The chain that a node writes. Indexes, and what is no chain in itself, may be lowered to
anything. -/
inductive Node.Spells (onImport : String → Lowering Operation) : Node → AccessChain → Prop
  | name {e : Extent} {x : String} : Spells onImport (.identifier e x) (.name x)
  | value {n : Node} {o : Operation} {l l' : Linker} (hn : n.isChain = false)
      (ho : n.lower onImport l = .ok o l') : Spells onImport n (.value o)
  | member {origin : Node} {c : AccessChain} {e e' : Extent} {x : String}
      (h : Spells onImport origin c) :
      Spells onImport (.member e origin (.identifier e' x)) (.link c (.name x))
  | index {origin key : Node} {c : AccessChain} {e : Extent} {k : Operation} {l l' : Linker}
      (h : Spells onImport origin c) (hk : key.lower onImport l = .ok k l') :
      Spells onImport (.index e origin key) (.link c (.index k))

namespace Node

variable {onImport : String → Lowering Operation} {n : Node} {o : Operation} {l l' : Linker}

/-- A tree in which no text was passed over. -/
def Read (n : Node) : Prop := n.Everywhere fun m => m.isInvalid = false

/-- What is lowered has the segments of the chain that its node writes. -/
theorem lower_spells (hn : n.Everywhere fun m => m.NamesMember ∧ m.isInvalid = false)
    (h : n.lower onImport l = .ok o l') : ∃ c, n.Spells onImport c ∧ n.segments o = c.segments ∧
      (n.isChain = true → o = .resolve c.segments) := by
  induction hn generalizing o l l' with
  | @mk n here operands statements ihOperands ihStatements =>
    have hvalue : n.isChain = false → ∃ c, n.Spells onImport c ∧ n.segments o = c.segments ∧
        (n.isChain = true → o = .resolve c.segments) := by
      intro hchain
      refine ⟨.value o, .value hchain h, ?_, ?_⟩
      · unfold segments
        rw [hchain]
        rfl
      · rw [hchain]
        exact fun h => nomatch h
    cases n with
    | identifier e x =>
      cases h
      exact ⟨.name x, .name, rfl, fun _ => rfl⟩
    | member e origin name =>
      rw [lower] at h
      obtain ⟨a, l₁, ha, h⟩ := Lowering.bind_eq_ok (Lowering.atLine_eq_ok h)
      obtain ⟨b, l₂, hb, h⟩ := Lowering.bind_eq_ok h
      cases h
      obtain ⟨c, hc, hsegments, -⟩ := ihOperands origin (by simp [Node.operands]) ha
      have hname : name.isInvalid = false := by
        cases operands name (by simp [Node.operands]) with
        | mk hname _ _ => exact hname.2
      rcases here.1 e origin name rfl with hinvalid | ⟨e', x, rfl⟩
      · rw [hname] at hinvalid
        cases hinvalid
      · cases hb
        refine ⟨.link c (.name x), .member hc, ?_, fun _ => ?_⟩
        · rw [hsegments]
          rfl
        · rw [hsegments]
          rfl
    | index e origin key =>
      rw [lower] at h
      obtain ⟨a, l₁, ha, h⟩ := Lowering.bind_eq_ok (Lowering.atLine_eq_ok h)
      obtain ⟨k, l₂, hk, h⟩ := Lowering.bind_eq_ok h
      cases h
      obtain ⟨c, hc, hsegments, -⟩ := ihOperands origin (by simp [Node.operands]) ha
      refine ⟨.link c (.index k), .index hc hk, ?_, fun _ => ?_⟩
      · rw [hsegments]
        rfl
      · rw [hsegments]
        rfl
    | _ => exact hvalue rfl

end Node

/-- Wherever in a source text a chain of access stands in which no text was passed over, whatever
its length, it is read from left to right, link by link. If it is assigned to, all links but the
last are read, then the last key is evaluated, then the value, and one place is written. If it is
called, it is read before the arguments are evaluated, and the value in front of its last link is
the receiver. -/
theorem parse_chains {mode : ReadingMode} {source : String} {p : Parsed}
    (h : parse mode source = .ok p) : p.chunk.Everywhere fun n =>
      ∀ onImport l o l', n.lower onImport l = .ok o l' →
        (n.isChain = true → n.Read → ∃ c, n.Spells onImport c ∧ o = .resolve c.segments ∧
          ∀ site, Equivalent (.task (.eval o site)) (c.read site)) ∧
        (∀ e target value, n = .assignment e target value → target.Read →
          ∃ c v, target.Spells onImport c ∧ (∃ l l', value.lower onImport l = .ok v l') ∧
            o = .assign c.segments v ∧
            ∀ site, Equivalent (.task (.eval o site)) (c.assign v site)) ∧
        ∀ e callee arguments, n = .call e callee arguments → callee.Read →
          ∃ c xs, callee.Spells onImport c ∧
            (∃ l l', Node.lowerList onImport arguments l = .ok xs l') ∧
            o = .call c.segments xs ∧
            ∀ site, Equivalent (.task (.eval o site)) (c.call xs site) := by
  refine Node.Everywhere.mono ?_ (parse_names_members h).everywhere
  intro n hnames onImport l o l' ho
  refine ⟨?_, ?_, ?_⟩
  · intro hchain hread
    obtain ⟨c, hc, -, hresolve⟩ := Node.lower_spells (hnames.and hread) ho
    obtain rfl := hresolve hchain
    exact ⟨c, hc, rfl, Run.eval_resolve c⟩
  · rintro e target value rfl hread
    rw [Node.lower] at ho
    have ho := Lowering.atLine_eq_ok ho
    split at ho
    next hchain =>
      obtain ⟨t, l₁, ht, ho⟩ := Lowering.bind_eq_ok ho
      obtain ⟨v, l₂, hv, ho⟩ := Lowering.bind_eq_ok ho
      cases ho
      have htarget := hnames.operand (c := target) (by simp [Node.operands])
      obtain ⟨c, hc, hsegments, -⟩ := Node.lower_spells (htarget.and hread) ht
      rw [hsegments]
      exact ⟨c, v, hc, ⟨l₁, _, hv⟩, rfl, fun site => Run.eval_assign c site v⟩
    · cases ho
  · rintro e callee arguments rfl hread
    rw [Node.lower] at ho
    obtain ⟨f, l₁, hf, ho⟩ := Lowering.bind_eq_ok (Lowering.atLine_eq_ok ho)
    obtain ⟨xs, l₂, hxs, ho⟩ := Lowering.bind_eq_ok ho
    cases ho
    have hcallee := hnames.operand (c := callee) (by simp [Node.operands])
    obtain ⟨c, hc, hsegments, -⟩ := Node.lower_spells (hcallee.and hread) hf
    rw [hsegments]
    exact ⟨c, xs, hc, ⟨l₁, _, hxs⟩, rfl, fun site => Run.eval_call c site xs⟩

/-- An assignment to an element of a member. -/
def elementOfMember : Node :=
  .assignment ⟨⟨1, 1⟩, ⟨1, 11⟩⟩
    (.index ⟨⟨1, 1⟩, ⟨1, 7⟩⟩
      (.member ⟨⟨1, 1⟩, ⟨1, 4⟩⟩ (.identifier ⟨⟨1, 1⟩, ⟨1, 2⟩⟩ "a")
        (.identifier ⟨⟨1, 3⟩, ⟨1, 4⟩⟩ "b"))
      (.identifier ⟨⟨1, 5⟩, ⟨1, 6⟩⟩ "i"))
    (.identifier ⟨⟨1, 10⟩, ⟨1, 11⟩⟩ "c")

theorem parse_chains_elementOfMember :
    parse ⟨false, 1⟩ "a.b[i] = c" =
      .ok ⟨.chunk ⟨⟨1, 1⟩, ⟨1, 11⟩⟩ [elementOfMember] ["a", "b", "i", "c"], []⟩ ∧
    ∀ site, Equivalent
      (.task (.eval (.assign [.name "a", .name "b", .index (.resolve [.name "i"])]
        (.resolve [.name "c"])) site))
      (AccessChain.assign (.resolve [.name "c"]) site
        (.link (.link (.name "a") (.name "b")) (.index (.resolve [.name "i"])))) := by
  have hparse : parse ⟨false, 1⟩ "a.b[i] = c" =
      .ok ⟨.chunk ⟨⟨1, 1⟩, ⟨1, 11⟩⟩ [elementOfMember] ["a", "b", "i", "c"], []⟩ := by cbv
  refine ⟨hparse, ?_⟩
  cases parse_chains hparse with
  | mk _ _ statements =>
    cases statements elementOfMember List.mem_cons_self with
    | mk here _ _ =>
      obtain ⟨-, hassign, -⟩ := here (fun _ => pure .noop) (.ofTarget "main") _ _ rfl
      have hread : (Node.index ⟨⟨1, 1⟩, ⟨1, 7⟩⟩
          (.member ⟨⟨1, 1⟩, ⟨1, 4⟩⟩ (.identifier ⟨⟨1, 1⟩, ⟨1, 2⟩⟩ "a")
            (.identifier ⟨⟨1, 3⟩, ⟨1, 4⟩⟩ "b"))
          (.identifier ⟨⟨1, 5⟩, ⟨1, 6⟩⟩ "i")).Read := by
        have hname : ∀ e x, (Node.identifier e x).Read := fun e x =>
          .mk rfl (by simp [Node.operands]) (by simp [Node.statements])
        refine .mk rfl ?_ (by simp [Node.statements])
        refine List.forall_mem_cons.2 ⟨.mk rfl ?_ (by simp [Node.statements]), ?_⟩
        · exact List.forall_mem_cons.2 ⟨hname _ _, List.forall_mem_singleton.2 (hname _ _)⟩
        · exact List.forall_mem_singleton.2 (hname _ _)
      obtain ⟨c, v, hspells, -, heq, hequivalent⟩ := hassign _ _ _ rfl hread
      cases hspells with
      | value hn _ => cases hn
      | index horigin _ =>
        cases horigin with
        | value hn _ => cases hn
        | member hname =>
          cases hname with
          | value hn _ => cases hn
          | name =>
            cases heq
            exact hequivalent

end LineScript
