import LineScript.Proofs.Grammar.Relocation
import Mathlib.Data.List.Forall2

/-!
# Readings that do the same

Two readings are alike if they are built in the same way from the same steps: looking at the current
and the previous token, moving on, reporting a fault, taking note of a name. Whatever the steps have
in common the readings have in common, so facts about readings are shown here once for all of them,
by induction on how they are built, and the grammar only has to be shown to be built that way.
-/

namespace LineScript

namespace Reading

/-- Whether a number stands behind the current token, if that is a point. -/
def numberBehindPoint : Reading Bool := fun r =>
  if r.current.isPunctuator .dot then (do return (← peek) == TokenKind.number) r
  else .ok false r

/-- Two readings are built in the same way, and so are the results that `V` relates. The tokens of
the second reading are those of the first at the places that `p` gives. With `slack` the second may
go on where the first is exhausted; `stray` says whether a word that closes no block may be reported
and `allow` whether unread text may be passed over. -/
inductive Alike (p : Placement) (slack stray allow : Bool) :
    {α : Type} → (α → α → Prop) → Reading α → Reading α → Prop where
  | pure {α : Type} {V : α → α → Prop} {a b : α} (h : V a b) :
      Alike p slack stray allow V (pure a) (pure b)
  | bind {α β : Type} {V : α → α → Prop} {W : β → β → Prop} {x y : Reading α}
      {k l : α → Reading β} (hx : Alike p slack stray allow V x y)
      (hk : ∀ a b, V a b → Alike p slack stray allow W (k a) (l b)) :
      Alike p slack stray allow W (x >>= k) (y >>= l)
  | exhausted {α : Type} {V : α → α → Prop} {y : Reading α} (h : slack = true ∨ y = exhausted) :
      Alike p slack stray allow V exhausted y
  | current : Alike p slack stray allow (fun t u => u = t.relocate p) current current
  | previous : Alike p slack stray allow (fun t u => u = t.relocate p) previous previous
  | advance : Alike p slack stray allow (fun _ _ => True) advance advance
  | point : Alike p slack stray allow (fun a b => a = b) numberBehindPoint numberBehindPoint
  | raise {V : Node → Node → Prop} {f : ParseFault}
      (hf : f = .unexpectedEndOfFile → stray = true)
      (h : allow = true → ∀ e : Extent, V (.invalid e) (.invalid (e.relocate p.place))) :
      Alike p slack stray allow V (raise f) (raise (f.relocate p.line))
  | note (name : String) : Alike p slack stray allow (fun _ _ => True) (note name) (note name)

theorem bind_apply {α β : Type} (x : Reading α) (k : α → Reading β) (r : Reader) :
    (x >>= k) r = match x r with
      | .ok a s => k a s
      | .error e s => .error e s := by
  change EStateM.bind x k r = _
  unfold EStateM.bind
  cases x r <;> rfl

/-- A sequence of two readings succeeds if and only if the first does and then the second. -/
theorem bind_eq_ok {α β : Type} {x : Reading α} {k : α → Reading β} {r s : Reader} {b : β} :
    (x >>= k) r = .ok b s ↔ ∃ a t, x r = .ok a t ∧ k a t = .ok b s := by
  rw [bind_apply]
  cases x r with
  | ok a t => simp
  | error e t => simp

theorem discard_eq {α : Type} (x : Reading α) : discard x = x >>= fun _ => pure () := by
  funext r
  rw [bind_apply]
  simp only [discard, Functor.discard, Functor.mapConst, Function.comp, EStateM.map]
  cases x r <;> rfl

namespace Alike

variable {p : Placement} {slack stray allow : Bool} {α β : Type} {V : α → α → Prop}
  {W : β → β → Prop} {x y : Reading α}

theorem seq {k l : Reading β} (hx : Alike p slack stray allow V x y)
    (hk : Alike p slack stray allow W k l) :
    Alike p slack stray allow W (x >>= fun _ => k) (y >>= fun _ => l) :=
  .bind hx fun _ _ _ => hk

theorem map {f g : α → β} (hx : Alike p slack stray allow V x y)
    (hf : ∀ a b, V a b → W (f a) (g b)) : Alike p slack stray allow W (f <$> x) (g <$> y) := by
  rw [map_eq_pure_bind, map_eq_pure_bind]
  exact .bind hx fun a b hab => .pure (hf a b hab)

theorem weaken {U : α → α → Prop} (hx : Alike p slack stray allow V x y)
    (h : ∀ a b, V a b → U a b) : Alike p slack stray allow U x y := by
  have := map (f := id) (g := id) hx h
  rwa [id_map, id_map] at this

theorem discard (hx : Alike p slack stray allow V x y) :
    Alike p slack stray allow (fun _ _ => True) (discard x) (discard y) := by
  rw [discard_eq, discard_eq]
  exact .bind hx fun _ _ _ => .pure trivial

end Alike

end Reading

end LineScript
