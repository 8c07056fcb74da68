/-!
# Heaps

Cells that are numbered in the order in which they were made. The lemmas say what making and
writing a cell does to a reading.
-/

namespace LineScript

/-- Cells numbered in the order in which they were made. -/
structure Heap (α : Type) where
  cells : Array α
deriving Inhabited

namespace Heap

variable {α : Type}

/-- The heap without cells. -/
def empty : Heap α := ⟨#[]⟩

/-- How many cells there are, which is also the number of the next one. -/
def size (h : Heap α) : Nat := h.cells.size

/-- The contents of a cell. -/
def get? (h : Heap α) (i : Nat) : Option α := h.cells[i]?

/-- Makes a cell. -/
def push (h : Heap α) (a : α) : Heap α := ⟨h.cells.push a⟩

/-- Writes a cell, if it was made. -/
def set (h : Heap α) (i : Nat) (a : α) : Heap α := ⟨h.cells.setIfInBounds i a⟩

/-- Changes the contents of a cell, if it was made. -/
def modify (h : Heap α) (i : Nat) (f : α → α) : Heap α :=
  match h.get? i with
  | some a => h.set i (f a)
  | none => h

@[simp] theorem size_push (h : Heap α) (a : α) : (h.push a).size = h.size + 1 := by
  simp [push, size]

@[simp] theorem size_set (h : Heap α) (i : Nat) (a : α) : (h.set i a).size = h.size := by
  simp [set, size]

@[simp] theorem size_modify (h : Heap α) (i : Nat) (f : α → α) : (h.modify i f).size = h.size := by
  unfold modify
  split <;> simp

theorem get?_push (h : Heap α) (a : α) (i : Nat) :
    (h.push a).get? i = if i = h.size then some a else h.get? i := by
  by_cases hi : i = h.size
  · subst hi
    simp [push, get?, size]
  · have hc : ¬ i = h.cells.size := hi
    rw [if_neg hi, push, get?, Array.getElem?_push, if_neg hc, get?]

@[simp] theorem get?_push_size (h : Heap α) (a : α) : (h.push a).get? h.size = some a := by
  simp [get?_push]

theorem get?_set (h : Heap α) (i j : Nat) (a : α) :
    (h.set i a).get? j = if i = j ∧ j < h.size then some a else h.get? j := by
  rw [set, get?, Array.getElem?_setIfInBounds, get?]
  by_cases hij : i = j
  · subst hij
    by_cases hi : i < h.cells.size
    · rw [if_pos rfl, if_pos hi, if_pos ⟨rfl, hi⟩]
    · rw [if_pos rfl, if_neg hi, if_neg (fun hp => hi hp.2),
        Array.getElem?_eq_none (Nat.not_lt.1 hi)]
  · rw [if_neg hij, if_neg (fun hp => hij hp.1)]

theorem lt_size_of_get? {h : Heap α} {i : Nat} {a : α} (hi : h.get? i = some a) :
    i < h.size := by
  rw [get?] at hi
  exact (Array.getElem?_eq_some_iff.1 hi).1

theorem get?_modify (h : Heap α) (i j : Nat) (f : α → α) :
    (h.modify i f).get? j = if i = j then (h.get? j).map f else h.get? j := by
  unfold modify
  cases hi : h.get? i with
  | none =>
    by_cases hij : i = j
    · subst hij
      simp [hi]
    · simp [hij]
  | some a =>
    have hlt := lt_size_of_get? hi
    rw [get?_set]
    by_cases hij : i = j
    · subst hij
      simp [hi, hlt]
    · simp [hij]

end Heap

end LineScript
