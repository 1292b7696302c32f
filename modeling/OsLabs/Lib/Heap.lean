import Mathlib.Logic.Function.Basic
import Mathlib.Data.Option.Basic

/-! # A heap of allocated cells

A `Heap α` maps addresses to the records stored there. Addresses at or above the frontier `next`
have never been allocated (a field of the structure), so an allocation always returns an address no
live or released cell has had; released addresses are not handed out again, and a stale pointer is
recognized as such. -/

namespace OsLabs

/-- Allocated cells, together with the proof that nothing lives beyond the frontier. -/
structure Heap (α : Type) where
  /-- The record stored at an address, if the address is live. -/
  cell : Nat → Option α
  /-- The allocation frontier. -/
  next : Nat
  /-- Addresses from the frontier on are not live. -/
  fresh : ∀ a, next ≤ a → cell a = none

namespace Heap

variable {α : Type}

/-- The heap with no live cell. -/
def empty : Heap α := ⟨fun _ => none, 0, fun _ _ => rfl⟩

/-- Store a record at the frontier; its address is the old frontier. -/
def alloc (h : Heap α) (v : α) : Heap α where
  cell := fun a => if a = h.next then some v else h.cell a
  next := h.next + 1
  fresh := by
    intro a ha
    rw [if_neg (by omega)]
    exact h.fresh a (by omega)

/-- Apply `f` to the record at address `a`, if it is live. -/
def modify (h : Heap α) (a : Nat) (f : α → α) : Heap α where
  cell := fun b => if b = a then (h.cell b).map f else h.cell b
  next := h.next
  fresh := by
    intro b hb
    rw [h.fresh b hb]
    split <;> rfl

/-- Release the cell at address `a`. -/
def free (h : Heap α) (a : Nat) : Heap α where
  cell := fun b => if b = a then none else h.cell b
  next := h.next
  fresh := by
    intro b hb
    rw [h.fresh b hb]
    split <;> rfl

/-- A live address lies below the frontier. -/
theorem lt_next {h : Heap α} {a : Nat} {v : α} (hv : h.cell a = some v) : a < h.next := by
  by_contra hge
  rw [h.fresh a (by omega)] at hv
  cases hv

/-- Nothing is live in the empty heap. -/
@[simp] theorem cell_empty (a : Nat) : (empty : Heap α).cell a = none := rfl

/-- An allocation takes an address. -/
@[simp] theorem next_alloc (h : Heap α) (v : α) : (h.alloc v).next = h.next + 1 := rfl

/-- A change takes no address. -/
@[simp] theorem next_modify (h : Heap α) (a : Nat) (f : α → α) :
    (h.modify a f).next = h.next := rfl

/-- Freeing takes no address: it is never given out again. -/
@[simp] theorem next_free (h : Heap α) (a : Nat) : (h.free a).next = h.next := rfl

/-- The new cell holds the stored record. -/
@[simp] theorem cell_alloc_next (h : Heap α) (v : α) : (h.alloc v).cell h.next = some v :=
  if_pos rfl

/-- An allocation leaves every other address alone. -/
theorem cell_alloc_ne {h : Heap α} {a : Nat} (ha : a ≠ h.next) (v : α) :
    (h.alloc v).cell a = h.cell a := if_neg ha

/-- An allocation keeps what is live. -/
theorem cell_alloc_of_live {h : Heap α} {a : Nat} {w : α} (hw : h.cell a = some w) (v : α) :
    (h.alloc v).cell a = some w := by
  rw [cell_alloc_ne (Nat.ne_of_lt (lt_next hw)), hw]

/-- Modifying a live cell. -/
theorem cell_modify_self {h : Heap α} {a : Nat} {v : α} (hv : h.cell a = some v) (f : α → α) :
    (h.modify a f).cell a = some (f v) := by
  show (if a = a then (h.cell a).map f else h.cell a) = some (f v)
  rw [if_pos rfl, hv]; rfl

/-- A modification leaves every other address alone. -/
theorem cell_modify_ne {h : Heap α} {a b : Nat} (hb : b ≠ a) (f : α → α) :
    (h.modify a f).cell b = h.cell b := if_neg hb

/-- Reading after a modification, at any address. -/
theorem cell_modify (h : Heap α) (a b : Nat) (f : α → α) :
    (h.modify a f).cell b = if b = a then (h.cell b).map f else h.cell b := rfl

/-- Two modifications of one cell. -/
theorem modify_modify (h : Heap α) (a : Nat) (f g : α → α) :
    (h.modify a f).modify a g = h.modify a fun v => g (f v) := by
  unfold modify
  congr 1
  funext b
  by_cases hb : b = a
  · simp only [if_pos hb, Option.map_map]
    rfl
  · simp only [if_neg hb]

/-- What was freed is not live. -/
@[simp] theorem cell_free_self (h : Heap α) (a : Nat) : (h.free a).cell a = none := if_pos rfl

/-- A release leaves every other address alone. -/
theorem cell_free_ne {h : Heap α} {a b : Nat} (hb : b ≠ a) : (h.free a).cell b = h.cell b :=
  if_neg hb

end Heap

end OsLabs
