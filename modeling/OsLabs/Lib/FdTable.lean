import Mathlib.Data.Option.Basic
import Mathlib.Data.Finset.Card
import Mathlib.Data.Finset.Range
import Mathlib.Data.List.Basic

/-! # Descriptor tables

A `FdTable α` maps the descriptor numbers of a process to the open files behind them. A call that
opens a file takes the lowest number that is closed; `dup2` and `close` work on a given number and
leave the table as it is when the number they read is closed. All numbers from `bound` on are closed
(a field of the structure), which makes the lowest closed number and the set of open ones
computable. -/

namespace OsLabs

/-- The open files of a process by descriptor number. -/
structure FdTable (α : Type) where
  /-- The open file behind a descriptor, if it is open. -/
  entry : Nat → Option α
  /-- A bound on the open descriptors. -/
  bound : Nat
  /-- Descriptors from the bound on are closed. -/
  closed : ∀ fd, bound ≤ fd → entry fd = none

namespace FdTable

variable {α : Type}

/-- Assign what is behind one descriptor. -/
def set (t : FdTable α) (fd : Nat) (v : Option α) : FdTable α where
  entry := fun k => if k = fd then v else t.entry k
  bound := max t.bound (fd + 1)
  closed := by
    intro k hk
    rw [if_neg (by omega)]
    exact t.closed k (by omega)

/-- The lowest closed descriptor. -/
def lowestFree (t : FdTable α) : Nat :=
  ((List.range t.bound).find? fun fd => (t.entry fd).isNone).getD t.bound

/-- Open a file under the lowest closed descriptor. -/
def openFile (t : FdTable α) (v : α) : FdTable α := t.set t.lowestFree (some v)

/-- Close a descriptor; a closed one stays closed. -/
def close (t : FdTable α) (fd : Nat) : FdTable α := t.set fd none

/-- Make `new` refer to what `old` refers to; nothing happens when `old` is closed. -/
def dup2 (t : FdTable α) (old new : Nat) : FdTable α :=
  match t.entry old with
  | none => t
  | some v => t.set new (some v)

/-! ## Entries after each operation -/

/-- Closing a descriptor closes it and no other. -/
theorem entry_close (t : FdTable α) (fd k : Nat) :
    (t.close fd).entry k = if k = fd then none else t.entry k := rfl

/-- A closed descriptor is not open. -/
@[simp] theorem entry_close_self (t : FdTable α) (fd : Nat) : (t.close fd).entry fd = none :=
  if_pos rfl

/-- The other descriptors stay open. -/
theorem entry_close_ne (t : FdTable α) {fd k : Nat} (h : k ≠ fd) :
    (t.close fd).entry k = t.entry k := if_neg h

/-- Opening takes the lowest free descriptor and no other. -/
theorem entry_openFile (t : FdTable α) (v : α) (k : Nat) :
    (t.openFile v).entry k = if k = t.lowestFree then some v else t.entry k := rfl

/-- The descriptor just opened. -/
@[simp] theorem entry_openFile_self (t : FdTable α) (v : α) :
    (t.openFile v).entry t.lowestFree = some v := if_pos rfl

/-- The other descriptors stay as they were. -/
theorem entry_openFile_ne (t : FdTable α) (v : α) {k : Nat} (h : k ≠ t.lowestFree) :
    (t.openFile v).entry k = t.entry k := if_neg h

/-- The target of a `dup2` refers to what its source did, when the source is open. -/
theorem entry_dup2_self (t : FdTable α) {old : Nat} (new : Nat) {v : α}
    (h : t.entry old = some v) : (t.dup2 old new).entry new = some v := by
  unfold dup2
  rw [h]
  exact if_pos rfl

/-- Only the target of a `dup2` changes. -/
theorem entry_dup2_ne (t : FdTable α) (old : Nat) {new k : Nat} (h : k ≠ new) :
    (t.dup2 old new).entry k = t.entry k := by
  unfold dup2
  split
  · rfl
  · exact if_neg h

/-! ## The lowest closed descriptor -/

/-- The lowest closed descriptor is closed. -/
@[simp] theorem entry_lowestFree (t : FdTable α) : t.entry t.lowestFree = none := by
  unfold lowestFree
  cases h : (List.range t.bound).find? fun fd => (t.entry fd).isNone with
  | none => exact t.closed _ (Nat.le_refl _)
  | some fd =>
      have hfd := List.find?_some h
      exact Option.isNone_iff_eq_none.mp hfd

/-- An open descriptor is not the lowest closed one. -/
theorem ne_lowestFree {t : FdTable α} {fd : Nat} (h : t.entry fd ≠ none) : fd ≠ t.lowestFree := by
  rintro rfl
  exact h t.entry_lowestFree

/-! ## Open descriptors -/

/-- The open descriptors. -/
def opened (t : FdTable α) : Finset Nat := (Finset.range t.bound).filter fun fd => (t.entry fd).isSome

/-- The open descriptors are those with an entry. -/
@[simp] theorem mem_opened {t : FdTable α} {fd : Nat} : fd ∈ t.opened ↔ t.entry fd ≠ none := by
  unfold opened
  rw [Finset.mem_filter, Finset.mem_range, Option.isSome_iff_ne_none, and_iff_right_iff_imp]
  intro hopen
  by_contra hge
  exact hopen (t.closed fd (Nat.le_of_not_lt hge))

/-- Opening a file opens one more descriptor. -/
theorem card_opened_openFile (t : FdTable α) (v : α) : (t.openFile v).opened.card = t.opened.card + 1 := by
  have hinsert : (t.openFile v).opened = insert t.lowestFree t.opened := by
    ext fd
    rw [Finset.mem_insert, mem_opened, mem_opened, entry_openFile]
    by_cases h : fd = t.lowestFree <;> simp [h]
  rw [hinsert, Finset.card_insert_of_notMem (by simp)]

/-- Closing an open descriptor leaves one less. -/
theorem card_opened_close {t : FdTable α} {fd : Nat} (h : t.entry fd ≠ none) :
    (t.close fd).opened.card + 1 = t.opened.card := by
  have herase : (t.close fd).opened = t.opened.erase fd := by
    ext k
    rw [Finset.mem_erase, mem_opened, mem_opened, entry_close]
    by_cases hk : k = fd <;> simp [hk]
  rw [herase, Finset.card_erase_add_one (mem_opened.mpr h)]

/-! ## Agreement -/

/-- Two tables that agree except, perhaps, under the standard input and output. -/
def SameOutside (t u : FdTable α) : Prop := ∀ fd, fd ≠ 0 → fd ≠ 1 → t.entry fd = u.entry fd

end FdTable

end OsLabs
