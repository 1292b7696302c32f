import Mathlib.Data.List.Basic

/-! # Values of a partial function along a list

`tagged f l` lists the values of the partial function `f` at the elements of `l`, each with the element
it belongs to. Two such lists over the same elements agree exactly when the functions do
(`tagged_eq_iff`), and a filter on the values is one on the function (`filter_tagged`). -/

namespace OsLabs

universe u v

variable {α : Type u} {β : Type v} {f g : α → Option β} {l m : List α} {a : α} {b : β}

/-- The elements at which `f` has a value, with this value. -/
def tagged (f : α → Option β) (l : List α) : List (α × β) :=
  l.filterMap fun a => (f a).map fun b => (a, b)

/-- Nothing is tagged in the empty list. -/
@[simp] theorem tagged_nil (f : α → Option β) : tagged f [] = [] := rfl

/-- The tagged elements are those with a tag, each with its own. -/
theorem mem_tagged : (a, b) ∈ tagged f l ↔ a ∈ l ∧ f a = some b := by
  unfold tagged
  rw [List.mem_filterMap]
  constructor
  · rintro ⟨c, hc, h⟩
    obtain ⟨d, hd, hpair⟩ := Option.map_eq_some_iff.mp h
    obtain ⟨rfl, rfl⟩ := Prod.mk.inj hpair
    exact ⟨hc, hd⟩
  · rintro ⟨ha, h⟩
    exact ⟨a, ha, by rw [h, Option.map_some]⟩

/-- The tagged elements of two lists in a row. -/
theorem tagged_append (f : α → Option β) (l m : List α) :
    tagged f (l ++ m) = tagged f l ++ tagged f m := List.filterMap_append

/-- The list of values determines the function on the list. -/
theorem tagged_eq_iff : tagged f l = tagged g l ↔ ∀ a ∈ l, f a = g a := by
  constructor
  · intro h a ha
    ext b
    have hiff : (a, b) ∈ tagged f l ↔ (a, b) ∈ tagged g l := by rw [h]
    rw [mem_tagged, mem_tagged] at hiff
    simpa [ha] using hiff
  · intro h
    apply List.filterMap_congr
    intro a ha
    rw [h a ha]

/-- Nothing is tagged just if no element has a tag. -/
theorem tagged_eq_nil_iff : tagged f l = [] ↔ ∀ a ∈ l, f a = none := by
  unfold tagged
  simp

/-- A choice among tags may be made before tagging. -/
theorem filter_tagged (f : α → Option β) (p : β → Prop) [DecidablePred p] (l : List α) :
    ((tagged f l).filter fun c => p c.2) = tagged (fun a => (f a).filter fun b => p b) l := by
  unfold tagged
  rw [List.filter_filterMap]
  apply List.filterMap_congr
  intro a _
  dsimp only
  cases f a with
  | none => rfl
  | some b => by_cases hb : p b <;> simp [Option.filter, hb]

/-- Values at the elements of a part of the list only. -/
theorem tagged_restrict [∀ a, Decidable (a ∈ l)] (f : α → Option β) (hdisjoint : ∀ a ∈ m, a ∉ l) :
    tagged (fun a => if a ∈ l then f a else none) (l ++ m) = tagged f l := by
  have hleft : tagged (fun a => if a ∈ l then f a else none) l = tagged f l :=
    tagged_eq_iff.mpr fun a ha => if_pos ha
  have hright : tagged (fun a => if a ∈ l then f a else none) m = [] :=
    tagged_eq_nil_iff.mpr fun a ha => if_neg (hdisjoint a ha)
  rw [tagged_append, hleft, hright, List.append_nil]

end OsLabs
