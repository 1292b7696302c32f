import Mathlib.Data.Finset.Card
import Mathlib.Data.Set.Card
import Mathlib.Logic.Relation
import OsLabs.Lib.Chain

/-! # Orbits of a successor function

Following an arbitrary successor function from an element either ends or comes back. `Walk next o l o'`
says that the elements of `l` are visited from `o` on, and that `o'` comes next; an `Orbit` is a walk
that visits no element twice and then ends, or comes back to one of its elements. In a finite set
every element has an orbit (`exists_orbit`), whose elements are those reachable from it
(`Orbit.mem_iff`); it is a chain exactly when it ends (`Orbit.chain_iff`). -/

namespace OsLabs

universe u

variable {α : Type u} {next : α → Option α}

/-! ## Walks -/

/-- Following `next` from `o` visits the elements of the list, and `o'` comes after them. -/
def Walk (next : α → Option α) : Option α → List α → Option α → Prop
  | o, [], o' => o = o'
  | o, a :: l, o' => o = some a ∧ Walk next (next a) l o'

namespace Walk

/-- A walk behind which nothing comes is a chain. -/
theorem chain_iff {o : Option α} {l : List α} : Walk next o l none ↔ Chain next o l := by
  induction l generalizing o with
  | nil => exact Iff.rfl
  | cons a l ih =>
      unfold Walk
      rw [chain_cons_iff, ih]

/-- Two walks in a row are a walk. -/
theorem append {o o' o'' : Option α} {l m : List α} (h : Walk next o l o')
    (h' : Walk next o' m o'') : Walk next o (l ++ m) o'' := by
  induction l generalizing o with
  | nil =>
      obtain rfl := h
      exact h'
  | cons a l ih => exact ⟨h.1, ih h.2⟩

/-- A walk depends on the successors of its elements only. -/
theorem congr {next' : α → Option α} {o o' : Option α} {l : List α} (h : Walk next o l o')
    (heq : ∀ a ∈ l, next' a = next a) : Walk next' o l o' := by
  induction l generalizing o with
  | nil => exact h
  | cons a l ih =>
      refine ⟨h.1, ?_⟩
      rw [heq a List.mem_cons_self]
      apply ih h.2
      intro b hb
      exact heq b (List.mem_cons_of_mem a hb)

/-- The two parts of a walk. -/
theorem split {o o'' : Option α} {l m : List α} (h : Walk next o (l ++ m) o'') :
    ∃ o', Walk next o l o' ∧ Walk next o' m o'' := by
  induction l generalizing o with
  | nil => exact ⟨o, rfl, h⟩
  | cons a l ih =>
      obtain ⟨ho, hrest⟩ := h
      obtain ⟨o', hl, hm⟩ := ih hrest
      exact ⟨o', ⟨ho, hl⟩, hm⟩

/-- A chain goes on behind every walk from its start. -/
theorem chain_suffix {o o' : Option α} {l m : List α} (h : Walk next o l o')
    (hm : Chain next o m) : ∃ m', m = l ++ m' ∧ Chain next o' m' := by
  induction l generalizing o m with
  | nil =>
      obtain rfl := h
      exact ⟨m, rfl, hm⟩
  | cons a l ih =>
      obtain ⟨rfl, h⟩ := h
      cases m with
      | nil => cases hm
      | cons b m =>
          obtain ⟨hb, hm⟩ := hm
          cases hb
          obtain ⟨m', rfl, hm'⟩ := ih h hm
          exact ⟨m', rfl, hm'⟩

end Walk

/-- `b` is reached from `a` along the successor function. -/
def ReachesBy (next : α → Option α) : α → α → Prop :=
  Relation.ReflTransGen fun a b => next a = some b

/-- Without a successor, only the start is reached. -/
theorem reachesBy_end_iff {a b : α} (ha : next a = none) : ReachesBy next a b ↔ b = a := by
  constructor
  · intro h
    rcases h.cases_head with rfl | ⟨c, hc, -⟩
    · rfl
    · rw [ha] at hc
      cases hc
  · rintro rfl
    exact Relation.ReflTransGen.refl

/-- What is reached by way of a link is reached without it, from the element behind it. -/
theorem reachesBy_unlink_iff {next' : α → Option α} {a b c : α} (ha : next a = some c)
    (ha' : next' a = none) (heq : ∀ x, x ≠ a → next' x = next x) :
    ReachesBy next a b ↔ b = a ∨ ReachesBy next' c b := by
  constructor
  · intro h
    induction h with
    | refl => exact .inl rfl
    | @tail d e _ hde ih =>
        by_cases hda : d = a
        · rw [hda, ha] at hde
          obtain rfl := Option.some.inj hde
          exact .inr Relation.ReflTransGen.refl
        · rw [← heq d hda] at hde
          exact .inr ((ih.resolve_left hda).tail hde)
  · rintro (rfl | h)
    · exact Relation.ReflTransGen.refl
    · have hle : (fun x y => next' x = some y) ≤ fun x y => next x = some y := by
        intro x y hxy
        have hne : x ≠ a := by
          rintro rfl
          rw [ha'] at hxy
          cases hxy
        rwa [← heq x hne]
      exact Relation.ReflTransGen.head ha (Relation.ReflTransGen.mono hle c b h)

/-- Everything visited is reachable from the start. -/
theorem Walk.reaches {a b : α} {o' : Option α} {l : List α} (h : Walk next (some a) l o')
    (hb : b ∈ l) : ReachesBy next a b := by
  induction l generalizing a with
  | nil => cases hb
  | cons c l ih =>
      obtain ⟨ha, h⟩ := h
      cases ha
      rcases List.mem_cons.mp hb with rfl | hb
      · exact Relation.ReflTransGen.refl
      · cases l with
        | nil => cases hb
        | cons d l =>
            have hd : next c = some d := h.1
            rw [hd] at h
            exact Relation.ReflTransGen.head hd (ih h hb)

/-! ## Orbits -/

/-- A walk without repetition that ends or comes back to one of its elements. -/
structure Orbit (next : α → Option α) (o : Option α) (l : List α) (o' : Option α) : Prop where
  walk : Walk next o l o'
  nodup : l.Nodup
  back : ∀ b, o' = some b → b ∈ l

namespace Orbit

variable {a : α} {o' : Option α} {l : List α}

/-- The elements of an orbit are the elements reachable from its start. -/
theorem mem_iff (h : Orbit next (some a) l o') (b : α) : b ∈ l ↔ ReachesBy next a b := by
  constructor
  · exact h.walk.reaches
  · intro hb
    have ha : a ∈ l := by
      cases l with
      | nil => exact h.back a h.walk.symm
      | cons c l =>
          cases h.walk.1
          exact List.mem_cons_self
    -- the elements of the orbit are closed under the successor function
    have hclosed : ∀ c d, c ∈ l → next c = some d → d ∈ l := by
      intro c d hc hd
      obtain ⟨m, m', rfl⟩ := List.append_of_mem hc
      obtain ⟨o, -, hwalk⟩ := h.walk.split
      obtain ⟨-, hrest⟩ := hwalk
      rw [hd] at hrest
      cases m' with
      | nil => exact h.back d hrest.symm
      | cons e m' =>
          cases hrest.1
          simp
    induction hb with
    | refl => exact ha
    | tail _ hcd ih => exact hclosed _ _ ih hcd

/-- The start has a chain exactly when its orbit ends. -/
theorem chain_iff (h : Orbit next (some a) l o') :
    (∃ m, Chain next (some a) m) ↔ o' = none := by
  constructor
  · rintro ⟨m, hm⟩
    cases o' with
    | none => rfl
    | some b =>
        -- the chain would go on from `b` both before and after coming back to it
        obtain ⟨m', rfl, hend⟩ := h.walk.chain_suffix hm
        obtain ⟨l₁, l₂, rfl⟩ := List.append_of_mem (h.back b rfl)
        obtain ⟨o, hfirst, hsecond⟩ := h.walk.split
        obtain ⟨rfl, -⟩ := id hsecond
        rw [List.append_assoc] at hm
        obtain ⟨m'', heq, hstart⟩ := hfirst.chain_suffix hm
        obtain rfl := List.append_cancel_left heq
        have hlen := congrArg List.length (hstart.unique hend)
        rw [List.length_append, List.length_cons] at hlen
        omega
  · rintro rfl
    exact ⟨l, Walk.chain_iff.mp h.walk⟩

/-- The orbit of a point has as many elements as its list. -/
theorem ncard_eq (h : Orbit next (some a) l o') : {b | ReachesBy next a b}.ncard = l.length := by
  classical
  have hset : {b | ReachesBy next a b} = (l.toFinset : Set α) := by
    ext b
    rw [Set.mem_ofPred_eq, Finset.mem_coe, List.mem_toFinset, h.mem_iff b]
  rw [hset, Set.ncard_coe_finset, List.toFinset_card_of_nodup h.nodup]

end Orbit

/-- In a finite set that is closed under the successor function, every element has an orbit. -/
theorem exists_orbit [DecidableEq α] (s : Finset α) (hs : ∀ a b, next a = some b → b ∈ s) {a : α}
    (ha : a ∈ s) : ∃ l o', Orbit next (some a) l o' := by
  by_contra hnone
  rw [not_exists] at hnone
  -- otherwise there are walks without repetition of every length
  have hlong : ∀ n, ∃ l o', Walk next (some a) l (some o') ∧ l.Nodup ∧ l.length = n ∧
      (∀ b ∈ l, b ∈ s) ∧ o' ∈ s := by
    intro n
    induction n with
    | zero => exact ⟨[], a, rfl, List.nodup_nil, rfl, by simp, ha⟩
    | succ n ih =>
        obtain ⟨l, b, hwalk, hnodup, hlen, hin, hb⟩ := ih
        have hnew : b ∉ l := by
          intro hmem
          refine hnone l ⟨some b, hwalk, hnodup, ?_⟩
          rintro c hc
          cases hc
          exact hmem
        have hnodup' : (l ++ [b]).Nodup := by
          rw [List.nodup_append]
          refine ⟨hnodup, List.nodup_singleton b, ?_⟩
          rintro c hc d hd rfl
          rw [List.mem_singleton] at hd
          exact hnew (hd ▸ hc)
        have hwalk' : Walk next (some a) (l ++ [b]) (next b) := hwalk.append ⟨rfl, rfl⟩
        cases hnext : next b with
        | none =>
            rw [hnext] at hwalk'
            exact absurd ⟨none, hwalk', hnodup', by simp⟩ (hnone (l ++ [b]))
        | some c =>
            rw [hnext] at hwalk'
            refine ⟨l ++ [b], c, hwalk', hnodup', by simp [hlen], ?_, hs b c hnext⟩
            intro d hd
            rcases List.mem_append.mp hd with hd | hd
            · exact hin d hd
            · rw [List.mem_singleton.mp hd]
              exact hb
  obtain ⟨l, o', -, hnodup, hlen, hin, -⟩ := hlong (s.card + 1)
  have hle : l.toFinset.card ≤ s.card := by
    apply Finset.card_le_card
    intro b hb
    exact hin b (List.mem_toFinset.mp hb)
  rw [List.toFinset_card_of_nodup hnodup] at hle
  omega

end OsLabs
