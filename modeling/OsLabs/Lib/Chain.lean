import Mathlib.Data.List.Nodup
import Mathlib.Tactic.Common

/-! # Chains of successors

A partial successor function `next : α → Option α` links elements into chains. `Chain next o l` says
that following `next` from `o` visits exactly the elements of the list `l` and then ends. A start has
at most one chain, so a chain revisits no element (`Chain.nodup`). Chains are shortened, extended and
concatenated by changing `next` at their last elements. -/

namespace OsLabs

universe u

variable {α : Type u} {next next' : α → Option α}

/-- Following `next` from `o` visits the elements of the list and ends. -/
def Chain (next : α → Option α) : Option α → List α → Prop
  | o, [] => o = none
  | o, a :: l => o = some a ∧ Chain next (next a) l

/-- The chain without elements starts nowhere. -/
theorem chain_nil_iff {o : Option α} : Chain next o [] ↔ o = none := Iff.rfl

/-- A chain starts at its first element, and goes on from there. -/
theorem chain_cons_iff {o : Option α} {a : α} {l : List α} :
    Chain next o (a :: l) ↔ o = some a ∧ Chain next (next a) l := Iff.rfl

/-- The first `fuel` elements visited. -/
def visited (next : α → Option α) : Nat → Option α → List α
  | 0, _ => []
  | _ + 1, none => []
  | fuel + 1, some a => a :: visited next fuel (next a)

namespace Chain

/-- With enough fuel, all elements of a chain are visited. -/
theorem visited_eq {o : Option α} {l : List α} (h : Chain next o l) {fuel : Nat} (hfuel : l.length ≤ fuel) :
    visited next fuel o = l := by
  induction l generalizing o fuel with
  | nil =>
      obtain rfl := h
      cases fuel <;> rfl
  | cons a l ih =>
      obtain ⟨rfl, h⟩ := h
      obtain ⟨fuel, rfl⟩ := Nat.exists_eq_succ_of_ne_zero (Nat.ne_of_gt (Nat.lt_of_lt_of_le (Nat.succ_pos _) hfuel))
      rw [visited, ih h (Nat.le_of_succ_le_succ hfuel)]

/-- A start has at most one chain. -/
theorem unique {o : Option α} {l l' : List α} (h : Chain next o l) (h' : Chain next o l') :
    l = l' := by
  induction l generalizing o l' with
  | nil =>
      obtain rfl := h
      cases l' with
      | nil => rfl
      | cons a l' => cases h'.1
  | cons a l ih =>
      obtain ⟨rfl, h⟩ := h
      cases l' with
      | nil => cases h'
      | cons b l' =>
          obtain ⟨hb, h'⟩ := h'
          cases hb
          rw [ih h h']

/-- A chain starts with its first element. -/
theorem head {o : Option α} {l : List α} (h : Chain next o l) : o = l.head? := by
  cases l with
  | nil => exact h
  | cons a l => exact h.1

/-- The successor of an element is the element after it. -/
theorem next_getElem {o : Option α} {l : List α} (h : Chain next o l) {k : Nat}
    (hk : k < l.length) : next l[k] = l[k + 1]? := by
  induction l generalizing o k with
  | nil => cases hk
  | cons a l ih =>
      obtain ⟨-, h⟩ := h
      cases k with
      | zero => simpa [List.head?_eq_getElem?] using h.head
      | succ k => simpa using ih h (Nat.lt_of_succ_lt_succ hk)

/-- A list whose elements are linked in order is a chain. -/
theorem of_next {o : Option α} {l : List α} (ho : o = l.head?)
    (h : ∀ k (hk : k < l.length), next l[k] = l[k + 1]?) : Chain next o l := by
  induction l generalizing o with
  | nil => exact ho
  | cons a l ih =>
      refine ⟨ho, ih ?_ fun k hk => ?_⟩
      · simpa [List.head?_eq_getElem?] using h 0 (Nat.succ_pos _)
      · simpa using h (k + 1) (Nat.succ_lt_succ hk)

/-- The rest of a chain is a chain. -/
theorem drop {o : Option α} {l : List α} (h : Chain next o l) (k : Nat) :
    Chain next l[k]? (l.drop k) := by
  refine of_next (by rw [List.head?_drop]) fun i hi => ?_
  rw [List.length_drop] at hi
  rw [List.getElem_drop, List.getElem?_drop, h.next_getElem (by omega), Nat.add_assoc]

/-- A chain revisits no element. -/
theorem nodup {o : Option α} {l : List α} (h : Chain next o l) : l.Nodup := by
  rw [List.nodup_iff_injective_getElem]
  -- two visits of one element would be followed by chains of different lengths
  rintro ⟨i, hi⟩ ⟨j, hj⟩ hij
  have hi' : l[i]? = some l[i] := List.getElem?_eq_getElem hi
  have hj' : l[j]? = some l[j] := List.getElem?_eq_getElem hj
  have hdrop := h.drop i
  rw [hi', show l[i] = l[j] from hij, ← hj'] at hdrop
  have := congrArg List.length (hdrop.unique (h.drop j))
  rw [List.length_drop, List.length_drop] at this
  exact Fin.ext (by dsimp only; omega)

/-- The last element is visited last only. -/
theorem getLast_notMem_dropLast {o : Option α} {l : List α} (h : Chain next o l) {b : α}
    (hb : l.getLast? = some b) : b ∉ l.dropLast := by
  have hsplit := List.dropLast_append_getLast? b hb
  have hnodup := h.nodup
  rw [← hsplit, List.nodup_append] at hnodup
  exact fun hmem => hnodup.2.2 b hmem b List.mem_cons_self rfl

/-- A chain depends on the successors of its elements only. -/
theorem congr {o : Option α} {l : List α} (h : Chain next o l)
    (heq : ∀ a ∈ l, next' a = next a) : Chain next' o l :=
  of_next h.head fun k hk => by rw [heq _ (List.getElem_mem hk), h.next_getElem hk]

/-- A chain of another successor function that agrees on all elements but the last one starts with
the same elements. -/
theorem isPrefix {o : Option α} {l m : List α} (h : Chain next o l) (h' : Chain next' o m)
    (heq : ∀ a ∈ l.dropLast, next' a = next a) : l <+: m := by
  induction l generalizing o m with
  | nil => exact List.nil_prefix
  | cons a l ih =>
      obtain ⟨rfl, h⟩ := h
      cases m with
      | nil => cases h'
      | cons b m =>
          obtain ⟨hb, h'⟩ := h'
          cases hb
          cases l with
          | nil => exact ⟨m, rfl⟩
          | cons c l =>
              rw [heq a List.mem_cons_self] at h'
              exact List.cons_prefix_cons.mpr
                ⟨rfl, ih h h' fun x hx => heq x (List.mem_cons_of_mem a hx)⟩

/-- Ending a chain after one of its elements. -/
theorem take {o : Option α} {l : List α} (h : Chain next o l) {k : Nat} (hk : k < l.length)
    (hend : next' l[k] = none) (heq : ∀ a ∈ l.take k, next' a = next a) :
    Chain next' o (l.take (k + 1)) := by
  refine of_next ?_ fun i hi => ?_
  · rw [h.head, List.head?_take, if_neg (Nat.succ_ne_zero k)]
  · rw [List.length_take] at hi
    rw [List.getElem_take, List.getElem?_take]
    by_cases hik : i = k
    · subst hik
      rw [hend, if_neg (by omega)]
    · have hmem : l[i] ∈ l.take k := List.mem_take_iff_getElem.mpr ⟨i, by omega, rfl⟩
      rw [heq _ hmem, h.next_getElem, if_pos (by omega)]

/-- Extending a chain behind its last element. -/
theorem snoc {o : Option α} {l : List α} {b c : α} (h : Chain next o (l ++ [b]))
    (hb : next' b = some c) (hc : next' c = none) (heq : ∀ a ∈ l, next' a = next a) :
    Chain next' o (l ++ [b, c]) := by
  induction l generalizing o with
  | nil => exact ⟨h.1, hb, hc⟩
  | cons a l ih =>
      refine ⟨h.1, ?_⟩
      rw [heq a List.mem_cons_self]
      exact ih h.2 fun x hx => heq x (List.mem_cons_of_mem a hx)

/-- Taking an element out, by linking the one before it to the one after it. -/
theorem unlink {o : Option α} {l m : List α} {b a : α} (h : Chain next o (l ++ b :: a :: m))
    (hb : next' b = next a) (heq : ∀ x ∈ l ++ m, next' x = next x) :
    Chain next' o (l ++ b :: m) := by
  induction l generalizing o with
  | nil =>
      obtain ⟨ho, -, hm⟩ := h
      refine ⟨ho, ?_⟩
      rw [hb]
      exact hm.congr heq
  | cons c l ih =>
      refine ⟨h.1, ?_⟩
      rw [heq c (by simp)]
      apply ih h.2
      intro x hx
      apply heq x
      rw [List.cons_append]
      exact List.mem_cons_of_mem c hx

/-- `c` comes behind an element in `F`. -/
def CutOff (F : α → Prop) (l : List α) (c : α) : Prop := ∃ m b n, l = m ++ b :: n ∧ F b ∧ c ∈ n

/-- When the elements in `F` lose their successors, a chain ends at the first one of them. -/
theorem cut {F : α → Prop} {o : Option α} {l : List α} (h : Chain next o l)
    (hcut : ∀ a, F a → next' a = none) (hkeep : ∀ a, ¬ F a → next' a = next a) :
    ∃ l₁ l₂, l = l₁ ++ l₂ ∧ Chain next' o l₁ ∧ (∀ c ∈ l₁, ¬ CutOff F l c) ∧
      ∀ c ∈ l₂, CutOff F l c := by
  -- By induction over the chain; the part behind the first cut node is lost.
  induction l generalizing o with
  | nil =>
      refine ⟨[], [], rfl, h, fun c hc => ?_, fun c hc => ?_⟩
      · cases hc
      · cases hc
  | cons a l ih =>
      have hnodup := List.nodup_cons.mp h.nodup
      -- Nothing precedes the first node, and the chain visits it once.
      have hfirst : ¬ CutOff F (a :: l) a := by
        rintro ⟨m, b, n, hl, -, ha⟩
        cases m with
        | nil =>
            obtain ⟨-, rfl⟩ := List.cons.inj hl
            exact hnodup.1 ha
        | cons d m =>
            obtain ⟨-, rfl⟩ := List.cons.inj hl
            exact hnodup.1 (by simp [ha])
      obtain ⟨rfl, htail⟩ := h
      by_cases ha : F a
      -- The chain is cut at its first node, so all of the rest is lost.
      · refine ⟨[a], l, rfl, ⟨rfl, hcut a ha⟩, fun c hc => ?_, fun c hc => ⟨[], a, l, rfl, ha, hc⟩⟩
        rw [List.mem_singleton.mp hc]
        exact hfirst
      · obtain ⟨l₁, l₂, hl, hchain, hkept, hlost⟩ := ih htail
        refine ⟨a :: l₁, l₂, by rw [hl, List.cons_append], ⟨rfl, by rwa [hkeep a ha]⟩,
          fun c hc => ?_, fun c hc => ?_⟩
        · rcases List.mem_cons.mp hc with rfl | hc
          · exact hfirst
          · rintro ⟨m, b, n, hm, hb, hcn⟩
            cases m with
            | nil =>
                obtain ⟨rfl, -⟩ := List.cons.inj hm
                exact ha hb
            | cons d m =>
                obtain ⟨-, hm'⟩ := List.cons.inj hm
                exact hkept c hc ⟨m, b, n, hm', hb, hcn⟩
        · obtain ⟨m, b, n, hm, hb, hcn⟩ := hlost c hc
          exact ⟨a :: m, b, n, by rw [hm, List.cons_append], hb, hcn⟩

end Chain

end OsLabs
