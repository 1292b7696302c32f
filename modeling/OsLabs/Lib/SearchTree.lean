import Mathlib.Data.Tree.Basic
import Mathlib.Data.List.Pairwise
import Mathlib.Data.List.Nodup
import Mathlib.Order.Basic
import Mathlib.Tactic.Common

/-! # Binary search trees and their linked representations

Binary trees of references, searched by a comparison `c : ρ → Int` of each reference with a fixed
key (negative: the key is further right).

* `inorder`, the references in order; `insertBy`, `locate` and `deleteBy`, the search-tree
  operations driven by `c`; `removeRoot`, the deletion of a root by its in-order successor.
* `Monotone c l`: along the list `l` the comparison is first negative, then at most once zero, then
  positive. On the in-order list of an ordered tree this is what makes `c` find the key.
* `Linked ok p t`: the pointer `p` represents `t` in a memory whose node `a` carries the child
  pointers and subtree sizes that `ok` records. The representation is unique, it depends on the
  nodes of `t` only, and no node of it lies below itself. -/

namespace OsLabs

namespace SearchTree

universe u

variable {ρ : Type u}

/-! ## In-order lists -/

/-- The references of a tree in order. -/
def inorder : BinaryTree ρ → List ρ
  | .nil => []
  | .node a l r => inorder l ++ a :: inorder r

/-- The empty tree has no elements. -/
@[simp] theorem inorder_nil : inorder (.nil : BinaryTree ρ) = [] := rfl

/-- The elements of a tree in order: left, root, right. -/
@[simp] theorem inorder_node (a : ρ) (l r : BinaryTree ρ) :
    inorder (.node a l r) = inorder l ++ a :: inorder r := rfl

/-- A tree has as many nodes as its in-order list. -/
theorem length_inorder (t : BinaryTree ρ) : (inorder t).length = t.numNodes := by
  induction t with
  | nil => rfl
  | node a l r ihl ihr =>
      simp only [inorder_node, List.length_append, List.length_cons, ihl, ihr,
        BinaryTree.numNodes]
      omega

/-- A tree is no deeper than it has nodes. -/
theorem height_le_numNodes (t : BinaryTree ρ) : t.height ≤ t.numNodes := by
  induction t with
  | nil => exact Nat.le_refl 0
  | node a l r ihl ihr =>
      simp only [BinaryTree.height, BinaryTree.numNodes]
      omega

/-- The parts of a node whose references are distinct. -/
theorem nodup_node {a : ρ} {l r : BinaryTree ρ} (h : (inorder (.node a l r)).Nodup) :
    (inorder l).Nodup ∧ (inorder r).Nodup ∧ a ∉ inorder l ∧ a ∉ inorder r ∧
      ∀ b ∈ inorder l, b ∉ inorder r := by
  rw [inorder_node, List.nodup_append, List.nodup_cons] at h
  obtain ⟨hl, ⟨har, hr⟩, hd⟩ := h
  refine ⟨hl, hr, fun ha => ?_, har, fun b hb hb' => ?_⟩
  · exact hd a ha a (by simp) rfl
  · exact hd b hb b (by simp [hb']) rfl

/-- A node over trees of distinct references that have no reference in common. -/
theorem nodup_node_of {a : ρ} {l r : BinaryTree ρ} (hl : (inorder l).Nodup) (hr : (inorder r).Nodup)
    (hal : a ∉ inorder l) (har : a ∉ inorder r) (hlr : ∀ b ∈ inorder l, b ∉ inorder r) :
    (inorder (.node a l r)).Nodup := by
  rw [inorder_node, List.nodup_append, List.nodup_cons]
  refine ⟨hl, ⟨har, hr⟩, fun b hb d hd hbd => ?_⟩
  subst hbd
  rcases List.mem_cons.mp hd with rfl | hd
  · exact hal hb
  · exact hlr b hb hd

/-! ## Operations driven by a comparison -/

/-- Follow the comparison from the root to the reference it is zero at. -/
def locate (c : ρ → Int) : BinaryTree ρ → Option ρ
  | .nil => none
  | .node a l r => if c a < 0 then locate c r else if c a > 0 then locate c l else some a

/-- Insert `x` where the comparison leads, unless it meets a zero on the way. Here `c` compares the
key of `x` with that of a node: positive means that `x` belongs to the right. -/
def insertBy (c : ρ → Int) (x : ρ) : BinaryTree ρ → BinaryTree ρ
  | .nil => .node x .nil .nil
  | .node a l r =>
      if c a > 0 then .node a l (insertBy c x r)
      else if c a < 0 then .node a (insertBy c x l) r
      else .node a l r

/-- The subtree whose root the comparison finds; empty when it finds none. -/
def subtreeBy (c : ρ → Int) : BinaryTree ρ → BinaryTree ρ
  | .nil => .nil
  | .node a l r =>
      if c a = 0 then .node a l r
      else if c a < 0 then subtreeBy c r
      else subtreeBy c l

/-- Put `s` where the comparison leads, in place of `subtreeBy`. -/
def replaceBy (c : ρ → Int) (s : BinaryTree ρ) : BinaryTree ρ → BinaryTree ρ
  | .nil => s
  | .node a l r =>
      if c a = 0 then s
      else if c a < 0 then .node a l (replaceBy c s r)
      else .node a (replaceBy c s l) r

/-- Remove the root: its place is taken by the in-order successor, when that is the root of the right
subtree or its left child. -/
def removeRoot : BinaryTree ρ → BinaryTree ρ
  | .nil => .nil
  | .node _ .nil r => r
  | .node _ l .nil => l
  | .node _ l (.node m .nil mr) => .node m l mr
  | .node _ l (.node m (.node f _ fr) mr) => .node f l (.node m fr mr)

/-- Delete the reference the comparison finds. -/
def deleteBy (c : ρ → Int) (t : BinaryTree ρ) : BinaryTree ρ :=
  replaceBy c (removeRoot (subtreeBy c t)) t

/-- The in-order successor of the root, if it has two subtrees, is the root of the right one or the
left child of that. -/
def SuccessorNear : BinaryTree ρ → Prop
  | .node _ (.node _ _ _) (.node _ (.node _ (.node _ _ _) _) _) => False
  | _ => True

/-- The root has at most one subtree, or its right child has no left child. -/
def SuccessorIsChild : BinaryTree ρ → Prop
  | .node _ (.node _ _ _) (.node _ (.node _ _ _) _) => False
  | _ => True

/-- Along the list the comparison is negative, then at most once zero, then positive. -/
def Monotone (c : ρ → Int) (l : List ρ) : Prop := l.Pairwise fun a b => 0 ≤ c a → 0 < c b

/-- The parts of a monotone node. -/
theorem monotone_node {c : ρ → Int} {a : ρ} {l r : BinaryTree ρ}
    (h : Monotone c (inorder (.node a l r))) :
    Monotone c (inorder l) ∧ Monotone c (inorder r) ∧
      (∀ b ∈ inorder l, 0 ≤ c b → 0 < c a) ∧ (∀ b ∈ inorder r, 0 ≤ c a → 0 < c b) := by
  unfold Monotone at h
  rw [inorder_node, List.pairwise_append, List.pairwise_cons] at h
  obtain ⟨hl, ⟨har, hr⟩, hd⟩ := h
  exact ⟨hl, hr, fun b hb => hd b hb a (by simp), har⟩

/-- The comparison finds only references of the tree, at which it is zero. -/
theorem locate_mem {c : ρ → Int} {t : BinaryTree ρ} {a : ρ} (h : locate c t = some a) :
    a ∈ inorder t ∧ c a = 0 := by
  induction t with
  | nil => simp [locate] at h
  | node b l r ihl ihr =>
      rw [locate] at h
      split_ifs at h with hneg hpos
      · exact ⟨by simp [(ihr h).1], (ihr h).2⟩
      · exact ⟨by simp [(ihl h).1], (ihl h).2⟩
      · cases h
        exact ⟨by simp, by omega⟩

/-- On a monotone tree, a reference with comparison zero is the one found. -/
theorem locate_eq_some {c : ρ → Int} {t : BinaryTree ρ} {a : ρ}
    (hm : Monotone c (inorder t)) (ha : a ∈ inorder t) (hc : c a = 0) : locate c t = some a := by
  induction t with
  | nil => simp at ha
  | node b l r ihl ihr =>
      obtain ⟨hml, hmr, hlb, hbr⟩ := monotone_node hm
      rw [inorder_node, List.mem_append, List.mem_cons] at ha
      rw [locate]
      rcases ha with ha | rfl | ha
      · have hb := hlb a ha (by omega)
        rw [if_neg (by omega), if_pos (by omega), ihl hml ha]
      · rw [if_neg (by omega), if_neg (by omega)]
      · have hb : c b < 0 := by
          by_contra hge
          have := hbr a ha (by omega)
          omega
        rw [if_pos hb, ihr hmr ha]

/-- On a monotone tree the search fails exactly when the comparison is nowhere zero. -/
theorem locate_eq_none_iff {c : ρ → Int} {t : BinaryTree ρ} (hm : Monotone c (inorder t)) :
    locate c t = none ↔ ∀ a ∈ inorder t, c a ≠ 0 := by
  constructor
  · intro h a ha hc
    rw [locate_eq_some hm ha hc] at h
    cases h
  · intro h
    cases hl : locate c t with
    | none => rfl
    | some a => exact absurd (locate_mem hl).2 (h a (locate_mem hl).1)

/-- In order, what compares as zero is what a search finds. -/
theorem filter_eq_zero {c : ρ → Int} {t : BinaryTree ρ} (hm : Monotone c (inorder t)) :
    (inorder t).filter (c · = 0) = (locate c t).toList := by
  cases hloc : locate c t with
  | none =>
      rw [Option.toList_none, List.filter_eq_nil_iff]
      intro a ha
      simpa using (locate_eq_none_iff hm).mp hloc a ha
  | some a =>
      obtain ⟨ha, hca⟩ := locate_mem hloc
      obtain ⟨before, after, hsplit⟩ := List.append_of_mem ha
      rw [hsplit, Monotone, List.pairwise_append, List.pairwise_cons] at hm
      obtain ⟨-, ⟨hafter, -⟩, hbefore⟩ := hm
      have hb : before.filter (c · = 0) = [] := by
        rw [List.filter_eq_nil_iff]
        intro b hb
        have := hbefore b hb a (by simp)
        simp only [decide_eq_true_eq]
        omega
      have hf : after.filter (c · = 0) = [] := by
        rw [List.filter_eq_nil_iff]
        intro b hb
        have := hafter b hb (by omega)
        simp only [decide_eq_true_eq]
        omega
      rw [hsplit, List.filter_append, List.filter_cons, hb, hf, if_pos (by simpa using hca)]
      rfl

/-- The subtree found is rooted at the reference found. -/
theorem locate_of_subtreeBy {c : ρ → Int} {t : BinaryTree ρ} :
    locate c t = (match subtreeBy c t with | .nil => none | .node a _ _ => some a) := by
  induction t with
  | nil => rfl
  | node a l r ihl ihr =>
      rw [locate, subtreeBy]
      split_ifs with h1 h2 h2 h3
      · omega
      · exact ihr
      · omega
      · exact ihl
      · rfl
      · omega

/-- There is no subtree to find just if the search finds nothing. -/
theorem subtreeBy_eq_nil_iff {c : ρ → Int} {t : BinaryTree ρ} :
    subtreeBy c t = .nil ↔ locate c t = none := by
  rw [locate_of_subtreeBy]
  cases subtreeBy c t <;> simp

/-- The root of the subtree found is the element found. -/
theorem locate_eq_of_subtreeBy {c : ρ → Int} {t : BinaryTree ρ} {a : ρ} {l r : BinaryTree ρ}
    (h : subtreeBy c t = .node a l r) : locate c t = some a := by
  rw [locate_of_subtreeBy, h]

/-- Replacing a subtree by itself. -/
theorem replaceBy_subtreeBy (c : ρ → Int) (t : BinaryTree ρ) : replaceBy c (subtreeBy c t) t = t := by
  induction t with
  | nil => rfl
  | node a l r ihl ihr =>
      rw [subtreeBy, replaceBy]
      split_ifs
      · rfl
      · rw [ihr]
      · rw [ihl]

/-- Replacing a subtree exchanges a segment of the in-order list. -/
theorem inorder_replaceBy (c : ρ → Int) (t : BinaryTree ρ) :
    ∃ before after, ∀ s, inorder (replaceBy c s t) = before ++ inorder s ++ after := by
  induction t with
  | nil => exact ⟨[], [], fun s => by simp [replaceBy]⟩
  | node a l r ihl ihr =>
      simp only [replaceBy]
      split_ifs
      · exact ⟨[], [], fun s => by simp⟩
      · obtain ⟨before, after, h⟩ := ihr
        exact ⟨inorder l ++ a :: before, after, fun s => by simp [h]⟩
      · obtain ⟨before, after, h⟩ := ihl
        exact ⟨before, after ++ a :: inorder r, fun s => by simp [h]⟩

/-- A subtree is a segment of the in-order list. -/
theorem inorder_subtreeBy (c : ρ → Int) (t : BinaryTree ρ) :
    ∃ before after, inorder t = before ++ inorder (subtreeBy c t) ++ after ∧
      ∀ s, inorder (replaceBy c s t) = before ++ inorder s ++ after := by
  obtain ⟨before, after, h⟩ := inorder_replaceBy c t
  exact ⟨before, after, by rw [← h, replaceBy_subtreeBy], h⟩

/-- The elements of the subtree found are elements of the tree. -/
theorem mem_of_mem_subtreeBy {c : ρ → Int} {t : BinaryTree ρ} {a : ρ}
    (h : a ∈ inorder (subtreeBy c t)) : a ∈ inorder t := by
  obtain ⟨before, after, ht, -⟩ := inorder_subtreeBy c t
  rw [ht]
  simp [h]

/-- Replacing a subtree by a tree of some of its references. -/
theorem replaceBy_subset {c : ρ → Int} {s t : BinaryTree ρ}
    (h : inorder s ⊆ inorder (subtreeBy c t)) : inorder (replaceBy c s t) ⊆ inorder t := by
  obtain ⟨before, after, ht, hrep⟩ := inorder_subtreeBy c t
  rw [ht, hrep]
  intro x hx
  simp only [List.append_assoc, List.mem_append] at hx ⊢
  rcases hx with hx | hx | hx
  · exact .inl hx
  · exact .inr (.inl (h hx))
  · exact .inr (.inr hx)

/-- Removing a root keeps the order of the others. -/
theorem inorder_removeRoot {a : ρ} {l r : BinaryTree ρ} (h : SuccessorNear (.node a l r)) :
    inorder (removeRoot (.node a l r)) = inorder l ++ inorder r := by
  rcases l with _ | ⟨b, ll, lr⟩
  · simp [removeRoot]
  · rcases r with _ | ⟨m, _ | ⟨f, _ | ⟨g, gl, gr⟩, fr⟩, mr⟩
    · simp [removeRoot]
    · simp [removeRoot]
    · simp [removeRoot]
    · cases h

/-- Removing the root of a tree of distinct references. -/
theorem nodup_removeRoot {a : ρ} {l r : BinaryTree ρ} (h : SuccessorNear (.node a l r))
    (hn : (inorder (.node a l r)).Nodup) :
    (inorder (removeRoot (.node a l r))).Nodup ∧ a ∉ inorder (removeRoot (.node a l r)) := by
  rw [inorder_removeRoot h]
  rw [inorder_node, List.nodup_middle, List.nodup_cons] at hn
  exact ⟨hn.2, hn.1⟩

/-- Filtering by a comparison that is zero nowhere keeps everything. -/
theorem filter_ne_zero {c : ρ → Int} {l : List ρ} (h : ∀ b ∈ l, c b ≠ 0) :
    l.filter (c · ≠ 0) = l :=
  List.filter_eq_self.mpr fun b hb => by simpa using h b hb

/-- A deletion with a near successor removes from the in-order list exactly what compares as zero. -/
theorem inorder_deleteBy {c : ρ → Int} {t : BinaryTree ρ} (hm : Monotone c (inorder t))
    (hn : SuccessorNear (subtreeBy c t)) :
    inorder (deleteBy c t) = (inorder t).filter (c · ≠ 0) := by
  obtain ⟨before, after, ht, hrep⟩ := inorder_subtreeBy c t
  rw [deleteBy, hrep]
  cases hs : subtreeBy c t with
  | nil =>
      rw [filter_ne_zero ((locate_eq_none_iff hm).mp (subtreeBy_eq_nil_iff.mp hs)), ht, hs]
      rfl
  | node a l r =>
      have hca : c a = 0 := (locate_mem (locate_eq_of_subtreeBy hs)).2
      rw [hs] at hn ht
      rw [inorder_removeRoot hn, ht]
      rw [ht, inorder_node] at hm
      -- everything before `a` compares as negative, everything after it as positive
      have hsplit : before ++ (inorder l ++ a :: inorder r) ++ after =
          (before ++ inorder l) ++ a :: (inorder r ++ after) := by simp
      rw [Monotone, hsplit, List.pairwise_append, List.pairwise_cons] at hm
      obtain ⟨-, ⟨hafter, -⟩, hbefore⟩ := hm
      have hb : ∀ b ∈ before ++ inorder l, c b ≠ 0 := fun b hb hcb => by
        have := hbefore b hb a (by simp) (by omega)
        omega
      have ha : ∀ b ∈ inorder r ++ after, c b ≠ 0 := fun b hb hcb => by
        have := hafter b hb (by omega)
        omega
      rw [inorder_node, hsplit, List.filter_append, List.filter_cons, filter_ne_zero hb,
        filter_ne_zero ha, if_neg (by simpa using hca)]
      simp

/-- Inserting under a comparison that is zero nowhere on its path adds one reference. -/
theorem perm_inorder_insertBy {c : ρ → Int} {x : ρ} {t : BinaryTree ρ}
    (h : locate (fun a => -c a) t = none) :
    List.Perm (inorder (insertBy c x t)) (x :: inorder t) := by
  induction t with
  | nil => exact List.Perm.refl _
  | node a l r ihl ihr =>
      rw [locate] at h
      rw [insertBy]
      split_ifs at h with h1 h2
      · rw [if_pos (by omega), inorder_node, inorder_node]
        have hr : List.Perm (a :: inorder (insertBy c x r)) (x :: a :: inorder r) :=
          ((ihr h).cons a).trans (List.Perm.swap x a _)
        exact (hr.append_left _).trans List.perm_middle
      · rw [if_neg (by omega), if_pos (by omega), inorder_node, inorder_node]
        exact (ihl h).append_right _

/-- An insertion adds one element. -/
theorem mem_inorder_insertBy {c : ρ → Int} {x : ρ} {t : BinaryTree ρ}
    (h : locate (fun a => -c a) t = none) (b : ρ) :
    b ∈ inorder (insertBy c x t) ↔ b = x ∨ b ∈ inorder t := by
  rw [(perm_inorder_insertBy h).mem_iff, List.mem_cons]

/-- A new reference keeps the references distinct. -/
theorem nodup_insertBy {c : ρ → Int} {x : ρ} {t : BinaryTree ρ}
    (h : locate (fun a => -c a) t = none) (ht : (inorder t).Nodup) (hx : x ∉ inorder t) :
    (inorder (insertBy c x t)).Nodup :=
  (perm_inorder_insertBy h).nodup_iff.mpr (List.nodup_cons.mpr ⟨hx, ht⟩)

/-- Inserting keeps the in-order list sorted under a strict relation the comparison decides. -/
theorem pairwise_insertBy {c : ρ → Int} {x : ρ} {t : BinaryTree ρ} {lt : ρ → ρ → Prop}
    (hlt : ∀ a ∈ inorder t, 0 < c a → lt a x) (hgt : ∀ a ∈ inorder t, c a < 0 → lt x a)
    (ht : (inorder t).Pairwise lt) (h : locate (fun a => -c a) t = none)
    (htrans : ∀ a b d, lt a b → lt b d → lt a d) : (inorder (insertBy c x t)).Pairwise lt := by
  induction t with
  | nil => simp [insertBy]
  | node a l r ihl ihr =>
      rw [inorder_node, List.pairwise_append, List.pairwise_cons] at ht
      obtain ⟨hl, ⟨har, hr⟩, hd⟩ := ht
      have hla : ∀ b ∈ inorder l, lt b a := fun b hb => hd b hb a (by simp)
      rw [locate] at h
      rw [insertBy]
      split_ifs at h with h1 h2
      · have hax : lt a x := hlt a (by simp) (by omega)
        rw [if_pos (by omega), inorder_node, List.pairwise_append, List.pairwise_cons]
        have ih := ihr (fun b hb => hlt b (by simp [hb])) (fun b hb => hgt b (by simp [hb])) hr h
        refine ⟨hl, ⟨fun b hb => ?_, ih⟩, fun b hb d hd' => ?_⟩
        · rcases (mem_inorder_insertBy h b).mp hb with rfl | hb
          · exact hax
          · exact har b hb
        · rw [List.mem_cons, mem_inorder_insertBy h] at hd'
          rcases hd' with rfl | rfl | hd'
          · exact hla b hb
          · exact htrans b a _ (hla b hb) hax
          · exact hd b hb d (by simp [hd'])
      · have hxa : lt x a := hgt a (by simp) (by omega)
        rw [if_neg (by omega), if_pos (by omega), inorder_node, List.pairwise_append,
          List.pairwise_cons]
        have ih := ihl (fun b hb => hlt b (by simp [hb])) (fun b hb => hgt b (by simp [hb])) hl h
        refine ⟨ih, ⟨har, hr⟩, fun b hb d hd' => ?_⟩
        rcases (mem_inorder_insertBy h b).mp hb with rfl | hb
        · rcases List.mem_cons.mp hd' with rfl | hd'
          · exact hxa
          · exact htrans _ a d hxa (har d hd')
        · exact hd b hb d hd'

/-! ## Linked representations -/

/-- `p` represents the tree: it points to the root, and the root carries, as recorded by `ok`, the
pointers that represent its subtrees and the numbers of their nodes. -/
def Linked (ok : ρ → Option ρ → Option ρ → Nat → Nat → Prop) :
    Option ρ → BinaryTree ρ → Prop
  | p, .nil => p = none
  | p, .node a l r =>
      p = some a ∧ ∃ pl pr, ok a pl pr l.numNodes r.numNodes ∧ Linked ok pl l ∧ Linked ok pr r

variable {ok ok' : ρ → Option ρ → Option ρ → Nat → Nat → Prop}

/-- Only the null pointer represents the empty tree, and it represents nothing else. -/
theorem linked_none_iff {t : BinaryTree ρ} : Linked ok none t ↔ t = .nil := by
  cases t with
  | nil => simp [Linked]
  | node a l r => simp [Linked]

/-- The tree a non-null pointer represents has the node pointed to as its root. -/
theorem linked_some {a : ρ} {t : BinaryTree ρ} (h : Linked ok (some a) t) :
    ∃ l r pl pr, t = .node a l r ∧ ok a pl pr l.numNodes r.numNodes ∧ Linked ok pl l ∧
      Linked ok pr r := by
  cases t with
  | nil => cases h
  | node b l r =>
      obtain ⟨hb, pl, pr, hok, hl, hr⟩ := h
      cases hb
      exact ⟨l, r, pl, pr, rfl, hok, hl, hr⟩

/-- A representation depends only on what is recorded at the nodes of the tree. -/
theorem Linked.congr {p : Option ρ} {t : BinaryTree ρ} (h : Linked ok p t)
    (hok : ∀ a ∈ inorder t, ∀ pl pr m n, ok a pl pr m n → ok' a pl pr m n) : Linked ok' p t := by
  induction t generalizing p with
  | nil => exact h
  | node a l r ihl ihr =>
      obtain ⟨hp, pl, pr, ha, hl, hr⟩ := h
      exact ⟨hp, pl, pr, hok a (by simp) _ _ _ _ ha,
        ihl hl fun b hb => hok b (by simp [hb]), ihr hr fun b hb => hok b (by simp [hb])⟩

/-- A pointer represents at most one tree when every node has one pair of child pointers. -/
theorem Linked.unique (hfun : ∀ a pl pr m n pl' pr' m' n', ok a pl pr m n →
      ok a pl' pr' m' n' → pl = pl' ∧ pr = pr') {p : Option ρ} {t t' : BinaryTree ρ}
    (h : Linked ok p t) (h' : Linked ok p t') : t = t' := by
  induction t generalizing p t' with
  | nil =>
      cases h
      exact (linked_none_iff.mp h').symm
  | node a l r ihl ihr =>
      obtain ⟨rfl, pl, pr, ha, hl, hr⟩ := h
      obtain ⟨l', r', pl', pr', rfl, ha', hl', hr'⟩ := linked_some h'
      obtain ⟨rfl, rfl⟩ := hfun a _ _ _ _ _ _ _ _ ha ha'
      rw [ihl hl hl', ihr hr hr']

/-- One step down the left link leads to a smaller tree. -/
theorem Linked.descend_left (hfun : ∀ a pl pr m n pl' pr' m' n', ok a pl pr m n →
      ok a pl' pr' m' n' → pl = pl' ∧ pr = pr') {a : ρ} {pl pr : Option ρ} {m n : Nat}
    {t : BinaryTree ρ} (h : Linked ok (some a) t) (ha : ok a pl pr m n) :
    ∃ l, Linked ok pl l ∧ l.numNodes < t.numNodes := by
  obtain ⟨l, r, pl', pr', rfl, ha', hl, hr⟩ := linked_some h
  obtain ⟨rfl, -⟩ := hfun a _ _ _ _ _ _ _ _ ha ha'
  exact ⟨l, hl, by simp only [BinaryTree.numNodes]; omega⟩

/-- One step down the right link leads to a smaller tree. -/
theorem Linked.descend_right (hfun : ∀ a pl pr m n pl' pr' m' n', ok a pl pr m n →
      ok a pl' pr' m' n' → pl = pl' ∧ pr = pr') {a : ρ} {pl pr : Option ρ} {m n : Nat}
    {t : BinaryTree ρ} (h : Linked ok (some a) t) (ha : ok a pl pr m n) :
    ∃ r, Linked ok pr r ∧ r.numNodes < t.numNodes := by
  obtain ⟨l, r, pl', pr', rfl, ha', hl, hr⟩ := linked_some h
  obtain ⟨-, rfl⟩ := hfun a _ _ _ _ _ _ _ _ ha ha'
  exact ⟨r, hr, by simp only [BinaryTree.numNodes]; omega⟩

/-! ## The left spine -/

/-- The last reference of the path that starts at `a` and follows the left links of its left
subtree. -/
def leftmost (a : ρ) : BinaryTree ρ → ρ
  | .nil => a
  | .node b l _ => leftmost b l

/-- The leftmost element is one of the tree. -/
theorem leftmost_mem (a : ρ) (l : BinaryTree ρ) : leftmost a l = a ∨ leftmost a l ∈ inorder l := by
  induction l generalizing a with
  | nil => exact .inl rfl
  | node b l r ihl _ =>
      refine .inr ?_
      rw [leftmost, inorder_node, List.mem_append, List.mem_cons]
      rcases ihl b with h | h
      · exact .inr (.inl h)
      · exact .inl h

/-- The end of the left spine has no left child, and comes first in order. -/
theorem Linked.at_leftmost {a : ρ} {l r : BinaryTree ρ}
    (h : Linked ok (some a) (.node a l r)) :
    ∃ pr s rest, ok (leftmost a l) none pr 0 s.numNodes ∧ Linked ok pr s ∧
      inorder (.node a l r) = leftmost a l :: (inorder s ++ rest) := by
  induction l generalizing a r with
  | nil =>
      obtain ⟨-, pl, pr, ha, hl, hr⟩ := h
      obtain rfl := hl
      exact ⟨pr, r, [], ha, hr, by simp [leftmost]⟩
  | node b l lr ihl _ =>
      obtain ⟨-, pl, pr, ha, hl, -⟩ := h
      obtain ⟨rfl, -⟩ := id hl
      obtain ⟨pr', s, rest, hok, hs, hin⟩ := ihl hl
      exact ⟨pr', s, rest ++ a :: inorder r, hok, hs, by
        rw [inorder_node, hin, leftmost, List.cons_append, List.append_assoc]⟩

/-- Whatever tree a memory with the same left links represents at the start of the left spine, a tree
that is no larger is represented at its end. -/
theorem Linked.descend_leftmost {a : ρ} {l r t : BinaryTree ρ}
    (h : Linked ok (some a) (.node a l r)) (hn : (inorder (.node a l r)).Nodup)
    (h' : Linked ok' (some a) t)
    (hleft : ∀ b ∈ inorder (.node a l r), b ≠ leftmost a l → ∀ pl pr m n pl' pr' m' n',
      ok b pl pr m n → ok' b pl' pr' m' n' → pl' = pl) :
    ∃ t', Linked ok' (some (leftmost a l)) t' ∧ t'.numNodes ≤ t.numNodes := by
  induction l generalizing a r t with
  | nil => exact ⟨t, h', Nat.le_refl _⟩
  | node b l lr ihl _ =>
      obtain ⟨-, pl, pr, ha, hl, -⟩ := h
      obtain ⟨l', r', pl', pr', rfl, ha', hl', -⟩ := linked_some h'
      obtain ⟨hnl, -, hal, -, -⟩ := nodup_node hn
      have hne : a ≠ leftmost a (.node b l lr) := by
        rcases leftmost_mem b l with hb | hb
        · exact fun hab => hal (by rw [hab, leftmost, hb]; simp)
        · exact fun hab => hal (by rw [hab, leftmost]; simp [hb])
      obtain rfl := hleft a (by simp) hne _ _ _ _ _ _ _ _ ha ha'
      obtain ⟨rfl, -⟩ : pl' = some b ∧ True := ⟨hl.1, trivial⟩
      obtain ⟨t', ht', hle⟩ := ihl hl hnl hl' fun x hx hxne =>
        hleft x (by rw [inorder_node]; exact List.mem_append_left _ hx) hxne
      exact ⟨t', ht', by simp only [BinaryTree.numNodes]; omega⟩

end SearchTree

end OsLabs
