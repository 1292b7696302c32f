import OsLabs.Fat.TreeSpec

/-! # Going through a tree in preorder

`h_tree_flatten_preorder` finds the place of a right subtree from the size stored in the root of the
left one, `h_tree_iterate_preorder` only follows the pointers. On a tree with exact sizes the one
writes, slot by slot, what the other visits. -/

namespace OsLabs.Fat

open Cmd

variable {α β : Type}

/-- The writes that fill consecutive slots from slot `i` on. -/
def consecutive (i : Int) (ds : List α) : List (Int × α) := ds.mapIdx fun k d => (i + k, d)

/-- The first of the consecutive slots. -/
theorem consecutive_cons (i : Int) (d : α) (ds : List α) :
    consecutive i (d :: ds) = (i, d) :: consecutive (i + 1) ds := by
  have hshift : (fun (k : Nat) (d : α) => (i + (k + 1 : Nat), d)) =
      fun (k : Nat) (d : α) => (i + 1 + k, d) := by
    funext k d
    exact congrArg (·, d) (by omega)
  rw [consecutive, List.mapIdx_cons, hshift]
  exact congrArg (fun j : Int => (j, d) :: consecutive (i + 1) ds) (by omega)

/-- Consecutive slots for two lists, the second one counting on. -/
theorem consecutive_append (i : Int) (ds es : List α) :
    consecutive i (ds ++ es) = consecutive i ds ++ consecutive (i + ds.length) es := by
  have hshift : (fun (k : Nat) (d : α) => (i + (k + ds.length : Nat), d)) =
      fun (k : Nat) (d : α) => (i + ds.length + k, d) := by
    funext k d
    exact congrArg (·, d) (by omega)
  rw [consecutive, List.mapIdx_append, hshift]
  rfl

section Preorder

variable {nodes : Heap (HNode α)} {p : Ptr} {t : BinaryTree Nat} {f : DataModifyFn α β}

/-- Modifying data leaves the nodes alone. -/
theorem modifyData_nodes {d : α} {m m' : HMem α β} (h : modifyData f d m = .ok ⟨⟩ m') :
    m'.nodes = m.nodes := by
  unfold modifyData at h
  rw [get_bind] at h
  cases hf : f d m.store with
  | ok store =>
      rw [hf] at h
      cases h
      rfl
  | error e =>
      rw [hf] at h
      cases h

/-- Changing the data of nodes changes no node. -/
theorem forM_modifyData_nodes {ds : List α} {m m' : HMem α β}
    (h : forM ds (modifyData f) m = .ok ⟨⟩ m') : m'.nodes = m.nodes := by
  induction ds generalizing m with
  | nil =>
      cases h
      rfl
  | cons d ds ih =>
      obtain ⟨⟨⟩, m₁, hd, hds⟩ := bind_eq_ok.mp h
      exact (ih hds).trans (modifyData_nodes hd)

/-- Sequences whose first commands run alike, and whose second commands run alike after them. -/
theorem bind_congr_run {γ δ : Type} {x x' : HM α β γ} {g g' : γ → HM α β δ} {m : HMem α β}
    (hx : x m = x' m) (hg : ∀ a m', x' m = .ok a m' → g a m' = g' a m') :
    (x >>= g) m = (x' >>= g') m := by
  cases hrun : x' m with
  | ok a m' => rw [bind_ok hrun, bind_ok (hx.trans hrun), hg a m' hrun]
  | error e m' => rw [bind_error hrun, bind_error (hx.trans hrun)]

/-- The data of a represented tree in preorder: as many as the tree has nodes, written to consecutive
slots by the one function and visited by the other. -/
theorem preorder_run (h : Represents nodes p t) : ∃ ds : List α, ds.length = t.numNodes ∧
    ∀ (fuel : Nat), t.height < fuel →
      (∀ (i : Int) (m : HMem α β), m.nodes = nodes →
        hTreeFlattenPreorder fuel p i m = .ok (consecutive i ds) m) ∧
      ∀ (f : DataModifyFn α β) (m : HMem α β), m.nodes = nodes →
        hTreeIteratePreorder f fuel p m = forM ds (modifyData f) m := by
  induction t generalizing p with
  | nil =>
      obtain rfl := h.linked
      refine ⟨[], rfl, fun fuel hfuel => ?_⟩
      obtain ⟨fuel, rfl⟩ := Nat.exists_eq_succ_of_ne_zero (Nat.ne_of_gt hfuel)
      exact ⟨fun i m _ => rfl, fun f m _ => rfl⟩
  | node a l r ihl ihr =>
      obtain ⟨rfl, node, hc, -, hl, hr⟩ := represents_node h
      obtain ⟨dl, hdl, hrunl⟩ := ihl hl
      obtain ⟨dr, hdr, hrunr⟩ := ihr hr
      refine ⟨node.data :: (dl ++ dr), ?_, fun fuel hfuel => ?_⟩
      · rw [List.length_cons, List.length_append, hdl, hdr]
        exact rfl
      obtain ⟨fuel, rfl⟩ := Nat.exists_eq_succ_of_ne_zero (Nat.ne_of_gt (Nat.zero_lt_of_lt hfuel))
      have hlt : max l.height r.height < fuel := Nat.lt_of_succ_lt_succ hfuel
      obtain ⟨hflatl, hiterl⟩ := hrunl fuel (by omega)
      obtain ⟨hflatr, hiterr⟩ := hrunr fuel (by omega)
      refine ⟨fun i m hm => ?_, fun f m hm => ?_⟩
      · -- the right subtree starts behind as many slots as the left one has nodes
        subst hm
        rw [hTreeFlattenPreorder, bind_ok (deref_run hc), bind_ok (hflatl _ m rfl),
          bind_ok (hTreeSize_run hl), bind_ok (hflatr _ m rfl), consecutive_cons, consecutive_append,
          hdl]
        rfl
      · have hderef : deref a m = .ok node m := deref_run (by rw [hm]; exact hc)
        rw [hTreeIteratePreorder, bind_ok hderef, List.forM_cons]
        refine bind_congr_run rfl fun _ m₁ h₁ => ?_
        have hm₁ : m₁.nodes = nodes := (modifyData_nodes h₁).trans hm
        rw [List.forM_append]
        refine bind_congr_run (hiterl f m₁ hm₁) fun _ m₂ h₂ => ?_
        exact hiterr f m₂ ((forM_modifyData_nodes h₂).trans hm₁)

/-- **Flattening agrees with iterating.** On a tree with exact sizes `h_tree_flatten_preorder` writes
as many consecutive slots as `h_tree_size` says, each one once, and what it writes is the data in the
order in which `h_tree_iterate_preorder` visits them. -/
theorem hTreeFlattenPreorder_iterates (m : HMem α β) (h : Represents m.nodes p t) (i : Int) :
    ∃ ds : List α, hTreeSize p m = .ok (ds.length : Int) m ∧
      hTreeFlattenPreorder (m.nodes.next + 1) p i m = .ok (consecutive i ds) m ∧
      ∀ f : DataModifyFn α β,
        hTreeIteratePreorder f (m.nodes.next + 1) p m = forM ds (modifyData f) m := by
  obtain ⟨ds, hlen, hrun⟩ := preorder_run (β := β) h
  obtain ⟨hflat, hiter⟩ := hrun (m.nodes.next + 1) h.height_lt
  refine ⟨ds, ?_, hflat i m rfl, fun f => hiter f m rfl⟩
  rw [hTreeSize_run h, hlen]

/-- A root with two children. -/
def threeNodes : Heap (HNode Nat) :=
  ((Heap.empty.alloc ⟨7, some 2, some 1, none, none, none, 3⟩).alloc
    ⟨5, none, none, none, none, none, 1⟩).alloc ⟨9, none, none, none, none, none, 1⟩

/-- The small tree: a root and two leaves. -/
theorem represents_threeNodes :
    Represents threeNodes (some 0) (.node 0 (.node 1 .nil .nil) (.node 2 .nil .nil)) := by
  have hleaf (a : Nat) (node : HNode Nat) (hc : threeNodes.cell a = some node)
      (hnode : node.left = none ∧ node.right = none ∧ node.size = 1) :
      Represents threeNodes (some a) (.node a .nil .nil) := by
    obtain ⟨hl, hr, hs⟩ := hnode
    refine represents_node_of hc hs ?_ ?_ (List.nodup_singleton a)
    · rw [hl]
      exact represents_nil _
    · rw [hr]
      exact represents_nil _
  have hroot : threeNodes.cell 0 = some ⟨7, some 2, some 1, none, none, none, 3⟩ := rfl
  refine represents_node_of hroot rfl (hleaf 1 _ rfl ⟨rfl, rfl, rfl⟩) (hleaf 2 _ rfl ⟨rfl, rfl, rfl⟩) ?_
  show [1, 0, 2].Nodup
  decide

/-- The iteration over the small tree visits what its flattening returns. -/
theorem hTreeFlattenPreorder_iterates_threeNodes : ∃ ds : List Nat,
    hTreeSize (some 0) ⟨threeNodes, (), 0⟩ = .ok (ds.length : Int) ⟨threeNodes, (), 0⟩ ∧
      hTreeFlattenPreorder 4 (some 0) 0 ⟨threeNodes, (), 0⟩ =
        .ok (consecutive 0 ds) ⟨threeNodes, (), 0⟩ ∧
      ∀ f : DataModifyFn Nat Unit, hTreeIteratePreorder f 4 (some 0) ⟨threeNodes, (), 0⟩ =
        forM ds (modifyData f) ⟨threeNodes, (), 0⟩ :=
  hTreeFlattenPreorder_iterates ⟨threeNodes, (), 0⟩ represents_threeNodes 0

end Preorder

end OsLabs.Fat
