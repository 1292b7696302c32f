import OsLabs.Fat.TreeSpec

/-! # Removing a node of the hierarchy tree

What `delete_root` does to the subtree it is called on, once `remove_child_from_h` has unlinked its
root from the hierarchy. It depends on where the in-order successor of the root stands:

* `deleteRoot_single`, `deleteRoot_child`: at most one subtree, or a right child without left child;
* `deleteRoot_near`: the successor is the left child of the right child;
* `deleteRoot_far`: the successor is further down. Its right subtree is then stored in its own left
  link, and the nodes between it and the right child of the removed root form a cycle. -/

namespace OsLabs.Fat

open SearchTree

variable {α β κ : Type}

/-! ## Leaving the hierarchy -/

/-- The fields of a node that `remove_child_from_h` does not assign. -/
def HNode.links (node : HNode α) : α × Ptr × Ptr × Int × Ptr :=
  (node.data, node.left, node.right, node.size, node.hParent)

/-- Only sibling and children links differ. -/
structure SiblingFrame (m m' : HMem α β) : Prop where
  store : m'.store = m.store
  next : m'.nodes.next = m.nodes.next
  links : ∀ a, (m'.nodes.cell a).map HNode.links = (m.nodes.cell a).map HNode.links

instance : Std.Refl (@SiblingFrame α β) := ⟨fun _ => ⟨rfl, rfl, fun _ => rfl⟩⟩

instance : IsTrans (HMem α β) SiblingFrame :=
  ⟨fun _ _ _ h h' => ⟨h'.store.trans h.store, h'.next.trans h.next,
    fun a => (h'.links a).trans (h.links a)⟩⟩

/-- A node that is live before is live after, with the same links. -/
theorem SiblingFrame.live {m m' : HMem α β} (h : SiblingFrame m m') {a : Nat} {node : HNode α}
    (hc : m.nodes.cell a = some node) :
    ∃ node', m'.nodes.cell a = some node' ∧ node'.links = node.links := by
  have := h.links a
  rw [hc] at this
  cases hc' : m'.nodes.cell a with
  | none =>
      rw [hc'] at this
      cases this
  | some node' =>
      rw [hc'] at this
      exact ⟨node', rfl, Option.some.inj this⟩

/-- The binary tree does not look at the sibling links. -/
theorem SiblingFrame.represents {m m' : HMem α β} (h : SiblingFrame m m') {p : Ptr}
    {t : BinaryTree Nat} (hr : Represents m.nodes p t) : Represents m'.nodes p t :=
  hr.congr fun a _ node hc => by
    obtain ⟨node', hc', hlinks⟩ := h.live hc
    simp only [HNode.links, Prod.mk.injEq] at hlinks
    exact ⟨node', hc', hlinks.2.1, hlinks.2.2.1, hlinks.2.2.2.1⟩

/-- A change of nodes that the frame allows stays within it. -/
theorem within_setNode {R : HMem α β → HMem α β → Prop} [Std.Refl R] [IsTrans _ R] {r : Nat}
    {f : HNode α → HNode α} (h : ∀ m, R m { m with nodes := m.nodes.modify r f }) :
    Cmd.Within R (setNode r f : HM α β PUnit) :=
  (within_deref R r).bind fun _ => Cmd.within_modify h

/-- A change of sibling links only. -/
theorem siblingFrame_modify (m : HMem α β) (r : Nat) {f : HNode α → HNode α}
    (hf : ∀ node, (f node).links = node.links) :
    SiblingFrame m { m with nodes := m.nodes.modify r f } := by
  refine ⟨rfl, rfl, fun a => ?_⟩
  show ((m.nodes.modify r f).cell a).map HNode.links = _
  rw [Heap.cell_modify]
  split
  · cases m.nodes.cell a with
    | none => rfl
    | some node => exact congrArg some (hf node)
  · rfl

/-- Unlinking a sibling changes sibling links only. -/
theorem within_unlinkSibling (hChild : Nat) (next : Ptr) (fuel iter : Nat) :
    Cmd.Within SiblingFrame (unlinkSibling hChild next fuel iter : HM α β PUnit) := by
  have hset (r : Nat) : Cmd.Within SiblingFrame
      (setNode r fun node => { node with hNextSibling := next } : HM α β PUnit) :=
    within_setNode fun m => siblingFrame_modify m r fun _ => rfl
  induction fuel generalizing iter with
  | zero => exact Cmd.within_throw _
  | succ fuel ih =>
      refine (within_deref _ iter).bind fun node => ?_
      cases node.hNextSibling with
      | none => exact hset iter
      | some sibling => exact Cmd.within_ite (fun _ => hset iter) fun _ => ih sibling

/-- `remove_child_from_h` touches sibling and children links only. -/
theorem within_removeChildFromH (hChild : Nat) :
    Cmd.Within SiblingFrame (removeChildFromH hChild : HM α β PUnit) := by
  refine (within_deref _ hChild).bind fun child => ?_
  cases child.hParent with
  | none => exact Cmd.within_pure _
  | some p =>
      refine (within_deref _ p).bind fun parent => ?_
      cases parent.hChildren with
      | none => exact Cmd.within_modify fun m => ⟨rfl, rfl, fun _ => rfl⟩
      | some iter =>
          refine Cmd.within_ite (fun _ => ?_) fun _ => ?_
          · exact within_setNode fun m => siblingFrame_modify m p fun _ => rfl
          · exact Cmd.within_get_bind fun m => within_unlinkSibling hChild _ _ iter m

/-! ## Removing a root -/

/-- A `delete_root` of a node without left child returns its right subtree. -/
theorem deleteRoot_noLeft {m : HMem α β} {a : Nat} {node : HNode α} {store : β} {fuel : Nat}
    {dataDestroy : DataModifyFn α β} (hc : m.nodes.cell a = some node) (hl : node.left = none)
    (hd : dataDestroy node.data m.store = .ok store) :
    deleteRoot dataDestroy (fuel + 1) a m =
      .ok node.right { m with nodes := m.nodes.free a, store := store } := by
  rw [deleteRoot, Cmd.bind_ok (deref_run hc), Cmd.bind_ok (modifyData_run hd), hl]
  exact Cmd.bind_ok (freeNode_run (m := { m with store := store }) hc)

/-- A `delete_root` of a node without right child returns its left subtree. -/
theorem deleteRoot_noRight {m : HMem α β} {a left : Nat} {node : HNode α} {store : β} {fuel : Nat}
    {dataDestroy : DataModifyFn α β} (hc : m.nodes.cell a = some node)
    (hl : node.left = some left) (hr : node.right = none)
    (hd : dataDestroy node.data m.store = .ok store) :
    deleteRoot dataDestroy (fuel + 1) a m =
      .ok (some left) { m with nodes := m.nodes.free a, store := store } := by
  rw [deleteRoot, Cmd.bind_ok (deref_run hc), Cmd.bind_ok (modifyData_run hd), hl, hr]
  exact Cmd.bind_ok (freeNode_run (m := { m with store := store }) hc)

/-- A `delete_root` whose `data_destroy` faults. -/
theorem deleteRoot_error {m : HMem α β} {a : Nat} {node : HNode α} {e : Fault}
    {dataDestroy : DataModifyFn α β} (fuel : Nat) (hc : m.nodes.cell a = some node)
    (hd : dataDestroy node.data m.store = .error e) :
    deleteRoot dataDestroy (fuel + 1) a m = .error e m := by
  rw [deleteRoot, Cmd.bind_ok (deref_run hc), Cmd.bind_error (modifyData_error hd)]

/-- Freeing a node keeps the trees it is not part of. -/
theorem Represents.free {nodes : Heap (HNode α)} {p : Ptr} {t : BinaryTree Nat}
    (h : Represents nodes p t) {a : Nat} (ha : a ∉ inorder t) : Represents (nodes.free a) p t :=
  h.congr fun b hb node hc =>
    ⟨node, by rw [Heap.cell_free_ne (ne_of_mem_of_not_mem hb ha), hc], rfl, rfl, rfl⟩

/-- What a removal of the root of a subtree leaves behind: the rest of the subtree, under the pointer
returned, and every other node with its data and hierarchical parent. -/
structure RootRemoved (m m' : HMem α β) (q : Ptr) (a : Nat) (s : BinaryTree Nat) (store : β) :
    Prop where
  represents : Represents m'.nodes q s
  next : m'.nodes.next = m.nodes.next
  store : m'.store = store
  freed : m'.nodes.cell a = none
  hier : ∀ b, b ≠ a → (m'.nodes.cell b).map HNode.hier = (m.nodes.cell b).map HNode.hier
  same : ∀ b, b ≠ a → b ∉ inorder s → m'.nodes.cell b = m.nodes.cell b

/-- Freeing a root whose only subtree is `s`. -/
theorem rootRemoved_free {m : HMem α β} {q : Ptr} {a : Nat} {s : BinaryTree Nat} (store : β)
    (h : Represents m.nodes q s) (ha : a ∉ inorder s) :
    RootRemoved m { m with nodes := m.nodes.free a, store := store } q a s store where
  represents := h.free ha
  next := rfl
  store := rfl
  freed := Heap.cell_free_self _ _
  hier b hb := by rw [Heap.cell_free_ne hb]
  same b hb _ := Heap.cell_free_ne hb

/-- The root has at most one subtree. -/
theorem deleteRoot_single {m : HMem α β} {a : Nat} {l r : BinaryTree Nat} {node : HNode α}
    {store : β} {dataDestroy : DataModifyFn α β} (fuel : Nat)
    (h : Represents m.nodes (some a) (.node a l r)) (hc : m.nodes.cell a = some node)
    (hd : dataDestroy node.data m.store = .ok store) (hlr : l = .nil ∨ r = .nil) :
    ∃ q m', deleteRoot dataDestroy (fuel + 1) a m = .ok q m' ∧
      RootRemoved m m' q a (removeRoot (.node a l r)) store := by
  obtain ⟨-, node', hc', -, hl, hr⟩ := represents_node h
  obtain rfl : node = node' := Option.some.inj (hc.symm.trans hc')
  obtain ⟨-, -, hal, har, -⟩ := nodup_node h.nodup
  cases l with
  | nil => exact ⟨_, _, deleteRoot_noLeft hc hl.linked hd, rootRemoved_free store hr har⟩
  | node b ll lr =>
      obtain rfl := hlr.resolve_left (by simp)
      obtain ⟨hleft, -⟩ := represents_node hl
      rw [hleft] at hl
      exact ⟨_, _, deleteRoot_noRight hc hleft hr.linked hd, rootRemoved_free store hl hal⟩

/-- The right child of the root has no left child. -/
theorem deleteRoot_child {m : HMem α β} {a b mr : Nat} {ll lr rr : BinaryTree Nat} {node : HNode α}
    {store : β} {dataDestroy : DataModifyFn α β} (fuel : Nat)
    (h : Represents m.nodes (some a) (.node a (.node b ll lr) (.node mr .nil rr)))
    (hc : m.nodes.cell a = some node) (hd : dataDestroy node.data m.store = .ok store) :
    ∃ q m', deleteRoot dataDestroy (fuel + 1) a m = .ok q m' ∧
      RootRemoved m m' q a (.node mr (.node b ll lr) rr) store := by
  obtain ⟨-, node', hc', -, hl, hr⟩ := represents_node h
  obtain rfl : node = node' := Option.some.inj (hc.symm.trans hc')
  obtain ⟨-, -, -, har, -⟩ := nodup_node h.nodup
  obtain ⟨hleft, -⟩ := represents_node hl
  obtain ⟨hright, parent, hcp, -, hpl, hpr⟩ := represents_node hr
  obtain ⟨hnodup, ha⟩ := nodup_removeRoot (a := a) (l := .node b ll lr) (r := .node mr .nil rr)
    trivial h.nodup
  rw [hleft] at hl
  obtain ⟨nodes, hrun, hrep, hframe⟩ := relink_run (m := { m with store := store })
    (fun n => { n with left := some b }) hcp (fun _ => rfl) hl hpr hnodup
  have hne : a ≠ mr := fun hamr => har (by simp [hamr])
  have hca : nodes.cell a = some node := by rw [hframe.same a hne, hc]
  refine ⟨some mr, { m with nodes := nodes.free a, store := store }, ?_, ?_⟩
  · rw [deleteRoot, Cmd.bind_ok (deref_run hc), Cmd.bind_ok (modifyData_run hd), hleft, hright]
    refine (Cmd.bind_ok (deref_run (m := { m with store := store }) hcp)).trans ?_
    rw [hpl.linked]
    exact (hrun _).trans (Cmd.bind_ok (freeNode_run (m := ⟨nodes, store, m.errno⟩) hca))
  · exact ⟨hrep.free ha, hframe.next, rfl, Heap.cell_free_self _ _,
      fun x hx => by rw [Heap.cell_free_ne hx, hframe.hier],
      fun x hx hxs => by
        rw [Heap.cell_free_ne hx, hframe.same x fun hxm => hxs (by simp [hxm])]⟩

/-! ## The successor walk -/

/-- What the node at an address records about its children, sizes aside. -/
def nodePointers (nodes : Heap (HNode α)) (a : Nat) (pl pr : Ptr) (_ _ : Nat) : Prop :=
  ∃ node, nodes.cell a = some node ∧ node.left = pl ∧ node.right = pr

/-- The pointers of a node are determined by the heap. -/
theorem nodePointers_fun (nodes : Heap (HNode α)) (a : Nat) (pl pr : Ptr) (m n : Nat) (pl' pr' : Ptr)
    (m' n' : Nat) (h : nodePointers nodes a pl pr m n) (h' : nodePointers nodes a pl' pr' m' n') :
    pl = pl' ∧ pr = pr' := by
  obtain ⟨node, hc, rfl, rfl⟩ := h
  obtain ⟨node', hc', rfl, rfl⟩ := h'
  rw [hc] at hc'
  cases hc'
  exact ⟨rfl, rfl⟩

/-- The links of a tree without their sizes. -/
theorem linked_pointers {nodes : Heap (HNode α)} {p : Ptr} {t : BinaryTree Nat}
    (h : Linked (nodeLinks nodes) p t) : Linked (nodePointers nodes) p t :=
  h.congr fun _ _ _ _ _ _ ⟨node, hc, hl, hr, _⟩ => ⟨node, hc, hl, hr⟩

/-- The fields of a node other than its size. -/
def HNode.pointers (node : HNode α) : (α × Ptr × Ptr × Ptr) × Ptr × Ptr :=
  (node.hier, node.left, node.right)

/-- Only sizes differ, and only in `S`. -/
structure SizesFrame (S : Nat → Prop) (nodes nodes' : Heap (HNode α)) : Prop where
  next : nodes'.next = nodes.next
  pointers : ∀ a, (nodes'.cell a).map HNode.pointers = (nodes.cell a).map HNode.pointers
  same : ∀ a, ¬ S a → nodes'.cell a = nodes.cell a

/-- A node that is live before is live after, with the same pointers. -/
theorem SizesFrame.live {S : Nat → Prop} {nodes nodes' : Heap (HNode α)}
    (h : SizesFrame S nodes nodes') {a : Nat} {node : HNode α} (hc : nodes.cell a = some node) :
    ∃ node', nodes'.cell a = some node' ∧ node'.pointers = node.pointers := by
  have := h.pointers a
  rw [hc] at this
  cases hc' : nodes'.cell a with
  | none =>
      rw [hc'] at this
      cases this
  | some node' =>
      rw [hc'] at this
      exact ⟨node', rfl, Option.some.inj this⟩

/-- Sizes changed in two sets of nodes are changed in their union. -/
theorem SizesFrame.trans {S S' : Nat → Prop} {n₁ n₂ n₃ : Heap (HNode α)} (h : SizesFrame S n₁ n₂)
    (h' : SizesFrame S' n₂ n₃) : SizesFrame (fun a => S a ∨ S' a) n₁ n₃ :=
  ⟨h'.next.trans h.next, fun a => (h'.pointers a).trans (h.pointers a), fun a ha => by
    rw [h'.same a fun hs => ha (.inr hs), h.same a fun hs => ha (.inl hs)]⟩

/-- A frame that allows more sizes allows these. -/
theorem SizesFrame.mono {S S' : Nat → Prop} {n₁ n₂ : Heap (HNode α)} (h : SizesFrame S n₁ n₂)
    (hS : ∀ a, S a → S' a) : SizesFrame S' n₁ n₂ :=
  ⟨h.next, h.pointers, fun a ha => h.same a fun h' => ha (hS a h')⟩

/-- A change of one size only. -/
theorem sizesFrame_modify (nodes : Heap (HNode α)) (r : Nat) {f : HNode α → HNode α}
    (hf : ∀ node, (f node).pointers = node.pointers) :
    SizesFrame (· = r) nodes (nodes.modify r f) := by
  refine ⟨rfl, fun a => ?_, fun a ha => Heap.cell_modify_ne ha f⟩
  rw [Heap.cell_modify]
  split
  · cases nodes.cell a with
    | none => rfl
    | some node => exact congrArg some (hf node)
  · rfl

/-- The links of a tree do not look at the sizes. -/
theorem SizesFrame.linked {S : Nat → Prop} {nodes nodes' : Heap (HNode α)}
    (h : SizesFrame S nodes nodes') {p : Ptr} {t : BinaryTree Nat}
    (hp : Linked (nodePointers nodes) p t) : Linked (nodePointers nodes') p t :=
  hp.congr fun _ _ _ _ _ _ ⟨node, hc, hl, hr⟩ => by
    obtain ⟨node', hc', hptr⟩ := h.live hc
    simp only [HNode.pointers, Prod.mk.injEq] at hptr
    exact ⟨node', hc', hptr.2.1.trans hl, hptr.2.2.trans hr⟩

/-- From its second node on, the walk ends with `minimum_parent` equal to `minimum`. -/
theorem walkToMinimum_run {m : HMem α β} {a : Nat} {l r : BinaryTree Nat} {fuel : Nat}
    (h : Linked (nodePointers m.nodes) (some a) (.node a l r)) (hfuel : l.height < fuel) :
    ∃ nodes, walkToMinimum fuel a a m =
        .ok (leftmost a l, leftmost a l) { m with nodes := nodes } ∧
      SizesFrame (· ∈ inorder l) m.nodes nodes := by
  induction l generalizing m a r fuel with
  | nil =>
      obtain ⟨-, pl, pr, ⟨node, hc, rfl, rfl⟩, hl, -⟩ := h
      obtain ⟨fuel, rfl⟩ := Nat.exists_eq_succ_of_ne_zero (Nat.ne_of_gt hfuel)
      refine ⟨m.nodes, ?_, rfl, fun _ => rfl, fun _ _ => rfl⟩
      rw [walkToMinimum, Cmd.bind_ok (deref_run hc), hl]
      rfl
  | node b l lr ihl _ =>
      obtain ⟨-, pl, pr, ⟨node, hc, rfl, rfl⟩, hl, -⟩ := h
      obtain ⟨fuel, rfl⟩ := Nat.exists_eq_succ_of_ne_zero (Nat.ne_of_gt (Nat.zero_lt_of_lt hfuel))
      have hlt : max l.height lr.height < fuel := Nat.lt_of_succ_lt_succ hfuel
      obtain ⟨hb, pl', pr', ⟨child, hcb, -, -⟩, -, -⟩ := id hl
      have hframe := sizesFrame_modify m.nodes b
        (f := fun node => { node with size := node.size - 1 }) fun _ => rfl
      rw [hb] at hl
      obtain ⟨nodes, hrun, hframe'⟩ := ihl (m := ⟨m.nodes.modify b _, m.store, m.errno⟩)
        (hframe.linked hl) (by omega : _ < fuel)
      refine ⟨nodes, ?_, (hframe.trans hframe').mono fun x hx => ?_⟩
      · rw [walkToMinimum, Cmd.bind_ok (deref_run hc), hb]
        exact (Cmd.bind_ok (setNode_run hcb _)).trans hrun
      · rcases hx with rfl | hx
        · simp
        · simp [hx]

/-! ## Exchanging the root and its successor -/

/-- The value `h_tree_size` reads through a pointer. -/
def SizeAt (nodes : Heap (HNode α)) (p : Ptr) (k : Int) : Prop :=
  match p with
  | none => k = 0
  | some r => ∃ node, nodes.cell r = some node ∧ node.size = k

/-- `h_tree_size` reads the size of the node, or 0. -/
theorem hTreeSize_of_sizeAt {m : HMem α β} {p : Ptr} {k : Int} (h : SizeAt m.nodes p k) :
    hTreeSize p m = .ok k m := by
  cases p with
  | none =>
      obtain rfl := h
      rfl
  | some r =>
      obtain ⟨node, hc, rfl⟩ := h
      rw [hTreeSize, Cmd.bind_ok (deref_run hc)]
      rfl

/-- The size read depends on the node only. -/
theorem SizeAt.congr {nodes nodes' : Heap (HNode α)} {p : Ptr} {k : Int} (h : SizeAt nodes p k)
    (heq : ∀ r, p = some r → nodes'.cell r = nodes.cell r) : SizeAt nodes' p k := by
  cases p with
  | none => exact h
  | some r =>
      obtain ⟨node, hc, hs⟩ := h
      exact ⟨node, by rw [heq r rfl, hc], hs⟩

/-- In a represented tree the size read is the number of nodes. -/
theorem Represents.sizeAt {nodes : Heap (HNode α)} {p : Ptr} {t : BinaryTree Nat}
    (h : Represents nodes p t) : SizeAt nodes p t.numNodes := by
  cases t with
  | nil =>
      obtain rfl := h.linked
      rfl
  | node a l r =>
      obtain ⟨rfl, node, hc, hs, -, -⟩ := represents_node h
      refine ⟨node, hc, ?_⟩
      simp only [BinaryTree.numNodes]
      omega

/-- A live node, or no node, has a size. -/
theorem exists_sizeAt {nodes : Heap (HNode α)} {p : Ptr} {t : BinaryTree Nat}
    (h : Linked (nodePointers nodes) p t) : ∃ k, SizeAt nodes p k := by
  cases t with
  | nil =>
      obtain rfl := h
      exact ⟨0, rfl⟩
  | node a l r =>
      obtain ⟨rfl, -, -, ⟨node, hc, -⟩, -⟩ := h
      exact ⟨node.size, node, hc, rfl⟩

/-- The pointer to a represented tree points into it. -/
theorem mem_of_linked {ok : Nat → Ptr → Ptr → Nat → Nat → Prop} {a : Nat} {t : BinaryTree Nat}
    (h : Linked ok (some a) t) : a ∈ inorder t := by
  obtain ⟨l, r, -, -, rfl, -⟩ := linked_some h
  simp

/-- Two nodes exchange their links, when neither points to the other. -/
theorem swapNodes_run {m : HMem α β} {old new : Nat} {oldNode newNode : HNode α} {k₁ k₂ k₃ k₄ : Int}
    (hold : m.nodes.cell old = some oldNode) (hnew : m.nodes.cell new = some newNode)
    (hne : old ≠ new) (hl : SizeAt m.nodes oldNode.left k₁) (hr : SizeAt m.nodes oldNode.right k₂)
    (hl' : SizeAt m.nodes newNode.left k₃) (hr' : SizeAt m.nodes newNode.right k₄)
    (hout : ∀ r, oldNode.left = some r ∨ oldNode.right = some r ∨ newNode.left = some r ∨
      newNode.right = some r → r ≠ old ∧ r ≠ new) :
    ∃ nodes, swapNodes old new m = .ok ⟨⟩ { m with nodes := nodes } ∧
      nodes.next = m.nodes.next ∧
      nodes.cell old = some { oldNode with
        left := newNode.left, right := newNode.right, size := 1 + k₃ + k₄ } ∧
      nodes.cell new = some { newNode with
        left := oldNode.left, right := oldNode.right, size := 1 + k₁ + k₂ } ∧
      ∀ a, a ≠ old → a ≠ new → nodes.cell a = m.nodes.cell a := by
  -- The four stores of `swap_nodes`, in the order of the source.
  let f := fun node : HNode α => { node with left := newNode.left, right := newNode.right }
  let g := fun node : HNode α => { node with left := oldNode.left, right := oldNode.right }
  let f' := fun node : HNode α => { node with size := 1 + k₃ + k₄ }
  let g' := fun node : HNode α => { node with size := 1 + k₁ + k₂ }
  let n₂ := (m.nodes.modify old f).modify new g
  let n₃ := n₂.modify new g'
  have hsame₂ : ∀ a, a ≠ old → a ≠ new → n₂.cell a = m.nodes.cell a := fun a ho hn => by
    rw [Heap.cell_modify_ne hn, Heap.cell_modify_ne ho]
  have hsame₃ : ∀ a, a ≠ old → a ≠ new → n₃.cell a = m.nodes.cell a := fun a ho hn => by
    rw [Heap.cell_modify_ne hn, hsame₂ a ho hn]
  have hnew₁ : (m.nodes.modify old f).cell new = some newNode := by
    rw [Heap.cell_modify_ne hne.symm, hnew]
  have hnew₂ : n₂.cell new = some (g newNode) := Heap.cell_modify_self hnew₁ g
  have hold₃ : n₃.cell old = some (f oldNode) := by
    rw [Heap.cell_modify_ne hne, Heap.cell_modify_ne hne, Heap.cell_modify_self hold]
  -- The size of `new` is computed first, from the subtrees it has just taken over.
  have hsize₂ : updateSize new ⟨n₂, m.store, m.errno⟩ = .ok ⟨⟩ ⟨n₃, m.store, m.errno⟩ := by
    unfold updateSize
    rw [Cmd.bind_ok (deref_run hnew₂),
      Cmd.bind_ok (hTreeSize_of_sizeAt (hl.congr fun r h =>
        hsame₂ r (hout r (.inl h)).1 (hout r (.inl h)).2)),
      Cmd.bind_ok (hTreeSize_of_sizeAt (hr.congr fun r h =>
        hsame₂ r (hout r (.inr (.inl h))).1 (hout r (.inr (.inl h))).2)), setNode_run hnew₂]
  have hsize₃ : updateSize old ⟨n₃, m.store, m.errno⟩ =
      .ok ⟨⟩ ⟨n₃.modify old f', m.store, m.errno⟩ := by
    unfold updateSize
    rw [Cmd.bind_ok (deref_run hold₃),
      Cmd.bind_ok (hTreeSize_of_sizeAt (hl'.congr fun r h =>
        hsame₃ r (hout r (.inr (.inr (.inl h)))).1 (hout r (.inr (.inr (.inl h)))).2)),
      Cmd.bind_ok (hTreeSize_of_sizeAt (hr'.congr fun r h =>
        hsame₃ r (hout r (.inr (.inr (.inr h)))).1 (hout r (.inr (.inr (.inr h)))).2)),
      setNode_run hold₃]
  refine ⟨n₃.modify old f', ?_, rfl, Heap.cell_modify_self hold₃ f', ?_, fun a ho hn => ?_⟩
  · unfold swapNodes
    rw [Cmd.bind_ok (deref_run hold), Cmd.bind_ok (deref_run hnew), Cmd.bind_ok (setNode_run hold f)]
    refine (Cmd.bind_ok (setNode_run (m := ⟨m.nodes.modify old f, m.store, m.errno⟩) hnew₁ g)).trans
      ?_
    exact (Cmd.bind_ok hsize₂).trans hsize₃
  · rw [Heap.cell_modify_ne hne.symm, Heap.cell_modify_self hnew₂]
  · rw [Heap.cell_modify_ne ho, hsame₃ a ho hn]

/-! ## Removing a root whose successor is further down -/

/-- A `delete_root` that walks to the successor and exchanges it with the root goes on with a
`delete_root` of the root in its new place. -/
theorem deleteRoot_walk {m : HMem α β} {a b mr f minimum last : Nat} {node parent : HNode α}
    {store : β} {fuel : Nat} {dataDestroy : DataModifyFn α β} {n₂ n₃ : Heap (HNode α)}
    (hc : m.nodes.cell a = some node) (hleft : node.left = some b) (hright : node.right = some mr)
    (hcp : m.nodes.cell mr = some parent) (hfirst : parent.left = some f)
    (hd : dataDestroy node.data m.store = .ok store)
    (hwalk : walkToMinimum (m.nodes.next + 1) f mr
      ⟨m.nodes.modify mr fun n => { n with size := n.size - 1 }, store, m.errno⟩ =
        .ok (minimum, last) ⟨n₂, store, m.errno⟩)
    (hswap : swapNodes a minimum ⟨n₂, store, m.errno⟩ = .ok ⟨⟩ ⟨n₃, store, m.errno⟩) :
    deleteRoot dataDestroy (fuel + 1) a m =
      (do
        let rest ← deleteRoot dataDestroy fuel a
        setNode last fun n => { n with left := rest }
        pure (some minimum)) ⟨n₃, store, m.errno⟩ := by
  rw [deleteRoot, Cmd.bind_ok (deref_run hc), Cmd.bind_ok (modifyData_run hd), hleft, hright]
  refine (Cmd.bind_ok (deref_run (m := { m with store := store }) hcp)).trans ?_
  rw [hfirst]
  refine (Cmd.bind_ok (setNode_run (m := { m with store := store }) hcp _)).trans ?_
  rw [Cmd.get_bind]
  exact (Cmd.bind_ok hwalk).trans (Cmd.bind_ok hswap)

section Walk

variable {m : HMem α β} {a b mr f : Nat} {ll lr fl fr rr : BinaryTree Nat} {node : HNode α}
  {store : β} {dataDestroy : DataModifyFn α β}

/-- The nodes around a root whose right child has a left child. -/
structure WalkNodes (nodes : Heap (HNode α)) (node : HNode α) (a b mr f : Nat)
    (ll lr fl fr rr : BinaryTree Nat) (parent first : HNode α) : Prop where
  left : node.left = some b
  right : node.right = some mr
  repLeft : Represents nodes (some b) (.node b ll lr)
  cellParent : nodes.cell mr = some parent
  parentLeft : parent.left = some f
  parentSize : parent.size = 1 + (.node f fl fr : BinaryTree Nat).numNodes + rr.numNodes
  repParentRight : Represents nodes parent.right rr
  cellFirst : nodes.cell f = some first
  repFirst : Represents nodes (some f) (.node f fl fr)
  repFirstLeft : Represents nodes first.left fl
  repFirstRight : Represents nodes first.right fr
  root_notMem_left : a ∉ inorder (.node b ll lr)
  root_notMem_first : a ∉ inorder (.node f fl fr)
  root_notMem_right : a ∉ inorder rr
  root_ne : a ≠ mr
  parent_notMem_left : mr ∉ inorder (.node b ll lr)
  parent_notMem_first : mr ∉ inorder (.node f fl fr)
  parent_notMem_right : mr ∉ inorder rr
  left_first : ∀ x ∈ inorder (.node b ll lr), x ∉ inorder (.node f fl fr)
  left_right : ∀ x ∈ inorder (.node b ll lr), x ∉ inorder rr
  first_right : ∀ x ∈ inorder (.node f fl fr), x ∉ inorder rr

/-- The walk to the successor finds its nodes in a represented tree. -/
theorem walkNodes_of_represents
    (h : Represents m.nodes (some a) (.node a (.node b ll lr) (.node mr (.node f fl fr) rr)))
    (hc : m.nodes.cell a = some node) :
    ∃ parent first, WalkNodes m.nodes node a b mr f ll lr fl fr rr parent first := by
  obtain ⟨-, node', hc', -, hl, hr⟩ := represents_node h
  obtain rfl : node = node' := Option.some.inj (hc.symm.trans hc')
  obtain ⟨-, hnr, hal, har, hlr⟩ := nodup_node h.nodup
  obtain ⟨hleft, -⟩ := represents_node hl
  obtain ⟨hright, parent, hcp, hps, hpl, hpr⟩ := represents_node hr
  obtain ⟨-, -, hmf, hmr, hfr⟩ := nodup_node hnr
  obtain ⟨hfirst, first, hcf, -, hfl, hfr'⟩ := represents_node hpl
  rw [hleft] at hl
  rw [hfirst] at hpl
  have hmem : ∀ x, x ∈ inorder (.node mr (.node f fl fr) rr) ↔
      x ∈ inorder (.node f fl fr) ∨ x = mr ∨ x ∈ inorder rr := fun x => by
    rw [inorder_node, List.mem_append, List.mem_cons]
  refine ⟨parent, first, hleft, hright, hl, hcp, hfirst, hps, hpr, hcf, hpl, hfl, hfr', hal,
    fun h => har ((hmem a).mpr (.inl h)), fun h => har ((hmem a).mpr (.inr (.inr h))),
    fun h => har ((hmem a).mpr (.inr (.inl h))), fun h => hlr mr h ((hmem mr).mpr (.inr (.inl rfl))),
    hmf, hmr, fun x hx h => hlr x hx ((hmem x).mpr (.inl h)),
    fun x hx h => hlr x hx ((hmem x).mpr (.inr (.inr h))), hfr⟩

/-- Up to the recursive call, when the successor is the left child of the right child. -/
theorem deleteRoot_near_start {parent first : HNode α} (fuel : Nat)
    (hw : WalkNodes m.nodes node a b mr f ll lr .nil fr rr parent first)
    (hc : m.nodes.cell a = some node) (hd : dataDestroy node.data m.store = .ok store) :
    ∃ nodes, deleteRoot dataDestroy (fuel + 1) a m =
        (do
          let rest ← deleteRoot dataDestroy fuel a
          setNode mr fun n => { n with left := rest }
          pure (some f)) ⟨nodes, store, m.errno⟩ ∧
      nodes.next = m.nodes.next ∧
      (∃ k, nodes.cell a = some { node with left := none, right := first.right, size := k }) ∧
      nodes.cell f = some { first with
        left := some b, right := some mr,
        size := 1 + (.node b ll lr : BinaryTree Nat).numNodes + (parent.size - 1) } ∧
      nodes.cell mr = some { parent with size := parent.size - 1 } ∧
      ∀ x, x ≠ a → x ≠ f → x ≠ mr → nodes.cell x = m.nodes.cell x := by
  have haf : a ≠ f := fun h => hw.root_notMem_first (by simp [h])
  have hfm : f ≠ mr := fun h => hw.parent_notMem_first (by simp [h])
  have hbf : b ≠ f := fun h => hw.left_first b (by simp) (by simp [h])
  have hba : b ≠ a := fun h => hw.root_notMem_left (by simp [h])
  have hbm : b ≠ mr := fun h => hw.parent_notMem_left (by simp [h])
  have hnil : first.left = none := hw.repFirstLeft.linked
  let dec := fun n : HNode α => { n with size := n.size - 1 }
  let n₁ := m.nodes.modify mr dec
  have ha₁ : n₁.cell a = some node := by rw [Heap.cell_modify_ne hw.root_ne, hc]
  have hf₁ : n₁.cell f = some first := by rw [Heap.cell_modify_ne hfm, hw.cellFirst]
  have hm₁ : n₁.cell mr = some (dec parent) := Heap.cell_modify_self hw.cellParent dec
  -- The first node is a left child without one of its own, so the walk ends where it starts.
  have hwalk : walkToMinimum (m.nodes.next + 1) f mr ⟨n₁, store, m.errno⟩ =
      .ok (f, mr) ⟨n₁, store, m.errno⟩ := by
    rw [walkToMinimum, Cmd.bind_ok (deref_run hf₁), hnil]
    rfl
  -- Until the swap only the size of `mr` has changed.
  have hframe : LinksFrame (· = mr) m.nodes n₁ := LinksFrame.modify m.nodes mr dec fun _ => rfl
  have hfr₁ : SizeAt n₁ first.right fr.numNodes :=
    (hframe.represents hw.repFirstRight fun x hx h =>
      hw.parent_notMem_first (by simp [← h, hx])).sizeAt
  have hl₁ : SizeAt n₁ node.left (.node b ll lr : BinaryTree Nat).numNodes := by
    rw [hw.left]
    exact (hframe.represents hw.repLeft fun x hx h => hw.parent_notMem_left (h ▸ hx)).sizeAt
  have hr₁ : SizeAt n₁ node.right (parent.size - 1) := by
    rw [hw.right]
    exact ⟨_, hm₁, rfl⟩
  -- The swap puts `first` in the place of the removed node, and that node where `first` was.
  obtain ⟨n₃, hswap, hnext, ha₃, hf₃, hsame⟩ := swapNodes_run (m := ⟨n₁, store, m.errno⟩) ha₁ hf₁
    haf hl₁ hr₁ (show SizeAt n₁ first.left 0 by rw [hnil]; rfl) hfr₁ (by
      -- None of the four subtrees that change hands contains one of the two nodes.
      rintro x (hx | hx | hx | hx)
      · rw [hw.left] at hx
        cases hx
        exact ⟨hba, hbf⟩
      · rw [hw.right] at hx
        cases hx
        exact ⟨hw.root_ne.symm, hfm.symm⟩
      · rw [hnil] at hx
        cases hx
      · have hrep := hw.repFirstRight
        rw [hx] at hrep
        have hmem := mem_of_linked hrep.linked
        refine ⟨fun h => hw.root_notMem_first (by simp [← h, hmem]), fun h => ?_⟩
        have := (nodup_node hw.repFirst.nodup).2.2.2.1
        exact this (h ▸ hmem))
  rw [hnil] at ha₃
  rw [hw.left, hw.right] at hf₃
  refine ⟨n₃, deleteRoot_walk hc hw.left hw.right hw.cellParent hw.parentLeft hd hwalk hswap, hnext,
    ⟨_, ha₃⟩, hf₃, ?_, fun x hxa hxf hxm => ?_⟩
  · rw [hsame mr hw.root_ne.symm hfm.symm]
    exact hm₁
  · rw [hsame x hxa hxf]
    exact Heap.cell_modify_ne hxm dec

/-- The successor is the left child of the right child. -/
theorem deleteRoot_near {store' : β} (fuel : Nat)
    (h : Represents m.nodes (some a) (.node a (.node b ll lr) (.node mr (.node f .nil fr) rr)))
    (hc : m.nodes.cell a = some node) (hd : dataDestroy node.data m.store = .ok store)
    (hd' : dataDestroy node.data store = .ok store') :
    ∃ q m', deleteRoot dataDestroy (fuel + 2) a m = .ok q m' ∧
      RootRemoved m m' q a (.node f (.node b ll lr) (.node mr fr rr)) store' := by
  obtain ⟨parent, first, hw⟩ := walkNodes_of_represents h hc
  obtain ⟨nodes, hrun, hnext, ⟨k, hca⟩, hcf, hcm, hsame⟩ :=
    deleteRoot_near_start (fuel + 1) hw hc hd
  have hnodup : (inorder (.node f (.node b ll lr) (.node mr fr rr))).Nodup :=
    (nodup_removeRoot (a := a) (l := .node b ll lr) (r := .node mr (.node f .nil fr) rr) trivial
      h.nodup).1
  have haf : f ≠ a := fun h => hw.root_notMem_first (by simp [h])
  have hfm : f ≠ mr := fun h => hw.parent_notMem_first (by simp [h])
  -- The recursive call frees `a`, and its parent takes over what was on its right.
  let link := fun n : HNode α => { n with left := first.right }
  let n' := (nodes.free a).modify mr link
  have hcm' : (nodes.free a).cell mr = some { parent with size := parent.size - 1 } := by
    rw [Heap.cell_free_ne hw.root_ne.symm, hcm]
  have hcf' := hcf
  rw [← Heap.cell_free_ne haf, ← Heap.cell_modify_ne hfm link] at hcf'
  have hcm'' := Heap.cell_modify_self hcm' link
  have hsame' : ∀ x, x ≠ a → x ≠ f → x ≠ mr → n'.cell x = m.nodes.cell x := fun x hxa hxf hxm => by
    rw [Heap.cell_modify_ne hxm, Heap.cell_free_ne hxa, hsame x hxa hxf hxm]
  -- The subtrees that none of the three nodes belongs to are represented as before.
  have hkeep : ∀ {p t}, Represents m.nodes p t → a ∉ inorder t → f ∉ inorder t →
      mr ∉ inorder t → Represents n' p t := fun hp ha hf hm =>
    hp.congr fun x hx node hc => ⟨node, by
      rw [hsame' x (ne_of_mem_of_not_mem hx ha) (ne_of_mem_of_not_mem hx hf)
        (ne_of_mem_of_not_mem hx hm), hc], rfl, rfl, rfl⟩
  have hfr := hw.repFirst.nodup
  rw [inorder_node, inorder_nil, List.nil_append, List.nodup_cons] at hfr
  have hright : Represents n' (some mr) (.node mr fr rr) := by
    refine represents_node_of hcm'' ?_ ?_ ?_ ?_
    · show parent.size - 1 = _
      rw [hw.parentSize]
      simp only [BinaryTree.numNodes]
      omega
    · exact hkeep hw.repFirstRight (fun hx => hw.root_notMem_first (by simp [hx])) hfr.1
        fun hx => hw.parent_notMem_first (by simp [hx])
    · exact hkeep hw.repParentRight hw.root_notMem_right (fun hx => hw.first_right f (by simp) hx)
        hw.parent_notMem_right
    · exact (nodup_node hnodup).2.1
  -- What the call leaves behind is the tree with `f` as its root and `mr` without its left child.
  refine ⟨some f, { m with nodes := n', store := store' }, ?_, ?_, hnext, rfl, ?_, ?_, ?_⟩
  · rw [hrun, Cmd.bind_ok (deleteRoot_noLeft (m := ⟨nodes, store, m.errno⟩) hca rfl hd')]
    exact Cmd.bind_ok (setNode_run (m := ⟨nodes.free a, store', m.errno⟩) hcm' link)
  · refine represents_node_of hcf' ?_ ?_ hright hnodup
    · show 1 + _ + (parent.size - 1) = _
      rw [hw.parentSize]
      simp only [BinaryTree.numNodes]
      omega
    · exact hkeep hw.repLeft hw.root_notMem_left (fun hx => hw.left_first f hx (by simp))
        hw.parent_notMem_left
  · show n'.cell a = none
    rw [Heap.cell_modify_ne hw.root_ne, Heap.cell_free_self]
  · intro x hxa
    by_cases hxf : x = f
    · subst hxf
      rw [hcf', hw.cellFirst]
      rfl
    · by_cases hxm : x = mr
      · subst hxm
        rw [hcm'', hw.cellParent]
        rfl
      · rw [hsame' x hxa hxf hxm]
  · intro x hxa hx
    exact hsame' x hxa (fun h => hx (by simp [h])) fun h => hx (by simp [h])

variable {g : Nat} {gl gr : BinaryTree Nat}

/-- Up to the recursive call, when the successor is further down: `minimum_parent` is then the
successor itself. -/
theorem deleteRoot_far_start {parent first : HNode α} (fuel : Nat)
    (hw : WalkNodes m.nodes node a b mr f ll lr (.node g gl gr) fr rr parent first)
    (hc : m.nodes.cell a = some node) (hd : dataDestroy node.data m.store = .ok store)
    (hfuel : gl.height < m.nodes.next) :
    ∃ nodes, deleteRoot dataDestroy (fuel + 1) a m =
        (do
          let rest ← deleteRoot dataDestroy fuel a
          setNode (leftmost g gl) fun n => { n with left := rest }
          pure (some (leftmost g gl))) ⟨nodes, store, m.errno⟩ ∧
      (∃ y k, nodes.cell a = some { node with left := none, right := y, size := k }) ∧
      (∃ successor, nodes.cell (leftmost g gl) = some successor ∧ successor.right = some mr) ∧
      (∀ x, x ≠ a → x ≠ leftmost g gl →
        (nodes.cell x).map HNode.pointers = (m.nodes.cell x).map HNode.pointers) ∧
      ∀ x, x ∉ inorder (.node a (.node b ll lr) (.node mr (.node f (.node g gl gr) fr) rr)) →
        nodes.cell x = m.nodes.cell x := by
  let dec := fun n : HNode α => { n with size := n.size - 1 }
  have hgl : Represents m.nodes (some g) (.node g gl gr) := by
    have hrep := hw.repFirstLeft
    rwa [(represents_node hrep).1] at hrep
  have hfg : first.left = some g := (represents_node hw.repFirstLeft).1
  obtain ⟨hnf, -, hff, -, -⟩ := nodup_node hw.repFirst.nodup
  have hmem : ∀ x, x ∈ inorder (.node g gl gr) → x ∈ inorder (.node f (.node g gl gr) fr) :=
    fun x hx => by rw [inorder_node]; exact List.mem_append_left _ hx
  have hmin : leftmost g gl ∈ inorder (.node g gl gr) := by
    obtain ⟨_, _, _, _, _, hin⟩ := hgl.linked.at_leftmost
    rw [hin]
    exact List.mem_cons_self
  have hma : a ≠ leftmost g gl := fun h => hw.root_notMem_first (h ▸ hmem _ hmin)
  have hmm : mr ≠ leftmost g gl := fun h => hw.parent_notMem_first (h ▸ hmem _ hmin)
  -- the walk
  have hg : g ≠ mr := fun h => hw.parent_notMem_first (h ▸ hmem g (by simp))
  have hfm : f ≠ mr := fun h => hw.parent_notMem_first (by simp [h])
  obtain ⟨gnode, hcg, -⟩ := (represents_node hgl).2
  let n₁ := m.nodes.modify mr dec
  have hf₁ : n₁.cell f = some first := by rw [Heap.cell_modify_ne hfm, hw.cellFirst]
  have hg₁ : n₁.cell g = some gnode := by rw [Heap.cell_modify_ne hg, hcg]
  have hframe₁ := (sizesFrame_modify m.nodes mr (f := dec) fun _ => rfl).trans
    (sizesFrame_modify n₁ g (f := dec) fun _ => rfl)
  obtain ⟨fuel', hfuel'⟩ : ∃ k, m.nodes.next = k + 1 := ⟨m.nodes.next - 1, by omega⟩
  obtain ⟨n₂, hrun₂, hframe₂⟩ := walkToMinimum_run (m := ⟨n₁.modify g dec, store, m.errno⟩)
    (hframe₁.linked (linked_pointers hgl.linked)) hfuel
  have hwalk : walkToMinimum (m.nodes.next + 1) f mr ⟨n₁, store, m.errno⟩ =
      .ok (leftmost g gl, leftmost g gl) ⟨n₂, store, m.errno⟩ := by
    rw [walkToMinimum, Cmd.bind_ok (deref_run hf₁), hfg]
    exact (Cmd.bind_ok (setNode_run (m := ⟨n₁, store, m.errno⟩) hg₁ dec)).trans hrun₂
  have hframe := (hframe₁.trans hframe₂).mono
    (show ∀ x, _ → x = mr ∨ x ∈ inorder (.node g gl gr) by
      rintro x ((rfl | rfl) | hx)
      · exact .inl rfl
      · exact .inr (by simp)
      · exact .inr (by simp [hx]))
  -- the exchange
  obtain ⟨pr, s, rest, ⟨minNode, hcm, hml, hmr⟩, hs, hin⟩ :=
    (linked_pointers hgl.linked).at_leftmost
  obtain ⟨minNode', hcm', hptr⟩ := hframe.live hcm
  simp only [HNode.pointers, Prod.mk.injEq] at hptr
  have ha₂ : n₂.cell a = some node := by
    rw [hframe.same a, hc]
    rintro (h | h)
    · exact hw.root_ne h
    · exact hw.root_notMem_first (hmem a h)
  have hleft : Linked (nodePointers n₂) node.left (.node b ll lr) := by
    rw [hw.left]
    exact hframe.linked (linked_pointers hw.repLeft.linked)
  obtain ⟨parent', hcp', -⟩ := hframe.live hw.cellParent
  obtain ⟨k₁, hk₁⟩ := exists_sizeAt hleft
  obtain ⟨k₄, hk₄⟩ := exists_sizeAt (hframe.linked hs)
  obtain ⟨n₃, hswap, -, ha₃, hm₃, hsame⟩ := swapNodes_run (m := ⟨n₂, store, m.errno⟩) ha₂ hcm' hma
    hk₁ (by rw [hw.right]; exact ⟨parent', hcp', rfl⟩ : SizeAt n₂ node.right parent'.size)
    (by rw [hptr.2.1, hml]; rfl : SizeAt n₂ minNode'.left 0)
    (by rw [hptr.2.2, hmr]; exact hk₄ : SizeAt n₂ minNode'.right k₄) (by
      rintro x (hx | hx | hx | hx)
      · rw [hw.left] at hx
        cases hx
        exact ⟨fun h => hw.root_notMem_left (by simp [h]),
          fun h => hw.left_first b (by simp) (h ▸ hmem _ hmin)⟩
      · rw [hw.right] at hx
        cases hx
        exact ⟨hw.root_ne.symm, hmm⟩
      · rw [hptr.2.1, hml] at hx
        cases hx
      · rw [hptr.2.2, hmr] at hx
        subst hx
        have hxs := mem_of_linked hs
        have hxg : x ∈ inorder (.node g gl gr) := by
          rw [hin]
          exact List.mem_cons_of_mem _ (List.mem_append_left _ hxs)
        refine ⟨fun h => hw.root_notMem_first (h ▸ hmem x hxg), fun h => ?_⟩
        rw [hin, List.nodup_cons] at hnf
        exact hnf.1 (List.mem_append_left _ (h ▸ hxs)))
  rw [hptr.2.1, hml] at ha₃
  refine ⟨n₃, deleteRoot_walk hc hw.left hw.right hw.cellParent hw.parentLeft hd hwalk hswap,
    ⟨_, _, ha₃⟩, ⟨_, hm₃, hw.right⟩, fun x hxa hxm => ?_, fun x hx => ?_⟩
  · rw [hsame x hxa hxm]
    exact hframe.pointers x
  · have hxa : x ≠ a := fun h => hx (by simp [h])
    have hxg : x ∉ inorder (.node g gl gr) := fun h => hx (List.mem_append_right _
      (List.mem_cons_of_mem _ (List.mem_append_left _ (hmem x h))))
    rw [hsame x hxa fun h => hxg (h ▸ hmin)]
    refine hframe.same x ?_
    rintro (h | h)
    · exact hx (by simp [h])
    · exact hxg h

/-- The successor is further down: what `delete_root` leaves behind represents no tree, whatever the
nodes outside the subtree are changed to. -/
theorem deleteRoot_far {store' : β} (fuel : Nat)
    (h : Represents m.nodes (some a)
      (.node a (.node b ll lr) (.node mr (.node f (.node g gl gr) fr) rr)))
    (hc : m.nodes.cell a = some node) (hd : dataDestroy node.data m.store = .ok store)
    (hd' : dataDestroy node.data store = .ok store') :
    ∃ q m', deleteRoot dataDestroy (fuel + 2) a m = .ok (some q) m' ∧ m'.store = store' ∧
      (∃ node', m'.nodes.cell q = some node') ∧
      (∀ x, x ∉ inorder (.node a (.node b ll lr) (.node mr (.node f (.node g gl gr) fr) rr)) →
        m'.nodes.cell x = m.nodes.cell x) ∧
      ∀ nodes : Heap (HNode α),
        (∀ x ∈ inorder (.node a (.node b ll lr) (.node mr (.node f (.node g gl gr) fr) rr)),
          nodes.cell x = m'.nodes.cell x) → ∀ t, ¬ Linked (nodePointers nodes) (some q) t := by
  obtain ⟨parent, first, hw⟩ := walkNodes_of_represents h hc
  have hheight : gl.height < m.nodes.next := by
    have := h.height_lt
    simp only [BinaryTree.height] at this
    omega
  obtain ⟨n₃, hrun, ⟨y, k, hca⟩, ⟨successor, hcs, hsr⟩, hptr, hout⟩ :=
    deleteRoot_far_start (fuel + 1) hw hc hd hheight
  have hmem : leftmost g gl ∈ inorder (.node f (.node g gl gr) fr) := by
    rcases leftmost_mem g gl with h | h <;> simp [h]
  have hma : leftmost g gl ≠ a := fun h => hw.root_notMem_first (h ▸ hmem)
  have hmm : mr ≠ leftmost g gl := fun h => hw.parent_notMem_first (h ▸ hmem)
  have hcs' : (n₃.free a).cell (leftmost g gl) = some successor := by
    rw [Heap.cell_free_ne hma, hcs]
  let link := fun n : HNode α => { n with left := y }
  have hcs'' := Heap.cell_modify_self hcs' link
  -- the pointers of the other nodes are what they were
  have hptr' : ∀ x, x ≠ a → x ≠ leftmost g gl →
      (((n₃.free a).modify (leftmost g gl) link).cell x).map HNode.pointers =
        (m.nodes.cell x).map HNode.pointers := fun x hxa hxm => by
    rw [Heap.cell_modify_ne hxm, Heap.cell_free_ne hxa, hptr x hxa hxm]
  refine ⟨leftmost g gl, ⟨(n₃.free a).modify (leftmost g gl) link, store', m.errno⟩, ?_, rfl,
    ⟨_, hcs''⟩, fun x hx => ?_, fun nodes hnodes t ht => ?_⟩
  · rw [hrun, Cmd.bind_ok (deleteRoot_noLeft (m := ⟨n₃, store, m.errno⟩) hca rfl hd')]
    exact Cmd.bind_ok (setNode_run (m := ⟨n₃.free a, store', m.errno⟩) hcs' link)
  · show ((n₃.free a).modify (leftmost g gl) link).cell x = _
    rw [Heap.cell_modify_ne fun h => hx ?_, Heap.cell_free_ne fun h => hx (by simp [h]), hout x hx]
    exact List.mem_append_right _ (List.mem_cons_of_mem _ (List.mem_append_left _ (h ▸ hmem)))
  · -- from the successor to the right child, and down its left spine back to the successor
    have hin : ∀ x ∈ inorder (.node f (.node g gl gr) fr),
        x ∈ inorder (.node a (.node b ll lr) (.node mr (.node f (.node g gl gr) fr) rr)) :=
      fun x hx => List.mem_append_right _ (List.mem_cons_of_mem _ (List.mem_append_left _ hx))
    obtain ⟨l₁, t₁, pl, pr, rfl, ⟨n, hn, -, rfl⟩, -, h₁⟩ := linked_some (id ht)
    obtain rfl : n = link successor := by
      have := (hnodes _ (hin _ hmem)).trans hcs''
      exact Option.some.inj (hn.symm.trans this)
    have hright : (link successor).right = some mr := hsr
    rw [hright] at h₁
    obtain ⟨t₂, r₂, pl₂, pr₂, rfl, ⟨n₂, hn₂, rfl, -⟩, h₂, -⟩ := linked_some h₁
    have hleft₂ : n₂.left = some f := by
      have hmr : mr ∈ inorder (.node a (.node b ll lr) (.node mr (.node f (.node g gl gr) fr) rr)) :=
        by simp
      have := (hnodes mr hmr).symm.trans hn₂
      have hp := hptr' mr hw.root_ne.symm hmm
      rw [this, hw.cellParent] at hp
      simp only [Option.map_some, Option.some.injEq, HNode.pointers, Prod.mk.injEq] at hp
      rw [hp.2.1, hw.parentLeft]
    rw [hleft₂] at h₂
    obtain ⟨t₃, h₃, hle⟩ := (linked_pointers hw.repFirst.linked).descend_leftmost
      hw.repFirst.nodup h₂ (by
        rintro x hx hxm pl pr k n pl' pr' k' n' ⟨old, hold, rfl, rfl⟩ ⟨new, hnew, rfl, rfl⟩
        have hxa : x ≠ a := fun h => hw.root_notMem_first (h ▸ hx)
        have hp := hptr' x hxa hxm
        rw [(hnodes x (hin x hx)).symm.trans hnew, hold] at hp
        simp only [Option.map_some, Option.some.injEq, HNode.pointers, Prod.mk.injEq] at hp
        exact hp.2.1)
    have huniq := Linked.unique (nodePointers_fun nodes) ht h₃
    rw [← huniq] at hle
    simp only [BinaryTree.numNodes] at hle
    omega

end Walk

/-- When the right child of the root has a left child, the data of the root are destroyed a second
time; a fault there is a fault of `delete_root`. -/
theorem deleteRoot_second_error {m : HMem α β} {a : Nat} {l r : BinaryTree Nat} {node : HNode α}
    {store : β} {e : Fault} {dataDestroy : DataModifyFn α β}
    (h : Represents m.nodes (some a) (.node a l r)) (hc : m.nodes.cell a = some node)
    (hchild : ¬ SuccessorIsChild (.node a l r)) (hd : dataDestroy node.data m.store = .ok store)
    (hd' : dataDestroy node.data store = .error e) :
    ∃ m', deleteRoot dataDestroy 2 a m = .error e m' := by
  rcases l with _ | ⟨b, ll, lr⟩
  · exact absurd trivial hchild
  rcases r with _ | ⟨mr, _ | ⟨f, fl, fr⟩, rr⟩
  · exact absurd trivial hchild
  · exact absurd trivial hchild
  obtain ⟨parent, first, hw⟩ := walkNodes_of_represents h hc
  rcases fl with _ | ⟨g, gl, gr⟩
  · obtain ⟨nodes, hrun, -, ⟨k, hca⟩, -⟩ := deleteRoot_near_start 1 hw hc hd
    refine ⟨_, hrun.trans (Cmd.bind_error (deleteRoot_error 0 hca hd'))⟩
  · have hheight : gl.height < m.nodes.next := by
      have := h.height_lt
      simp only [BinaryTree.height] at this
      omega
    obtain ⟨nodes, hrun, ⟨y, k, hca⟩, -⟩ := deleteRoot_far_start 1 hw hc hd hheight
    exact ⟨_, hrun.trans (Cmd.bind_error (deleteRoot_error 0 hca hd'))⟩

end OsLabs.Fat
