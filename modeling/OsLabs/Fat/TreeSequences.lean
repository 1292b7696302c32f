import Mathlib
import OsLabs.Fat.TreeDeletePath

/-! # Trees built by insertions

Every sequence of insertions under a comparison that decides a linear order of keys builds an ordered
tree (`insertAll_grown`). A deletion from such a tree always returns, and it returns the tree without
the key exactly when the node to remove has a near in-order successor
(`hTreeDelete_keyDeleted_iff`). -/

namespace OsLabs.Fat

open SearchTree

variable {α β κ : Type}

/-! ## Deleting a found node -/

/-- The fields of a node that no deletion of another node assigns. -/
def HNode.entry (node : HNode α) : α × Ptr := (node.data, node.hParent)

/-- A node that keeps its links keeps its data. -/
theorem entry_map_of_links {o o' : Option (HNode α)}
    (h : o'.map HNode.links = o.map HNode.links) : o'.map HNode.entry = o.map HNode.entry := by
  have := congrArg (Option.map fun x : α × Ptr × Ptr × Int × Ptr => (x.1, x.2.2.2.2)) h
  rw [Option.map_map, Option.map_map] at this
  exact this

/-- A node that keeps its place in the hierarchy keeps its data. -/
theorem entry_map_of_hier {o o' : Option (HNode α)}
    (h : o'.map HNode.hier = o.map HNode.hier) : o'.map HNode.entry = o.map HNode.entry := by
  have := congrArg (Option.map fun x : α × Ptr × Ptr × Ptr => (x.1, x.2.1)) h
  rw [Option.map_map, Option.map_map] at this
  exact this

/-- A deletion of the node `a` that leaves the tree `t'` under `p'`. -/
structure NodeDeleted (m m' : HMem α β) (p' : Ptr) (t' : BinaryTree Nat) (a : Nat) (store : β) :
    Prop where
  represents : Represents m'.nodes p' t'
  store : m'.store = store
  next : m'.nodes.next = m.nodes.next
  freed : m'.nodes.cell a = none
  entry : ∀ x, x ≠ a → (m'.nodes.cell x).map HNode.entry = (m.nodes.cell x).map HNode.entry

section Delete

variable {m : HMem α β} {key : κ} {dataCmpKey : DataCmpFn α β κ} {dataDestroy : DataModifyFn α β}
  {c : Nat → Int} {p : Ptr} {t : BinaryTree Nat} {fuel a : Nat} {l r : BinaryTree Nat}

/-- When `delete_root` removes the root of its subtree, `h_tree_delete` removes it from the tree. -/
theorem hTreeDelete_of_rootRemoved {q : Ptr} {m₀ m₁ : HMem α β} {store : β}
    (h : Represents m.nodes p t)
    (hcmp : ComparesAs m.nodes t (fun data => dataCmpKey m.store data key) c)
    (hfuel : t.height < fuel) (hsub : subtreeBy c t = .node a l r)
    (hchild : removeChildFromH a m = .ok ⟨⟩ m₀) (hroot : deleteRoot dataDestroy 2 a m₀ = .ok q m₁)
    (hnear : SuccessorNear (.node a l r))
    (hrem : RootRemoved m₀ m₁ q a (removeRoot (.node a l r)) store) :
    ∃ p' m', hTreeDelete key dataCmpKey dataDestroy fuel p m = .ok p' m' ∧
      NodeDeleted m m' p' (deleteBy c t) a store := by
  have hframe := (within_removeChildFromH a).ok hchild
  have hsubset : inorder (removeRoot (.node a l r)) ⊆ inorder (.node a l r) := fun x hx => by
    rw [inorder_removeRoot hnear] at hx
    simp only [inorder_node, List.mem_append, List.mem_cons] at hx ⊢
    tauto
  have hact : removeNode dataDestroy a m = .ok q m₁ := by
    unfold removeNode
    rw [Cmd.bind_ok hchild, hroot]
  obtain ⟨p', nodes, hrun, hpath⟩ := hTreeDelete_at h hcmp hfuel hsub hact
    ⟨_, hrem.represents.sizeAt⟩ fun x _ hxs => by
      rw [hrem.same x (fun h => hxs (by simp [h])) fun hx => hxs (hsubset hx), hframe.links x]
  refine ⟨p', { m₁ with nodes := nodes }, hrun, ?_, hrem.store,
    hpath.frame.next.trans (hrem.next.trans hframe.next), ?_, fun x hx => ?_⟩
  · have := hpath.represents _ hrem.represents hsubset
    rwa [← hsub] at this
  · show nodes.cell a = none
    rw [hpath.frame.same a fun h => h.2 (by simp), hrem.freed]
  · exact (entry_map_of_hier (hpath.frame.hier x)).trans
      ((entry_map_of_hier (hrem.hier x hx)).trans (entry_map_of_links (hframe.links x)))

/-- When `delete_root` removes the root of `sub`: the successor of the root is its right child, or the
left child of that and the data of the root can be destroyed a second time. -/
def Removable (dataDestroy : DataModifyFn α β) (m : HMem α β) (sub : BinaryTree Nat) : Prop :=
  SuccessorIsChild sub ∨ SuccessorNear sub ∧ ∀ a l r node store, sub = .node a l r →
    m.nodes.cell a = some node → dataDestroy node.data m.store = .ok store →
      ∃ store', dataDestroy node.data store = .ok store'

/-- A node that may be removed has its successor near. -/
theorem Removable.near {sub : BinaryTree Nat} (h : Removable dataDestroy m sub) :
    SuccessorNear sub := by
  rcases h with h | h
  · rcases sub with _ | ⟨a, _ | ⟨b, ll, lr⟩, _ | ⟨mr, _ | ⟨f, fl, fr⟩, rr⟩⟩
    all_goals first | exact trivial | exact absurd h id
  · exact h.1

/-- A root whose successor is its right child is removed. -/
theorem deleteRoot_of_isChild {node : HNode α} {store : β}
    (h : Represents m.nodes (some a) (.node a l r)) (hc : m.nodes.cell a = some node)
    (hd : dataDestroy node.data m.store = .ok store) (hsucc : SuccessorIsChild (.node a l r)) :
    ∃ q m', deleteRoot dataDestroy 2 a m = .ok q m' ∧
      RootRemoved m m' q a (removeRoot (.node a l r)) store := by
  rcases l with _ | ⟨b, ll, lr⟩
  · exact deleteRoot_single 1 h hc hd (.inl rfl)
  · rcases r with _ | ⟨mr, _ | ⟨f, fl, fr⟩, rr⟩
    · exact deleteRoot_single 1 h hc hd (.inr rfl)
    · exact deleteRoot_child 1 h hc hd
    · exact absurd hsucc id

/-- A removable root is removed. -/
theorem deleteRoot_of_removable {node : HNode α} {store : β}
    (h : Represents m.nodes (some a) (.node a l r)) (hc : m.nodes.cell a = some node)
    (hd : dataDestroy node.data m.store = .ok store) (hrem : Removable dataDestroy m (.node a l r)) :
    ∃ q m' store', deleteRoot dataDestroy 2 a m = .ok q m' ∧
      RootRemoved m m' q a (removeRoot (.node a l r)) store' := by
  by_cases hsucc : SuccessorIsChild (.node a l r)
  · obtain ⟨q, m', hrun, hroot⟩ := deleteRoot_of_isChild h hc hd hsucc
    exact ⟨q, m', store, hrun, hroot⟩
  · rcases l with _ | ⟨b, ll, lr⟩
    · exact absurd trivial hsucc
    rcases r with _ | ⟨mr, _ | ⟨f, _ | ⟨g, gl, gr⟩, fr⟩, rr⟩
    · exact absurd trivial hsucc
    · exact absurd trivial hsucc
    · obtain ⟨store', hd'⟩ := (hrem.resolve_left id).2 _ _ _ node store rfl hc hd
      obtain ⟨q, m', hrun, hrem⟩ := deleteRoot_near 0 h hc hd hd'
      exact ⟨q, m', _, hrun, hrem⟩
    · exact absurd hrem.near id

/-- A deletion of a node that is not removable faults, or returns a pointer that represents no
tree. -/
theorem hTreeDelete_of_not_removable {node : HNode α} {m₀ : HMem α β} {store : β}
    (h : Represents m.nodes p t)
    (hcmp : ComparesAs m.nodes t (fun data => dataCmpKey m.store data key) c)
    (hfuel : t.height < fuel) (hsub : subtreeBy c t = .node a l r)
    (hrep : Represents m.nodes (some a) (.node a l r)) (hc : m.nodes.cell a = some node)
    (hchild : removeChildFromH a m = .ok ⟨⟩ m₀) (hrem : ¬ Removable dataDestroy m (.node a l r))
    (hd : dataDestroy node.data m.store = .ok store) (p' : Ptr) (m' : HMem α β)
    (hrun : hTreeDelete key dataCmpKey dataDestroy fuel p m = .ok p' m') (t' : BinaryTree Nat) :
    ¬ Represents m'.nodes p' t' := by
  have hframe := (within_removeChildFromH a).ok hchild
  obtain ⟨node₀, hc₀, hlinks⟩ := hframe.live hc
  simp only [HNode.links, Prod.mk.injEq] at hlinks
  have hd₀ : dataDestroy node₀.data m₀.store = .ok store := by rw [hlinks.1, hframe.store, hd]
  cases hd' : dataDestroy node₀.data store with
  | error e =>
      obtain ⟨m₁, hroot⟩ := deleteRoot_second_error (hframe.represents hrep) hc₀
        (fun hsucc => hrem (.inl hsucc)) hd₀ hd'
      have hact : removeNode dataDestroy a m = .error e m₁ := by
        unfold removeNode
        rw [Cmd.bind_ok hchild, hroot]
      cases hrun.symm.trans (hTreeDelete_error h hcmp hfuel hsub hact)
  | ok store' =>
      rcases l with _ | ⟨b, ll, lr⟩
      · exact absurd (.inl trivial) hrem
      rcases r with _ | ⟨mr, _ | ⟨f, _ | ⟨g, gl, gr⟩, fr⟩, rr⟩
      · exact absurd (.inl trivial) hrem
      · exact absurd (.inl trivial) hrem
      · refine absurd (.inr ⟨trivial, ?_⟩) hrem
        rintro a' l' r' node' store₁ heq hc' hstore₁
        cases heq
        cases hc.symm.trans hc'
        cases hd.symm.trans hstore₁
        exact ⟨store', by rw [← hlinks.1, hd']⟩
      · obtain ⟨q, m₁, hroot, -, ⟨node₁, hq⟩, hout, hloop⟩ :=
          deleteRoot_far 0 (hframe.represents hrep) hc₀ hd₀ hd'
        have hact : removeNode dataDestroy a m = .ok (some q) m₁ := by
          unfold removeNode
          rw [Cmd.bind_ok hchild, hroot]
        obtain ⟨p'', nodes, hrun', hpath⟩ := hTreeDelete_at h hcmp hfuel hsub hact
          ⟨_, node₁, hq, rfl⟩ fun x _ hxs => by rw [hout x hxs, hframe.links x]
        cases hrun.symm.trans hrun'
        intro ht'
        obtain ⟨s, hs⟩ := hpath.reaches nodes (fun _ _ _ => rfl) t' (linked_pointers ht'.linked)
        exact hloop nodes (fun x hx => hpath.frame.same x fun h => h.2 hx) s hs

end Delete

/-- The subtree the comparison finds is represented by its root. -/
theorem represents_subtreeBy {nodes : Heap (HNode α)} {p : Ptr} {t : BinaryTree Nat} {c : Nat → Int}
    {a : Nat} {l r : BinaryTree Nat} (h : Represents nodes p t) (hsub : subtreeBy c t = .node a l r) :
    Represents nodes (some a) (.node a l r) := by
  induction t generalizing p with
  | nil => cases hsub
  | node b tl tr ihl ihr =>
      obtain ⟨rfl, node, -, -, hl, hr⟩ := represents_node h
      rw [subtreeBy] at hsub
      split_ifs at hsub
      · cases hsub
        exact h
      · exact ihr hr hsub
      · exact ihl hl hsub

section DeleteOnce

variable {m : HMem α β} {key : κ} {dataCmpKey : DataCmpFn α β κ} {dataDestroy : DataModifyFn α β}
  {c : Nat → Int} {p : Ptr} {t : BinaryTree Nat} {fuel : Nat}

/-- When data cannot be destroyed twice, a deletion that returns has found nothing, or it has removed
the node found and destroyed its data. -/
theorem hTreeDelete_ok {p' : Ptr} {m' : HMem α β} (h : Represents m.nodes p t)
    (hcmp : ComparesAs m.nodes t (fun data => dataCmpKey m.store data key) c)
    (hfuel : t.height < fuel)
    (honce : ∀ data store store', dataDestroy data store = .ok store' →
      ∃ e, dataDestroy data store' = .error e)
    (hrun : hTreeDelete key dataCmpKey dataDestroy fuel p m = .ok p' m') :
    (locate c t = none ∧ p' = p ∧ ∃ nodes, m' = { m with nodes := nodes } ∧
      Represents nodes p t ∧ LinksFrame (· ∈ inorder t) m.nodes nodes) ∨
    ∃ a node store, locate c t = some a ∧ m.nodes.cell a = some node ∧
      dataDestroy node.data m.store = .ok store ∧ SuccessorNear (subtreeBy c t) ∧
      NodeDeleted m m' p' (deleteBy c t) a store := by
  cases hsub : subtreeBy c t with
  | nil =>
      obtain ⟨nodes, hrun', hrep, hframe⟩ := hTreeDelete_notFound dataDestroy h hcmp hfuel hsub
      rw [hrun'] at hrun
      cases hrun
      exact .inl ⟨subtreeBy_eq_nil_iff.mp hsub, rfl, nodes, rfl, hrep, hframe⟩
  | node a l r =>
      have hrep := represents_subtreeBy h hsub
      obtain ⟨-, node, hc, -⟩ := represents_node hrep
      have herr (e : Fault) (m₁ : HMem α β) (hact : removeNode dataDestroy a m = .error e m₁) :
          False := by
        rw [hTreeDelete_error h hcmp hfuel hsub hact] at hrun
        cases hrun
      unfold removeNode at herr
      cases hchild : removeChildFromH a m with
      | error e m₀ => exact absurd (Cmd.bind_error hchild) (herr e m₀)
      | ok x m₀ =>
          have hframe := (within_removeChildFromH a).ok hchild
          obtain ⟨node₀, hc₀, hlinks⟩ := hframe.live hc
          simp only [HNode.links, Prod.mk.injEq] at hlinks
          have hbind : (do removeChildFromH a; deleteRoot dataDestroy 2 a : HM α β Ptr) m =
              deleteRoot dataDestroy 2 a m₀ := Cmd.bind_ok hchild
          rw [hbind] at herr
          cases hd : dataDestroy node₀.data m₀.store with
          | error e => exact absurd (deleteRoot_error 1 hc₀ hd) (herr e m₀)
          | ok store =>
              have hsucc : SuccessorIsChild (.node a l r) := by
                by_contra hsucc
                obtain ⟨e, he⟩ := honce _ _ _ hd
                obtain ⟨m₁, hroot⟩ := deleteRoot_second_error (hframe.represents hrep) hc₀ hsucc hd he
                exact herr e m₁ hroot
              obtain ⟨q, m₁, hroot, hrem⟩ :=
                deleteRoot_of_isChild (hframe.represents hrep) hc₀ hd hsucc
              have hremovable : Removable dataDestroy m (.node a l r) := .inl hsucc
              have hnear := hremovable.near
              obtain ⟨p'', m'', hrun', hdel⟩ :=
                hTreeDelete_of_rootRemoved h hcmp hfuel hsub hchild hroot hnear hrem
              rw [hrun'] at hrun
              cases hrun
              refine .inr ⟨a, node, store, locate_eq_of_subtreeBy hsub, hc, ?_, hnear, hdel⟩
              rw [← hlinks.1, ← hframe.store, hd]

end DeleteOnce

/-! ## The hierarchy of a tree that was only inserted into -/

/-- The hierarchy links of all nodes lead to live nodes, and those to the next sibling to older
ones. -/
structure HierarchyLive (nodes : Heap (HNode α)) : Prop where
  sibling : ∀ a node b, nodes.cell a = some node → node.hNextSibling = some b →
    b < a ∧ ∃ n, nodes.cell b = some n
  parent : ∀ a node b, nodes.cell a = some node → node.hParent = some b →
    ∃ n, nodes.cell b = some n
  children : ∀ a node b, nodes.cell a = some node → node.hChildren = some b →
    ∃ n, nodes.cell b = some n

/-- The search for a sibling ends, since every step leads to an older node. -/
theorem unlinkSibling_run {m : HMem α β} (h : HierarchyLive m.nodes) {hChild fuel iter : Nat}
    {next : Ptr} {node : HNode α} (hc : m.nodes.cell iter = some node) (hfuel : iter < fuel) :
    ∃ m', unlinkSibling hChild next fuel iter m = .ok ⟨⟩ m' := by
  induction fuel generalizing iter node with
  | zero => omega
  | succ fuel ih =>
      rw [unlinkSibling, Cmd.bind_ok (deref_run hc)]
      cases hs : node.hNextSibling with
      | none => exact ⟨_, setNode_run hc _⟩
      | some sibling =>
          obtain ⟨hlt, n, hn⟩ := h.sibling iter node sibling hc hs
          dsimp only
          by_cases heq : sibling = hChild
          · rw [if_pos heq]
            exact ⟨_, setNode_run hc _⟩
          · rw [if_neg heq]
            exact ih hn (by omega)

/-- `remove_child_from_h` returns. -/
theorem removeChildFromH_run {m : HMem α β} (h : HierarchyLive m.nodes) {a : Nat} {node : HNode α}
    (hc : m.nodes.cell a = some node) : ∃ m', removeChildFromH a m = .ok ⟨⟩ m' := by
  unfold removeChildFromH
  rw [Cmd.bind_ok (deref_run hc)]
  cases hp : node.hParent with
  | none => exact ⟨m, rfl⟩
  | some p =>
      obtain ⟨parent, hcp⟩ := h.parent a node p hc hp
      dsimp only
      rw [Cmd.bind_ok (deref_run hcp)]
      cases hch : parent.hChildren with
      | none => exact ⟨_, rfl⟩
      | some iter =>
          obtain ⟨n, hn⟩ := h.children p parent iter hcp hch
          dsimp only
          by_cases heq : iter = a
          · rw [if_pos heq]
            exact ⟨_, setNode_run hcp _⟩
          · rw [if_neg heq]
            exact unlinkSibling_run h hn (Nat.lt_succ_of_lt (Heap.lt_next hn))

/-- The live links of the hierarchy depend on the links of the hierarchy only. -/
theorem HierarchyLive.congr {nodes nodes' : Heap (HNode α)} (h : HierarchyLive nodes)
    (heq : ∀ a, (nodes'.cell a).map HNode.hier = (nodes.cell a).map HNode.hier) :
    HierarchyLive nodes' := by
  have hback : ∀ a node', nodes'.cell a = some node' →
      ∃ node, nodes.cell a = some node ∧ node.hier = node'.hier := fun a node' hc => by
    have := heq a
    rw [hc] at this
    cases hc' : nodes.cell a with
    | none =>
        rw [hc'] at this
        cases this
    | some node =>
        rw [hc'] at this
        exact ⟨node, rfl, (Option.some.inj this).symm⟩
  have hforth : ∀ a, (∃ n, nodes.cell a = some n) → ∃ n, nodes'.cell a = some n := by
    rintro a ⟨n, hn⟩
    have := heq a
    rw [hn] at this
    cases hc' : nodes'.cell a with
    | none =>
        rw [hc'] at this
        cases this
    | some n' => exact ⟨n', rfl⟩
  refine ⟨fun a node' b hc hb => ?_, fun a node' b hc hb => ?_, fun a node' b hc hb => ?_⟩
  all_goals
    obtain ⟨node, hc', heq'⟩ := hback a node' hc
    simp only [HNode.hier, Prod.mk.injEq] at heq'
  · obtain ⟨hlt, hlive⟩ := h.sibling a node b hc' (heq'.2.2.1.trans hb)
    exact ⟨hlt, hforth b hlive⟩
  · exact hforth b (h.parent a node b hc' (heq'.2.1.trans hb))
  · exact hforth b (h.children a node b hc' (heq'.2.2.2.trans hb))

/-- A new node keeps all hierarchy links live. -/
theorem HierarchyLive.hNodeInitHeap {nodes : Heap (HNode α)} (h : HierarchyLive nodes)
    (newData : α) {hParent : Ptr}
    (hp : ∀ p, hParent = some p → ∃ node, nodes.cell p = some node) :
    HierarchyLive (hNodeInitHeap nodes newData hParent) := by
  have hlive : ∀ a, (∃ n, nodes.cell a = some n) →
      ∃ n, (Fat.hNodeInitHeap nodes newData hParent).cell a = some n := by
    rintro a ⟨n, hn⟩
    obtain ⟨n', hn', -⟩ := live_hNodeInitHeap hn newData hParent
    exact ⟨n', hn'⟩
  have hnew := cell_hNodeInitHeap_next newData hp
  -- an old node keeps its links, except that the parent's children are now headed by the new node
  have hold : ∀ a node', a ≠ nodes.next →
      (Fat.hNodeInitHeap nodes newData hParent).cell a = some node' →
      ∃ node, nodes.cell a = some node ∧ node'.hNextSibling = node.hNextSibling ∧
        node'.hParent = node.hParent ∧
        (node'.hChildren = node.hChildren ∨ node'.hChildren = some nodes.next) := by
    intro a node' ha hc
    rw [cell_hNodeInitHeap ha, Option.map_eq_some_iff] at hc
    obtain ⟨node, hn, rfl⟩ := hc
    refine ⟨node, hn, ?_⟩
    split
    · exact ⟨rfl, rfl, .inr rfl⟩
    · exact ⟨rfl, rfl, .inl rfl⟩
  refine ⟨fun a node' b hc hb => ?_, fun a node' b hc hb => ?_, fun a node' b hc hb => ?_⟩
  all_goals by_cases ha : a = nodes.next
  · subst ha
    rw [hnew] at hc
    cases hc
    obtain ⟨p, rfl, hfirst⟩ := Option.bind_eq_some_iff.mp hb
    obtain ⟨parent, hcp, hch⟩ := Option.bind_eq_some_iff.mp hfirst
    obtain ⟨n, hn⟩ := h.children p parent b hcp hch
    exact ⟨Heap.lt_next hn, hlive b ⟨n, hn⟩⟩
  · obtain ⟨node, hn, hs, -, -⟩ := hold a node' ha hc
    obtain ⟨hlt, hb'⟩ := h.sibling a node b hn (hs.symm.trans hb)
    exact ⟨hlt, hlive b hb'⟩
  · subst ha
    rw [hnew] at hc
    cases hc
    exact hlive b (hp b hb)
  · obtain ⟨node, hn, -, hpar, -⟩ := hold a node' ha hc
    exact hlive b (h.parent a node b hn (hpar.symm.trans hb))
  · subst ha
    rw [hnew] at hc
    cases hc
    cases hb
  · obtain ⟨node, hn, -, -, hch⟩ := hold a node' ha hc
    rcases hch with hch | hch
    · exact hlive b (h.children a node b hn (hch.symm.trans hb))
    · rw [hch] at hb
      cases hb
      exact ⟨_, hnew⟩

/-! ## Orders of keys -/

/-- The two comparisons decide the order of the keys of the data. -/
structure Compares [LinearOrder κ] (dataCmp : DataCmpFn α β α) (dataCmpKey : DataCmpFn α β κ)
    (keyOf : α → κ) (store : β) : Prop where
  data : ∀ a b, ∃ c, dataCmp store a b = .ok c ∧ (c < 0 ↔ keyOf a < keyOf b) ∧
    (0 < c ↔ keyOf b < keyOf a)
  key : ∀ a k, ∃ c, dataCmpKey store a k = .ok c ∧ (c < 0 ↔ keyOf a < k) ∧ (0 < c ↔ k < keyOf a)

/-- The comparison with the datum of a node; `0` where there is none. -/
def compareWith (nodes : Heap (HNode α)) (cmp : α → Except Fault Int) (a : Nat) : Int :=
  match nodes.cell a with
  | some node =>
      match cmp node.data with
      | .ok c => c
      | .error _ => 0
  | none => 0

/-- The comparison of a live node is that of its data. -/
theorem compareWith_eq {nodes : Heap (HNode α)} {cmp : α → Except Fault Int} {a : Nat}
    {node : HNode α} {c : Int} (hc : nodes.cell a = some node) (hcmp : cmp node.data = .ok c) :
    compareWith nodes cmp a = c := by
  simp only [compareWith, hc, hcmp]

/-- A comparison that always answers is good for every tree. -/
theorem comparesAs_compareWith {nodes : Heap (HNode α)} {cmp : α → Except Fault Int}
    (h : ∀ data, ∃ c, cmp data = .ok c) (t : BinaryTree Nat) :
    ComparesAs nodes t cmp (compareWith nodes cmp) := fun a _ node hc => by
  obtain ⟨c, hcmp⟩ := h node.data
  rw [compareWith_eq hc hcmp, hcmp]

/-- The key of a node. -/
def keyAt (keyOf : α → κ) (nodes : Heap (HNode α)) (a : Nat) : Option κ :=
  (nodes.cell a).map fun node => keyOf node.data

/-- The key of a node depends on its data. -/
theorem keyAt_congr {keyOf : α → κ} {nodes nodes' : Heap (HNode α)} {a : Nat}
    (h : (nodes'.cell a).map HNode.entry = (nodes.cell a).map HNode.entry) :
    keyAt keyOf nodes' a = keyAt keyOf nodes a := by
  have := congrArg (Option.map fun x : α × Ptr => keyOf x.1) h
  rw [Option.map_map, Option.map_map] at this
  exact this

section Ordered

variable [LinearOrder κ]

/-- One node has a smaller key than another. -/
def KeyLt (keyOf : α → κ) (nodes : Heap (HNode α)) (a b : Nat) : Prop :=
  ∃ k k', keyAt keyOf nodes a = some k ∧ keyAt keyOf nodes b = some k' ∧ k < k'

/-- The order of the keys is transitive. -/
theorem KeyLt.trans {keyOf : α → κ} {nodes : Heap (HNode α)} {a b d : Nat}
    (h : KeyLt keyOf nodes a b) (h' : KeyLt keyOf nodes b d) : KeyLt keyOf nodes a d := by
  obtain ⟨k, k₁, hk, hk₁, hlt⟩ := h
  obtain ⟨k₁', k₂, hk₁', hk₂, hlt'⟩ := h'
  obtain rfl := Option.some.inj (hk₁.symm.trans hk₁')
  exact ⟨k, k₂, hk, hk₂, hlt.trans hlt'⟩

/-- The keys of a tree increase in order. -/
def Ordered (keyOf : α → κ) (nodes : Heap (HNode α)) (t : BinaryTree Nat) : Prop :=
  (inorder t).Pairwise (KeyLt keyOf nodes)

/-- On an ordered tree the comparison with a key is monotone. -/
theorem Ordered.monotone {keyOf : α → κ} {nodes : Heap (HNode α)} {t : BinaryTree Nat} {key : κ}
    {cmp : α → Except Fault Int} (h : Ordered keyOf nodes t)
    (hcmp : ∀ data, ∃ c, cmp data = .ok c ∧ (c < 0 ↔ keyOf data < key) ∧ (0 < c ↔ key < keyOf data)) :
    Monotone (compareWith nodes cmp) (inorder t) := by
  refine h.imp fun {a b} hab ha => ?_
  obtain ⟨k, k', hk, hk', hlt⟩ := hab
  obtain ⟨na, hca, rfl⟩ := Option.map_eq_some_iff.mp hk
  obtain ⟨nb, hcb, rfl⟩ := Option.map_eq_some_iff.mp hk'
  obtain ⟨ca, hcmpa, hneg, -⟩ := hcmp na.data
  obtain ⟨cb, hcmpb, -, hpos⟩ := hcmp nb.data
  rw [compareWith_eq hca hcmpa] at ha
  rw [compareWith_eq hcb hcmpb, hpos]
  have : ¬ keyOf na.data < key := fun h => by
    have := hneg.mpr h
    omega
  exact lt_of_le_of_lt (not_lt.mp this) hlt

/-- The comparison is zero exactly at the key. -/
theorem compareWith_eq_zero_iff {keyOf : α → κ} {nodes : Heap (HNode α)} {key : κ}
    {cmp : α → Except Fault Int} {a : Nat} {node : HNode α} (hc : nodes.cell a = some node)
    (hcmp : ∀ data, ∃ c, cmp data = .ok c ∧ (c < 0 ↔ keyOf data < key) ∧ (0 < c ↔ key < keyOf data)) :
    compareWith nodes cmp a = 0 ↔ keyAt keyOf nodes a = some key := by
  obtain ⟨c, hcmpc, hneg, hpos⟩ := hcmp node.data
  rw [compareWith_eq hc hcmpc, keyAt, hc, Option.map_some, Option.some.injEq]
  constructor
  · intro h0
    refine le_antisymm (not_lt.mp fun h => ?_) (not_lt.mp fun h => ?_)
    · have := hpos.mpr h
      omega
    · have := hneg.mpr h
      omega
  · intro hk
    have h1 : ¬ c < 0 := fun h => (hneg.mp h).ne hk
    have h2 : ¬ 0 < c := fun h => (hpos.mp h).ne hk.symm
    omega

end Ordered

/-! ## Sequences of insertions -/

/-- Insert data, each with its hierarchical parent, one after the other. -/
def insertAll (dataCmp : DataCmpFn α β α) : List (α × Ptr) → Ptr → HM α β Ptr
  | [], root => pure root
  | (newData, hParent) :: rest, root => do
      let m ← get
      let root ← hTreeInsert newData hParent dataCmp (m.nodes.next + 1) root
      insertAll dataCmp rest root

section Grown

variable [LinearOrder κ] {dataCmp : DataCmpFn α β α} {dataCmpKey : DataCmpFn α β κ} {keyOf : α → κ}

/-- What insertions keep: an ordered tree whose hierarchy is live. -/
structure Grown (keyOf : α → κ) (m : HMem α β) (p : Ptr) (t : BinaryTree Nat) : Prop where
  represents : Represents m.nodes p t
  ordered : Ordered keyOf m.nodes t
  hierarchy : HierarchyLive m.nodes

/-- One insertion keeps the invariant. -/
theorem hTreeInsert_grown {m m' : HMem α β} {p p' : Ptr} {t : BinaryTree Nat} {newData : α}
    {hParent : Ptr} (hcmp : Compares dataCmp dataCmpKey keyOf m.store) (h : Grown keyOf m p t)
    (hrun : hTreeInsert newData hParent dataCmp (m.nodes.next + 1) p m = .ok p' m') :
    m'.store = m.store ∧ ∃ t', Grown keyOf m' p' t' := by
  have hall : ComparesAs m.nodes t (fun data => dataCmp m.store newData data)
      (compareWith m.nodes fun data => dataCmp m.store newData data) :=
    comparesAs_compareWith (fun data => (hcmp.data newData data).imp fun _ h => h.1) t
  cases hloc : locate (fun a => -compareWith m.nodes (dataCmp m.store newData) a) t with
  | some x =>
      obtain ⟨nodes, hrun', hrep, hframe⟩ := hTreeInsert_located hParent h.represents
        hall h.represents.height_lt hloc
      cases hrun.symm.trans hrun'
      refine ⟨rfl, t, hrep, ?_, h.hierarchy.congr hframe.hier⟩
      refine h.ordered.imp fun {a b} => ?_
      rintro ⟨k, k', hk, hk', hlt⟩
      exact ⟨k, k', by rw [keyAt_congr (entry_map_of_hier (hframe.hier a)), hk],
        by rw [keyAt_congr (entry_map_of_hier (hframe.hier b)), hk'], hlt⟩
  | none =>
      have hp : ∀ q, hParent = some q → ∃ node, m.nodes.cell q = some node := by
        intro q hq
        cases hcq : m.nodes.cell q with
        | some node => exact ⟨node, rfl⟩
        | none =>
            have := hTreeInsert_dangling h.represents hall h.represents.height_lt hloc hq hcq
            cases hrun.symm.trans this
      obtain ⟨root, nodes, hrun', hrep, hframe⟩ := hTreeInsert_new h.represents hall
        h.represents.height_lt hloc hp
      cases hrun.symm.trans hrun'
      -- keys of the old nodes, and of the new one
      have hkeyOld : ∀ a node, m.nodes.cell a = some node →
          keyAt keyOf nodes a = some (keyOf node.data) := fun a node hc => by
        obtain ⟨n₁, hc₁, -, -, -, hdata⟩ := live_hNodeInitHeap hc newData hParent
        rw [keyAt_congr (entry_map_of_hier (hframe.hier a)), keyAt, hc₁, ← hdata]
        rfl
      have hkeyNew : keyAt keyOf nodes m.nodes.next = some (keyOf newData) := by
        rw [keyAt_congr (entry_map_of_hier (hframe.hier _)), keyAt, cell_hNodeInitHeap_next _ hp]
        rfl
      have hkeep : ∀ {a b}, KeyLt keyOf m.nodes a b → KeyLt keyOf nodes a b := by
        rintro a b ⟨k, k', hk, hk', hlt⟩
        obtain ⟨na, hca, rfl⟩ := Option.map_eq_some_iff.mp hk
        obtain ⟨nb, hcb, rfl⟩ := Option.map_eq_some_iff.mp hk'
        exact ⟨_, _, hkeyOld a na hca, hkeyOld b nb hcb, hlt⟩
      refine ⟨rfl, _, hrep, ?_, (h.hierarchy.hNodeInitHeap newData hp).congr hframe.hier⟩
      refine pairwise_insertBy (fun a ha hpos => ?_) (fun a ha hneg => ?_)
        (h.ordered.imp hkeep) hloc fun _ _ _ => KeyLt.trans
      · obtain ⟨node, hc⟩ := live_of_linked h.represents.linked ha
        obtain ⟨c, hcc, -, hgt⟩ := hcmp.data newData node.data
        rw [compareWith_eq hc hcc] at hpos
        exact ⟨_, _, hkeyOld a node hc, hkeyNew, hgt.mp hpos⟩
      · obtain ⟨node, hc⟩ := live_of_linked h.represents.linked ha
        obtain ⟨c, hcc, hlt, -⟩ := hcmp.data newData node.data
        rw [compareWith_eq hc hcc] at hneg
        exact ⟨_, _, hkeyNew, hkeyOld a node hc, hlt.mp hneg⟩

/-- Sequences of insertions keep the invariant. -/
theorem insertAll_grown {inserts : List (α × Ptr)} {m m' : HMem α β} {p p' : Ptr}
    {t : BinaryTree Nat} (hcmp : Compares dataCmp dataCmpKey keyOf m.store) (h : Grown keyOf m p t)
    (hrun : insertAll dataCmp inserts p m = .ok p' m') :
    m'.store = m.store ∧ ∃ t', Grown keyOf m' p' t' := by
  induction inserts generalizing m p t with
  | nil =>
      cases hrun
      exact ⟨rfl, t, h⟩
  | cons insert rest ih =>
      obtain ⟨newData, hParent⟩ := insert
      rw [insertAll, Cmd.get_bind, Cmd.bind_eq_ok] at hrun
      obtain ⟨root, m₁, hins, hrest⟩ := hrun
      obtain ⟨hstore, t₁, h₁⟩ := hTreeInsert_grown hcmp h hins
      obtain ⟨hstore', ht⟩ := ih (hstore ▸ hcmp) h₁ hrest
      exact ⟨hstore'.trans hstore, ht⟩

/-- The empty tree in empty memory. -/
theorem grown_empty (keyOf : α → κ) (store : β) (errno : Int) :
    Grown keyOf (⟨Heap.empty, store, errno⟩ : HMem α β) none .nil :=
  ⟨represents_nil _, List.Pairwise.nil, fun _ _ _ h => (by cases h), fun _ _ _ h => (by cases h),
    fun _ _ _ h => (by cases h)⟩

/-! ## Deleting a key -/

/-- A deletion of a key from the tree `t` in `m` that returns `p'` in `m'`: the result is a finite
tree with right sizes, ordered, with the nodes of `t` whose key is another one in the same order, and
each with the same data and hierarchical parent. -/
structure KeyDeleted (keyOf : α → κ) (key : κ) (m m' : HMem α β) (t : BinaryTree Nat) (p' : Ptr)
    (t' : BinaryTree Nat) : Prop where
  represents : Represents m'.nodes p' t'
  ordered : Ordered keyOf m'.nodes t'
  inorder_eq : inorder t' = (inorder t).filter fun a => keyAt keyOf m.nodes a ≠ some key
  entry : ∀ a ∈ inorder t', (m'.nodes.cell a).map HNode.entry = (m.nodes.cell a).map HNode.entry

/-- From a grown tree a deletion returns with the key deleted if and only if the node to remove is
removable. -/
theorem hTreeDelete_keyDeleted_iff {m : HMem α β} {p : Ptr} {t : BinaryTree Nat} {fuel : Nat}
    {dataDestroy : DataModifyFn α β} (hcmp : Compares dataCmp dataCmpKey keyOf m.store)
    (hd : ∀ a node, m.nodes.cell a = some node →
      ∃ store', dataDestroy node.data m.store = .ok store')
    (h : Grown keyOf m p t) (key : κ) (hfuel : m.nodes.next < fuel) :
    (∃ p' m' t', hTreeDelete key dataCmpKey dataDestroy fuel p m = .ok p' m' ∧
        KeyDeleted keyOf key m m' t p' t') ↔
      Removable dataDestroy m
        (subtreeBy (compareWith m.nodes fun data => dataCmpKey m.store data key) t) := by
  set c := compareWith m.nodes fun data => dataCmpKey m.store data key with hcdef
  have hall : ComparesAs m.nodes t (fun data => dataCmpKey m.store data key) c :=
    comparesAs_compareWith (fun data => (hcmp.key data key).imp fun _ h => h.1) t
  have hmono : Monotone c (inorder t) := h.ordered.monotone fun data => hcmp.key data key
  have hheight : t.height < fuel := by
    have := h.represents.height_lt
    omega
  have hfilter : (inorder t).filter (c · ≠ 0) =
      (inorder t).filter fun a => keyAt keyOf m.nodes a ≠ some key := by
    refine List.filter_congr fun a ha => ?_
    obtain ⟨node, hc⟩ := live_of_linked h.represents.linked ha
    rw [decide_eq_decide, not_iff_not]
    exact compareWith_eq_zero_iff hc fun data => hcmp.key data key
  -- a tree of the remaining nodes whose entries are unchanged is ordered
  have hordered : ∀ {m' : HMem α β} {t' : BinaryTree Nat},
      inorder t' = (inorder t).filter (c · ≠ 0) →
      (∀ a ∈ inorder t', (m'.nodes.cell a).map HNode.entry = (m.nodes.cell a).map HNode.entry) →
      Ordered keyOf m'.nodes t' := by
    intro m' t' hin hentry
    have : (inorder t').Pairwise (KeyLt keyOf m.nodes) := by
      rw [hin]
      exact h.ordered.filter _
    refine this.imp_of_mem fun {a b} ha hb => ?_
    rintro ⟨k, k', hk, hk', hlt⟩
    exact ⟨k, k', by rw [keyAt_congr (hentry a ha), hk], by rw [keyAt_congr (hentry b hb), hk'], hlt⟩
  cases hsub : subtreeBy c t with
  | nil =>
      refine ⟨fun _ => .inl trivial, fun _ => ?_⟩
      obtain ⟨nodes, hrun, hrep, hframe⟩ := hTreeDelete_notFound dataDestroy
        h.represents hall hheight hsub
      have hin : inorder t = (inorder t).filter (c · ≠ 0) :=
        (filter_ne_zero ((locate_eq_none_iff hmono).mp (subtreeBy_eq_nil_iff.mp hsub))).symm
      have hentry : ∀ a ∈ inorder t,
          (nodes.cell a).map HNode.entry = (m.nodes.cell a).map HNode.entry :=
        fun a _ => entry_map_of_hier (hframe.hier a)
      exact ⟨p, { m with nodes := nodes }, t, hrun, hrep, hordered hin hentry,
        hin.trans hfilter, hentry⟩
  | node a l r =>
      have hrepSub := represents_subtreeBy h.represents hsub
      obtain ⟨-, node, hc, -⟩ := represents_node hrepSub
      obtain ⟨m₀, hchild⟩ := removeChildFromH_run h.hierarchy hc
      obtain ⟨store, hstore⟩ := hd a node hc
      constructor
      · rintro ⟨p', m', t', hrun, hdel⟩
        by_contra hrem
        exact hTreeDelete_of_not_removable h.represents hall hheight hsub hrepSub hc hchild hrem
          hstore p' m' hrun t' hdel.represents
      · intro hrem
        have hframe := (within_removeChildFromH a).ok hchild
        obtain ⟨node₀, hc₀, hlinks⟩ := hframe.live hc
        simp only [HNode.links, Prod.mk.injEq] at hlinks
        have hrem₀ : Removable dataDestroy m₀ (.node a l r) := by
          refine hrem.imp_right fun hnear => ⟨hnear.1, ?_⟩
          rintro a' l' r' node' store₁ heq hc' hstore₁
          cases heq
          cases hc₀.symm.trans hc'
          rw [hlinks.1] at hstore₁ ⊢
          rw [hframe.store] at hstore₁
          exact hnear.2 _ _ _ node store₁ rfl hc hstore₁
        obtain ⟨q, m₁, store', hroot, hrootRem⟩ := deleteRoot_of_removable
          (hframe.represents hrepSub) hc₀ (by rw [hlinks.1, hframe.store, hstore]) hrem₀
        obtain ⟨p', m', hrun, hdel⟩ := hTreeDelete_of_rootRemoved h.represents hall hheight hsub
          hchild hroot hrem.near hrootRem
        have hin := inorder_deleteBy hmono (by rw [hsub]; exact hrem.near)
        have hentry : ∀ x ∈ inorder (deleteBy c t),
            (m'.nodes.cell x).map HNode.entry = (m.nodes.cell x).map HNode.entry := by
          intro x hx
          refine hdel.entry x fun hxa => ?_
          rw [hin, List.mem_filter] at hx
          have hca := (locate_mem (locate_eq_of_subtreeBy hsub)).2
          rw [hxa] at hx
          simp [hca] at hx
        exact ⟨p', m', _, hrun, hdel.represents, hordered hin hentry, hin.trans hfilter, hentry⟩

/-- For every tree built by insertions and every key, `h_tree_delete` is deletion from a search tree if
and only if the node to remove is removable. The data of the tree can be destroyed (once). -/
theorem hTreeDelete_insertAll_iff {inserts : List (α × Ptr)} {m : HMem α β} {p : Ptr} {store : β}
    {errno : Int} {dataDestroy : DataModifyFn α β} {fuel : Nat}
    (hcmp : Compares dataCmp dataCmpKey keyOf store)
    (hrun : insertAll dataCmp inserts none ⟨Heap.empty, store, errno⟩ = .ok p m)
    (hd : ∀ a node, m.nodes.cell a = some node →
      ∃ store', dataDestroy node.data m.store = .ok store')
    (key : κ) (hfuel : m.nodes.next < fuel) :
    ∃ t, Represents m.nodes p t ∧ Ordered keyOf m.nodes t ∧
      ((∃ p' m' t', hTreeDelete key dataCmpKey dataDestroy fuel p m = .ok p' m' ∧
          KeyDeleted keyOf key m m' t p' t') ↔
        Removable dataDestroy m
          (subtreeBy (compareWith m.nodes fun data => dataCmpKey m.store data key) t)) := by
  obtain ⟨hstore, t, ht⟩ := insertAll_grown hcmp (grown_empty keyOf store errno) hrun
  exact ⟨t, ht.represents, ht.ordered,
    hTreeDelete_keyDeleted_iff (by rw [hstore]; exact hcmp) hd ht key hfuel⟩

end Grown

/-! ## Trees of numbers -/

/-- The comparison of numbers. -/
def natCmp : DataCmpFn Nat PUnit Nat := fun _ a b => .ok ((a : Int) - b)

/-- Destroying a number does nothing. -/
def natDestroy : DataModifyFn Nat PUnit := fun _ store => .ok store

/-- Numbers compare by their value. -/
theorem compares_natCmp : Compares natCmp natCmp id ⟨⟩ where
  data a b := ⟨(a : Int) - b, rfl, by simp only [id]; omega, by simp only [id]; omega⟩
  key a b := ⟨(a : Int) - b, rfl, by simp only [id]; omega, by simp only [id]; omega⟩

/-- Insert numbers, without hierarchical parents, into an empty tree. -/
def insertNumbers (numbers : List Nat) : EStateM.Result Fault (HMem Nat PUnit) Ptr :=
  insertAll natCmp (numbers.map fun n => (n, none)) none ⟨Heap.empty, ⟨⟩, 0⟩

/-- The equivalence for the deletion of `2` after inserting `2`, `1` and `6`. -/
theorem hTreeDelete_insertNumbers : ∃ m t, insertNumbers [2, 1, 6] = .ok (some 0) m ∧
    Represents m.nodes (some 0) t ∧ Ordered id m.nodes t ∧
    ((∃ p' m' t', hTreeDelete 2 natCmp natDestroy (m.nodes.next + 1) (some 0) m = .ok p' m' ∧
        KeyDeleted id 2 m m' t p' t') ↔
      Removable natDestroy m (subtreeBy (compareWith m.nodes fun data => natCmp m.store data 2) t)) := by
  obtain ⟨m, hm⟩ := Cmd.ret?_eq_some (r := insertNumbers [2, 1, 6]) (a := some 0) (by decide +kernel)
  obtain ⟨t, ht⟩ := hTreeDelete_insertAll_iff compares_natCmp hm
    (fun _ node _ => ⟨m.store, (rfl : natDestroy node.data m.store = _)⟩) 2
    (Nat.lt_succ_self m.nodes.next)
  exact ⟨m, t, hm, ht⟩

/-- The pointer returned, and the child pointers of the first five nodes. -/
def childPointers (r : EStateM.Result Fault (HMem Nat PUnit) Ptr) :
    Option (Ptr × List (Option (Ptr × Ptr))) :=
  match r with
  | .ok p m => some (p, (List.range 5).map fun a =>
      (m.nodes.cell a).map fun node => (node.left, node.right))
  | .error _ _ => none

/-- Insert numbers, then delete one. -/
def deleteNumber (numbers : List Nat) (key : Nat) : EStateM.Result Fault (HMem Nat PUnit) Ptr :=
  match insertNumbers numbers with
  | .ok p m => hTreeDelete key natCmp natDestroy (m.nodes.next + 1) p m
  | .error e m => .error e m

/-- Deleting `2` from the tree of `2`, `1`, `6`, `5` and `4` leaves no tree: the node of `4` is
returned, its right child is that of `6`, whose left child is that of `5`, whose left child is that of
`4`. -/
theorem not_forall_keyDeleted : ¬ ∀ (numbers : List Nat) (key : Nat) (m : HMem Nat PUnit) (p : Ptr),
    insertNumbers numbers = .ok p m → ∃ t, Represents m.nodes p t ∧
      ∃ p' m' t', hTreeDelete key natCmp natDestroy (m.nodes.next + 1) p m = .ok p' m' ∧
        KeyDeleted id key m m' t p' t' := by
  intro h
  obtain ⟨m, hm⟩ := Cmd.ret?_eq_some (r := insertNumbers [2, 1, 6, 5, 4]) (a := some 0)
    (by decide +kernel)
  obtain ⟨t, -, p', m', t', hrun, hdel⟩ := h [2, 1, 6, 5, 4] 2 m (some 0) hm
  have hchildren : childPointers (deleteNumber [2, 1, 6, 5, 4] 2) =
      some (some 4, [none, some (none, none), some (some 3, none), some (some 4, none),
        some (none, some 2)]) := by decide +kernel
  rw [deleteNumber, hm] at hchildren
  simp only [hrun, childPointers, Option.some.injEq, Prod.mk.injEq, List.range, List.range.loop,
    List.map_cons, List.map_nil, List.cons.injEq, Option.map_eq_some_iff] at hchildren
  obtain ⟨rfl, -, -, ⟨n₂, hn₂, hl₂, -⟩, ⟨n₃, hn₃, hl₃, -⟩, ⟨n₄, hn₄, -, hr₄⟩, -⟩ := hchildren
  have hlinked := linked_pointers hdel.represents.linked
  have hfun := nodePointers_fun m'.nodes
  obtain ⟨t₁, h₁, hlt₁⟩ := hlinked.descend_right hfun (m := 0) (n := 0) ⟨n₄, hn₄, rfl, hr₄⟩
  obtain ⟨t₂, h₂, hlt₂⟩ := h₁.descend_left hfun (m := 0) (n := 0) ⟨n₂, hn₂, hl₂, rfl⟩
  obtain ⟨t₃, h₃, hlt₃⟩ := h₂.descend_left hfun (m := 0) (n := 0) ⟨n₃, hn₃, hl₃, rfl⟩
  rw [← hlinked.unique hfun h₃] at hlt₃
  omega

end OsLabs.Fat
