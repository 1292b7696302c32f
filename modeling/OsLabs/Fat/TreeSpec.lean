import Mathlib.Data.List.Perm.Subperm
import OsLabs.Lib.SearchTree
import OsLabs.Fat.HierarchyTree

/-! # What the hierarchy tree represents

The binary tree behind a root pointer, and what a search and an insertion do to it.

* `Represents nodes p t`: the pointer `p` represents the tree of references `t`, whose nodes are
  distinct and carry the sizes of their subtrees;
* `LinksFrame S nodes nodes'`: only the binary-tree fields of the nodes in `S` changed;
* `hTreeSearch_run`, `hTreeInsert_located`, `hTreeInsert_new`: the operations compute `locate` and
  `insertBy` of the represented tree. -/

namespace OsLabs.Fat

open SearchTree

variable {α β κ : Type}

/-! ## Running the primitives -/

/-- A live node can be read. -/
theorem deref_run {m : HMem α β} {r : Nat} {node : HNode α} (h : m.nodes.cell r = some node) :
    deref r m = .ok node m := by
  unfold deref
  rw [Cmd.get_bind, h]
  rfl

/-- Reading a node changes nothing. -/
theorem within_deref (R : HMem α β → HMem α β → Prop) [Std.Refl R] (r : Nat) :
    Cmd.Within R (deref r : HM α β (HNode α)) :=
  Cmd.within_get_bind fun m => by
    cases m.nodes.cell r <;> exact Std.Refl.refl m

/-- Reading a node that was freed is a fault. -/
theorem deref_error {m : HMem α β} {r : Nat} (h : m.nodes.cell r = none) :
    (deref r : HM α β (HNode α)) m = .error .danglingPointer m := by
  unfold deref
  rw [Cmd.get_bind, h]
  rfl

/-- A live node can be changed in place. -/
theorem setNode_run {m : HMem α β} {r : Nat} {node : HNode α} (h : m.nodes.cell r = some node)
    (f : HNode α → HNode α) :
    setNode r f m = .ok ⟨⟩ { m with nodes := m.nodes.modify r f } := by
  unfold setNode
  rw [Cmd.bind_ok (deref_run h)]
  rfl

/-- A new node gets the next address. -/
theorem allocNode_run (m : HMem α β) (node : HNode α) :
    allocNode node m = .ok m.nodes.next { m with nodes := m.nodes.alloc node } := rfl

/-- A live node can be freed. -/
theorem freeNode_run {m : HMem α β} {r : Nat} {node : HNode α} (h : m.nodes.cell r = some node) :
    freeNode r m = .ok ⟨⟩ { m with nodes := m.nodes.free r } := by
  unfold freeNode
  rw [Cmd.bind_ok (deref_run h)]
  rfl

/-- A comparison that answers changes nothing. -/
theorem compareData_run {m : HMem α β} {f : β → Except Fault Int} {c : Int}
    (h : f m.store = .ok c) : compareData f m = .ok c m := by
  unfold compareData
  rw [Cmd.get_bind, h]
  rfl

/-- A comparison that faults ends the call. -/
theorem compareData_error {m : HMem α β} {f : β → Except Fault Int} {e : Fault}
    (h : f m.store = .error e) : compareData f m = .error e m := by
  unfold compareData
  rw [Cmd.get_bind, h]
  rfl

/-- A change of the data that succeeds is a change of the store. -/
theorem modifyData_run {m : HMem α β} {f : DataModifyFn α β} {data : α} {store : β}
    (h : f data m.store = .ok store) :
    modifyData f data m = .ok ⟨⟩ { m with store := store } := by
  unfold modifyData
  rw [Cmd.get_bind, h]
  rfl

/-- A change of the data that faults ends the call. -/
theorem modifyData_error {m : HMem α β} {f : DataModifyFn α β} {data : α} {e : Fault}
    (h : f data m.store = .error e) : modifyData f data m = .error e m := by
  unfold modifyData
  rw [Cmd.get_bind, h]
  rfl

/-! ## Represented trees -/

/-- The fields of a node that place it in the hierarchy, and its data. -/
def HNode.hier (node : HNode α) : α × Ptr × Ptr × Ptr :=
  (node.data, node.hParent, node.hNextSibling, node.hChildren)

/-- What the node at an address records about the binary tree. -/
def nodeLinks (nodes : Heap (HNode α)) (a : Nat) (pl pr : Ptr) (m n : Nat) : Prop :=
  ∃ node, nodes.cell a = some node ∧ node.left = pl ∧ node.right = pr ∧ node.size = 1 + m + n

/-- A pointer represents a tree of distinct references. -/
structure Represents (nodes : Heap (HNode α)) (p : Ptr) (t : BinaryTree Nat) : Prop where
  linked : Linked (nodeLinks nodes) p t
  nodup : (inorder t).Nodup

/-- A node has one left and one right pointer. -/
theorem nodeLinks_fun (nodes : Heap (HNode α)) (a : Nat) (pl pr : Ptr) (m n : Nat) (pl' pr' : Ptr)
    (m' n' : Nat) (h : nodeLinks nodes a pl pr m n) (h' : nodeLinks nodes a pl' pr' m' n') :
    pl = pl' ∧ pr = pr' := by
  obtain ⟨node, hc, rfl, rfl, -⟩ := h
  obtain ⟨node', hc', rfl, rfl, -⟩ := h'
  rw [hc] at hc'
  cases hc'
  exact ⟨rfl, rfl⟩

/-- A pointer is the root of one tree at most. -/
theorem Represents.unique {nodes : Heap (HNode α)} {p : Ptr} {t t' : BinaryTree Nat}
    (h : Represents nodes p t) (h' : Represents nodes p t') : t = t' :=
  h.linked.unique (nodeLinks_fun nodes) h'.linked

/-- The nodes of a represented tree are live. -/
theorem live_of_linked {nodes : Heap (HNode α)} {p : Ptr} {t : BinaryTree Nat}
    (h : Linked (nodeLinks nodes) p t) {a : Nat} (ha : a ∈ inorder t) :
    ∃ node, nodes.cell a = some node := by
  induction t generalizing p with
  | nil => simp at ha
  | node b l r ihl ihr =>
      obtain ⟨-, pl, pr, ⟨node, hc, -⟩, hl, hr⟩ := h
      rw [inorder_node, List.mem_append, List.mem_cons] at ha
      rcases ha with ha | rfl | ha
      · exact ihl hl ha
      · exact ⟨node, hc⟩
      · exact ihr hr ha

/-- A represented tree has no more nodes than were ever allocated. -/
theorem Represents.numNodes_le {nodes : Heap (HNode α)} {p : Ptr} {t : BinaryTree Nat}
    (h : Represents nodes p t) : t.numNodes ≤ nodes.next := by
  rw [← length_inorder]
  have hsub : inorder t ⊆ List.range nodes.next := fun a ha => by
    obtain ⟨node, hc⟩ := live_of_linked h.linked ha
    exact List.mem_range.mpr (Heap.lt_next hc)
  have := (List.Nodup.subperm h.nodup hsub).length_le
  rwa [List.length_range] at this

/-- One more than the number of allocated nodes is enough fuel for a represented tree. -/
theorem Represents.height_lt {nodes : Heap (HNode α)} {p : Ptr} {t : BinaryTree Nat}
    (h : Represents nodes p t) : t.height < nodes.next + 1 := by
  have := h.numNodes_le
  have := height_le_numNodes t
  omega

/-- The parts of a represented tree. -/
theorem represents_node {nodes : Heap (HNode α)} {p : Ptr} {a : Nat} {l r : BinaryTree Nat}
    (h : Represents nodes p (.node a l r)) :
    p = some a ∧ ∃ node, nodes.cell a = some node ∧ node.size = 1 + l.numNodes + r.numNodes ∧
      Represents nodes node.left l ∧ Represents nodes node.right r := by
  obtain ⟨⟨hp, pl, pr, ⟨node, hc, rfl, rfl, hs⟩, hl, hr⟩, hn⟩ := h
  obtain ⟨hnl, hnr, -⟩ := nodup_node hn
  exact ⟨hp, node, hc, hs, ⟨hl, hnl⟩, ⟨hr, hnr⟩⟩

/-- The parts of a represented tree make it up. -/
theorem represents_node_of {nodes : Heap (HNode α)} {a : Nat} {node : HNode α}
    {l r : BinaryTree Nat} (hc : nodes.cell a = some node)
    (hs : node.size = 1 + l.numNodes + r.numNodes) (hl : Represents nodes node.left l)
    (hr : Represents nodes node.right r) (hn : (inorder (.node a l r)).Nodup) :
    Represents nodes (some a) (.node a l r) :=
  ⟨⟨rfl, node.left, node.right, ⟨node, hc, rfl, rfl, hs⟩, hl.linked, hr.linked⟩, hn⟩

/-- `NULL` is the root of the empty tree. -/
theorem represents_nil (nodes : Heap (HNode α)) : Represents nodes none .nil := ⟨rfl, List.nodup_nil⟩

/-- A represented tree does not depend on other nodes, nor on the hierarchy. -/
theorem Represents.congr {nodes nodes' : Heap (HNode α)} {p : Ptr} {t : BinaryTree Nat}
    (h : Represents nodes p t)
    (heq : ∀ a ∈ inorder t, ∀ node, nodes.cell a = some node → ∃ node', nodes'.cell a = some node' ∧
      node'.left = node.left ∧ node'.right = node.right ∧ node'.size = node.size) :
    Represents nodes' p t := by
  refine ⟨h.linked.congr ?_, h.nodup⟩
  rintro a ha pl pr m n ⟨node, hc, rfl, rfl, hs⟩
  obtain ⟨node', hc', hl, hr, hs'⟩ := heq a ha node hc
  exact ⟨node', hc', hl, hr, by rw [hs', hs]⟩

/-- Only the binary-tree fields of the nodes in `S` differ. -/
structure LinksFrame (S : Nat → Prop) (nodes nodes' : Heap (HNode α)) : Prop where
  next : nodes'.next = nodes.next
  hier : ∀ a, (nodes'.cell a).map HNode.hier = (nodes.cell a).map HNode.hier
  same : ∀ a, ¬ S a → nodes'.cell a = nodes.cell a

namespace LinksFrame

variable {S S' : Nat → Prop} {n₁ n₂ n₃ : Heap (HNode α)}

/-- Nothing changes between a heap and itself. -/
theorem refl (S : Nat → Prop) (nodes : Heap (HNode α)) : LinksFrame S nodes nodes :=
  ⟨rfl, fun _ => rfl, fun _ _ => rfl⟩

/-- Links changed in two steps are links changed at once. -/
theorem trans (h : LinksFrame S n₁ n₂) (h' : LinksFrame S n₂ n₃) : LinksFrame S n₁ n₃ :=
  ⟨h'.next.trans h.next, fun a => (h'.hier a).trans (h.hier a),
    fun a ha => (h'.same a ha).trans (h.same a ha)⟩

/-- A frame that allows more links allows these. -/
theorem mono (h : LinksFrame S n₁ n₂) (hS : ∀ a, S a → S' a) : LinksFrame S' n₁ n₂ :=
  ⟨h.next, h.hier, fun a ha => h.same a fun h' => ha (hS a h')⟩

/-- Modifying one node without touching its hierarchy fields. -/
theorem modify (nodes : Heap (HNode α)) (r : Nat) (f : HNode α → HNode α)
    (hf : ∀ node, (f node).hier = node.hier) : LinksFrame (· = r) nodes (nodes.modify r f) := by
  refine ⟨rfl, fun a => ?_, fun a ha => Heap.cell_modify_ne ha f⟩
  rw [Heap.cell_modify]
  split
  · cases nodes.cell a with
    | none => rfl
    | some node => exact congrArg some (hf node)
  · rfl

/-- A node whose address is live before is live after, with the same hierarchy fields. -/
theorem live (h : LinksFrame S n₁ n₂) {a : Nat} {node : HNode α} (hc : n₁.cell a = some node) :
    ∃ node', n₂.cell a = some node' ∧ node'.hier = node.hier := by
  have := h.hier a
  rw [hc] at this
  cases hc' : n₂.cell a with
  | none =>
      rw [hc'] at this
      cases this
  | some node' =>
      rw [hc'] at this
      exact ⟨node', rfl, Option.some.inj this⟩

/-- A tree outside the frame stays represented. -/
theorem represents (h : LinksFrame S n₁ n₂) {p : Ptr} {t : BinaryTree Nat}
    (hr : Represents n₁ p t) (hS : ∀ a ∈ inorder t, ¬ S a) : Represents n₂ p t :=
  hr.congr fun a ha node hc => ⟨node, by rw [h.same a (hS a ha), hc], rfl, rfl, rfl⟩

end LinksFrame

/-! ## Sizes -/

/-- `h_tree_size` reads the number of nodes. -/
theorem hTreeSize_run {m : HMem α β} {p : Ptr} {t : BinaryTree Nat}
    (h : Represents m.nodes p t) : hTreeSize p m = .ok t.numNodes m := by
  cases t with
  | nil =>
      obtain rfl := h.linked
      rfl
  | node a l r =>
      obtain ⟨rfl, node, hc, hs, -, -⟩ := represents_node h
      rw [hTreeSize, Cmd.bind_ok (deref_run hc), Cmd.pure_run, hs]
      congr 1
      simp only [BinaryTree.numNodes]
      push_cast
      omega

/-- Recompute the size of a node whose links are right. -/
theorem resize_run {m : HMem α β} {r : Nat} {node : HNode α} {tl tr : BinaryTree Nat}
    (hc : m.nodes.cell r = some node) (hl : Represents m.nodes node.left tl)
    (hr : Represents m.nodes node.right tr) (hn : (inorder (.node r tl tr)).Nodup) :
    ∃ nodes, (∀ {γ : Type} (rest : HM α β γ),
        (do updateSize r; rest) m = rest { m with nodes := nodes }) ∧
      Represents nodes (some r) (.node r tl tr) ∧ LinksFrame (· = r) m.nodes nodes := by
  obtain ⟨-, -, hrl, hrr, -⟩ := nodup_node hn
  let size := fun node : HNode α => { node with size := (1 + tl.numNodes + tr.numNodes : Int) }
  have hframe := LinksFrame.modify m.nodes r size fun _ => rfl
  refine ⟨m.nodes.modify r size, fun rest => ?_, ?_, hframe⟩
  · have hsize : updateSize r m = .ok ⟨⟩ { m with nodes := m.nodes.modify r size } := by
      unfold updateSize
      rw [Cmd.bind_ok (deref_run hc), Cmd.bind_ok (hTreeSize_run hl),
        Cmd.bind_ok (hTreeSize_run hr), setNode_run hc]
    rw [Cmd.bind_ok hsize]
  · exact represents_node_of (Heap.cell_modify_self hc size) rfl
      (hframe.represents hl fun a ha h => hrl (h ▸ ha))
      (hframe.represents hr fun a ha h => hrr (h ▸ ha)) hn

/-- Give a node its subtrees, by an update `f` of its links, and recompute its size. -/
theorem relink_run {m : HMem α β} {r : Nat} {node : HNode α} {tl tr : BinaryTree Nat}
    (f : HNode α → HNode α) (hc : m.nodes.cell r = some node)
    (hf : ∀ node, (f node).hier = node.hier)
    (hl : Represents m.nodes (f node).left tl) (hr : Represents m.nodes (f node).right tr)
    (hn : (inorder (.node r tl tr)).Nodup) :
    ∃ nodes, (∀ {γ : Type} (rest : HM α β γ),
        (do setNode r f; updateSize r; rest) m = rest { m with nodes := nodes }) ∧
      Represents nodes (some r) (.node r tl tr) ∧ LinksFrame (· = r) m.nodes nodes := by
  obtain ⟨-, -, hrl, hrr, -⟩ := nodup_node hn
  have hframe := LinksFrame.modify m.nodes r f hf
  obtain ⟨nodes, hrun, hrep, hframe'⟩ := resize_run (m := { m with nodes := m.nodes.modify r f })
    (Heap.cell_modify_self hc f) (hframe.represents hl fun a ha h => hrl (h ▸ ha))
    (hframe.represents hr fun a ha h => hrr (h ▸ ha)) hn
  refine ⟨nodes, fun rest => ?_, hrep, hframe.trans hframe'⟩
  rw [Cmd.bind_ok (setNode_run hc f), hrun]

/-! ## Searching -/

/-- The comparison with a node of the tree, as an integer. -/
def ComparesAs (nodes : Heap (HNode α)) (t : BinaryTree Nat) (cmp : α → Except Fault Int)
    (c : Nat → Int) : Prop :=
  ∀ a ∈ inorder t, ∀ node, nodes.cell a = some node → cmp node.data = .ok (c a)

/-- The comparison is good for the left subtree. -/
theorem ComparesAs.left {nodes : Heap (HNode α)} {a : Nat} {l r : BinaryTree Nat}
    {cmp : α → Except Fault Int} {c : Nat → Int} (h : ComparesAs nodes (.node a l r) cmp c) :
    ComparesAs nodes l cmp c :=
  fun b hb => h b (by simp [hb])

/-- The comparison is good for the right subtree. -/
theorem ComparesAs.right {nodes : Heap (HNode α)} {a : Nat} {l r : BinaryTree Nat}
    {cmp : α → Except Fault Int} {c : Nat → Int} (h : ComparesAs nodes (.node a l r) cmp c) :
    ComparesAs nodes r cmp c :=
  fun b hb => h b (by simp [hb])

/-- The comparison is good for the root. -/
theorem ComparesAs.root {nodes : Heap (HNode α)} {a : Nat} {l r : BinaryTree Nat}
    {cmp : α → Except Fault Int} {c : Nat → Int} (h : ComparesAs nodes (.node a l r) cmp c)
    {node : HNode α} (hc : nodes.cell a = some node) : cmp node.data = .ok (c a) :=
  h a (by simp) node hc

/-- A search computes `locate` and leaves memory alone. -/
theorem hTreeSearch_run {m : HMem α β} {p : Ptr} {t : BinaryTree Nat} {key : κ}
    {dataCmpKey : DataCmpFn α β κ} {c : Nat → Int} {fuel : Nat} (h : Represents m.nodes p t)
    (hcmp : ComparesAs m.nodes t (fun data => dataCmpKey m.store data key) c)
    (hfuel : t.height < fuel) :
    hTreeSearch key dataCmpKey fuel p m = .ok (locate c t) m := by
  induction t generalizing p fuel with
  | nil =>
      obtain rfl := h.linked
      obtain ⟨fuel, rfl⟩ := Nat.exists_eq_succ_of_ne_zero (Nat.ne_of_gt hfuel)
      rfl
  | node a l r ihl ihr =>
      obtain ⟨rfl, node, hc, -, hl, hr⟩ := represents_node h
      obtain ⟨fuel, rfl⟩ := Nat.exists_eq_succ_of_ne_zero (Nat.ne_of_gt (Nat.zero_lt_of_lt hfuel))
      have hlt : max l.height r.height < fuel := Nat.lt_of_succ_lt_succ hfuel
      rw [hTreeSearch, Cmd.bind_ok (deref_run hc), Cmd.bind_ok (compareData_run (hcmp.root hc)),
        locate]
      by_cases hneg : c a < 0
      · rw [if_pos hneg, if_pos hneg, ihr hr hcmp.right (by omega)]
      · rw [if_neg hneg, if_neg hneg]
        by_cases hpos : c a > 0
        · rw [if_pos hpos, if_pos hpos, ihl hl hcmp.left (by omega)]
        · rw [if_neg hpos, if_neg hpos]
          rfl

/-! ## Inserting -/

/-- The nodes after `h_node_init`: a new node, at the head of the children of its parent. -/
def hNodeInitHeap (nodes : Heap (HNode α)) (newData : α) (hParent : Ptr) : Heap (HNode α) :=
  let firstChild := hParent.bind fun p => (nodes.cell p).bind (·.hChildren)
  let allocated := nodes.alloc ⟨newData, none, none, hParent, firstChild, none, 1⟩
  match hParent with
  | some p => allocated.modify p fun node => { node with hChildren := some nodes.next }
  | none => allocated

/-- `h_node_init` allocates a node at the head of the children of its parent. -/
theorem hNodeInit_run {m : HMem α β} {newData : α} {hParent : Ptr}
    (hp : ∀ p, hParent = some p → ∃ node, m.nodes.cell p = some node) :
    hNodeInit newData hParent m =
      .ok m.nodes.next { m with nodes := hNodeInitHeap m.nodes newData hParent } := by
  cases hParent with
  | none => rfl
  | some p =>
      obtain ⟨parent, hc⟩ := hp p rfl
      rw [hNodeInit, Cmd.bind_ok (deref_run hc)]
      have hfirst : (some p).bind (fun p => (m.nodes.cell p).bind (·.hChildren)) =
          parent.hChildren := by
        rw [Option.bind_some, hc, Option.bind_some]
      rw [hNodeInitHeap, hfirst]
      have halloc := Heap.cell_alloc_of_live hc
        ⟨newData, none, none, some p, parent.hChildren, none, 1⟩
      rw [Cmd.bind_ok (allocNode_run m _), Cmd.bind_ok (setNode_run halloc _)]
      rfl

/-- `h_node_init` takes one address. -/
theorem next_hNodeInitHeap (nodes : Heap (HNode α)) (newData : α) (hParent : Ptr) :
    (hNodeInitHeap nodes newData hParent).next = nodes.next + 1 := by
  cases hParent <;> rfl

/-- The new node. -/
theorem cell_hNodeInitHeap_next {nodes : Heap (HNode α)} (newData : α) {hParent : Ptr}
    (hp : ∀ p, hParent = some p → ∃ node, nodes.cell p = some node) :
    (hNodeInitHeap nodes newData hParent).cell nodes.next =
      some ⟨newData, none, none, hParent, hParent.bind fun p => (nodes.cell p).bind (·.hChildren),
        none, 1⟩ := by
  cases hParent with
  | none => exact Heap.cell_alloc_next nodes _
  | some p =>
      obtain ⟨parent, hc⟩ := hp p rfl
      show ((nodes.alloc _).modify p _).cell nodes.next = _
      rw [Heap.cell_modify_ne (Nat.ne_of_gt (Heap.lt_next hc)), Heap.cell_alloc_next]

/-- The other nodes keep everything but the list of children of the parent. -/
theorem cell_hNodeInitHeap {nodes : Heap (HNode α)} {newData : α} {hParent : Ptr} {a : Nat}
    (ha : a ≠ nodes.next) :
    (hNodeInitHeap nodes newData hParent).cell a = (nodes.cell a).map fun node =>
      if hParent = some a then { node with hChildren := some nodes.next } else node := by
  cases hParent with
  | none =>
      show (nodes.alloc _).cell a = _
      rw [Heap.cell_alloc_ne ha]
      simp
  | some p =>
      show ((nodes.alloc _).modify p _).cell a = _
      rw [Heap.cell_modify, Heap.cell_alloc_ne ha]
      by_cases hap : a = p
      · subst hap
        simp
      · rw [if_neg hap]
        have : ¬ (some p = some a) := fun h => hap (Option.some.inj h).symm
        simp [this]

/-- A live node after `h_node_init`, with its links and data unchanged. -/
theorem live_hNodeInitHeap {nodes : Heap (HNode α)} {a : Nat} {node : HNode α}
    (hc : nodes.cell a = some node) (newData : α) (hParent : Ptr) :
    ∃ node', (hNodeInitHeap nodes newData hParent).cell a = some node' ∧ node'.left = node.left ∧
      node'.right = node.right ∧ node'.size = node.size ∧ node'.data = node.data := by
  rw [cell_hNodeInitHeap (Nat.ne_of_lt (Heap.lt_next hc)), hc]
  refine ⟨_, rfl, ?_⟩
  split <;> exact ⟨rfl, rfl, rfl, rfl⟩

/-- The trees represented before `h_node_init` are represented after it. -/
theorem represents_hNodeInitHeap {nodes : Heap (HNode α)} {p : Ptr} {t : BinaryTree Nat}
    (h : Represents nodes p t) (newData : α) (hParent : Ptr) :
    Represents (hNodeInitHeap nodes newData hParent) p t :=
  h.congr fun a _ node hc => by
    obtain ⟨node', hc', hl, hr, hs, -⟩ := live_hNodeInitHeap hc newData hParent
    exact ⟨node', hc', hl, hr, hs⟩

section Insert

variable {m : HMem α β} {newData : α} {hParent : Ptr} {dataCmp : DataCmpFn α β α} {c : Nat → Int}

variable (hParent) in
/-- A path that meets an equal key is rebuilt as it was. -/
theorem hTreeInsert_located {p : Ptr} {t : BinaryTree Nat} {fuel : Nat} {x : Nat}
    (h : Represents m.nodes p t)
    (hcmp : ComparesAs m.nodes t (fun data => dataCmp m.store newData data) c)
    (hfuel : t.height < fuel) (hloc : locate (fun a => -c a) t = some x) :
    ∃ nodes, hTreeInsert newData hParent dataCmp fuel p m = .ok p { m with nodes := nodes } ∧
      Represents nodes p t ∧ LinksFrame (· ∈ inorder t) m.nodes nodes := by
  -- By induction over the tree, along the path of the comparisons.
  induction t generalizing p fuel with
  | nil => simp [locate] at hloc
  | node a l r ihl ihr =>
      obtain ⟨rfl, node, hc, -, hl, hr⟩ := represents_node h
      obtain ⟨fuel, rfl⟩ := Nat.exists_eq_succ_of_ne_zero (Nat.ne_of_gt (Nat.zero_lt_of_lt hfuel))
      have hlt : max l.height r.height < fuel := Nat.lt_of_succ_lt_succ hfuel
      obtain ⟨-, -, hal, har, hlr⟩ := nodup_node h.nodup
      rw [hTreeInsert, Cmd.bind_ok (deref_run hc), Cmd.bind_ok (compareData_run (hcmp.root hc))]
      rw [locate] at hloc
      split_ifs at hloc with h1 h2
      -- The key is on the right: the recursive call gives back the same subtree, which is linked again.
      · obtain ⟨nodes, hrun, hrep, hframe⟩ := ihr hr hcmp.right (by omega : _ < fuel) hloc
        have hca : nodes.cell a = some node := by rw [hframe.same a har, hc]
        obtain ⟨nodes', hrun', hrep', hframe'⟩ := relink_run
          (m := { m with nodes := nodes }) (fun n => { n with right := node.right }) hca
          (fun _ => rfl) (hframe.represents hl hlr) hrep h.nodup
        refine ⟨nodes', ?_, hrep', (hframe.mono fun b hb => by simp [hb]).trans
          (hframe'.mono fun b hb => by simp [hb])⟩
        rw [if_pos (by omega), Cmd.bind_ok hrun, hrun']
        rfl
      · obtain ⟨nodes, hrun, hrep, hframe⟩ := ihl hl hcmp.left (by omega : _ < fuel) hloc
        have hca : nodes.cell a = some node := by rw [hframe.same a hal, hc]
        obtain ⟨nodes', hrun', hrep', hframe'⟩ := relink_run
          (m := { m with nodes := nodes }) (fun n => { n with left := node.left }) hca
          (fun _ => rfl) hrep (hframe.represents hr fun b hb hb' => hlr b hb' hb) h.nodup
        refine ⟨nodes', ?_, hrep', (hframe.mono fun b hb => by simp [hb]).trans
          (hframe'.mono fun b hb => by simp [hb])⟩
        rw [if_neg (by omega), if_pos (by omega), Cmd.bind_ok hrun, hrun']
        rfl
      -- The key is here: only the size is computed once more.
      · obtain ⟨nodes', hrun', hrep', hframe'⟩ := resize_run hc hl hr h.nodup
        refine ⟨nodes', ?_, hrep', hframe'.mono fun b hb => by simp [hb]⟩
        rw [if_neg (by omega), if_neg (by omega), hrun']
        rfl

/-- A new key is inserted where the comparison leads. -/
theorem hTreeInsert_new {p : Ptr} {t : BinaryTree Nat} {fuel : Nat}
    (h : Represents m.nodes p t)
    (hcmp : ComparesAs m.nodes t (fun data => dataCmp m.store newData data) c)
    (hfuel : t.height < fuel) (hloc : locate (fun a => -c a) t = none)
    (hp : ∀ p, hParent = some p → ∃ node, m.nodes.cell p = some node) :
    ∃ p' nodes, hTreeInsert newData hParent dataCmp fuel p m = .ok p' { m with nodes := nodes } ∧
      Represents nodes p' (insertBy c m.nodes.next t) ∧
      LinksFrame (· ∈ inorder t) (hNodeInitHeap m.nodes newData hParent) nodes := by
  induction t generalizing p fuel with
  -- The path ends in an empty subtree, and the new node takes its place.
  | nil =>
      obtain rfl := h.linked
      obtain ⟨fuel, rfl⟩ := Nat.exists_eq_succ_of_ne_zero (Nat.ne_of_gt hfuel)
      refine ⟨some m.nodes.next, hNodeInitHeap m.nodes newData hParent, ?_, ?_,
        LinksFrame.refl _ _⟩
      · rw [hTreeInsert, Cmd.bind_ok (hNodeInit_run hp)]
        rfl
      · exact represents_node_of (cell_hNodeInitHeap_next _ hp) rfl (represents_nil _)
          (represents_nil _) (List.nodup_singleton _)
  | node a l r ihl ihr =>
      obtain ⟨rfl, node, hc, -, hl, hr⟩ := represents_node h
      obtain ⟨fuel, rfl⟩ := Nat.exists_eq_succ_of_ne_zero (Nat.ne_of_gt (Nat.zero_lt_of_lt hfuel))
      have hlt : max l.height r.height < fuel := Nat.lt_of_succ_lt_succ hfuel
      obtain ⟨-, -, hal, har, hlr⟩ := nodup_node h.nodup
      have hx : m.nodes.next ∉ inorder (.node a l r) := fun hx => by
        obtain ⟨_, hlive⟩ := live_of_linked h.linked hx
        exact absurd (Heap.lt_next hlive) (Nat.lt_irrefl _)
      have hnodup := nodup_insertBy hloc h.nodup hx
      obtain ⟨node', hc', hleft, hright, -⟩ := live_hNodeInitHeap hc newData hParent
      rw [hTreeInsert, Cmd.bind_ok (deref_run hc), Cmd.bind_ok (compareData_run (hcmp.root hc))]
      rw [locate] at hloc
      rw [insertBy] at hnodup ⊢
      split_ifs at hloc with h1 h2
      · have hpos : c a > 0 := by omega
        rw [if_pos hpos] at hnodup
        rw [if_pos hpos, if_pos hpos]
        obtain ⟨right, nodes, hrun, hrep, hframe⟩ :=
          ihr hr hcmp.right (by omega : _ < fuel) hloc
        have hca : nodes.cell a = some node' := by rw [hframe.same a har, hc']
        have hl' : Represents nodes node'.left l := by
          rw [hleft]
          exact hframe.represents (represents_hNodeInitHeap hl newData hParent) hlr
        obtain ⟨nodes', hrun', hrep', hframe'⟩ := relink_run
          (m := { m with nodes := nodes }) (fun node => { node with right := right }) hca
          (fun _ => rfl) hl' hrep hnodup
        refine ⟨some a, nodes', ?_, hrep', (hframe.mono fun b hb => by simp [hb]).trans
          (hframe'.mono fun b hb => by simp [hb])⟩
        rw [Cmd.bind_ok hrun, hrun']
        rfl
      · have hneg : ¬ c a > 0 := by omega
        have hpos : c a < 0 := by omega
        rw [if_neg hneg, if_pos hpos] at hnodup
        rw [if_neg hneg, if_pos hpos, if_neg hneg, if_pos hpos]
        obtain ⟨left, nodes, hrun, hrep, hframe⟩ :=
          ihl hl hcmp.left (by omega : _ < fuel) hloc
        have hca : nodes.cell a = some node' := by rw [hframe.same a hal, hc']
        have hr' : Represents nodes node'.right r := by
          rw [hright]
          exact hframe.represents (represents_hNodeInitHeap hr newData hParent)
            fun b hb hb' => hlr b hb' hb
        obtain ⟨nodes', hrun', hrep', hframe'⟩ := relink_run
          (m := { m with nodes := nodes }) (fun node => { node with left := left }) hca
          (fun _ => rfl) hrep hr' hnodup
        refine ⟨some a, nodes', ?_, hrep', (hframe.mono fun b hb => by simp [hb]).trans
          (hframe'.mono fun b hb => by simp [hb])⟩
        rw [Cmd.bind_ok hrun, hrun']
        rfl

/-- Inserting a new key under a parent that is not live faults. -/
theorem hTreeInsert_dangling {p : Ptr} {t : BinaryTree Nat} {fuel q : Nat}
    (h : Represents m.nodes p t)
    (hcmp : ComparesAs m.nodes t (fun data => dataCmp m.store newData data) c)
    (hfuel : t.height < fuel) (hloc : locate (fun a => -c a) t = none)
    (hp : hParent = some q) (hq : m.nodes.cell q = none) :
    hTreeInsert newData hParent dataCmp fuel p m = .error .danglingPointer m := by
  induction t generalizing p fuel with
  | nil =>
      obtain rfl := h.linked
      obtain ⟨fuel, rfl⟩ := Nat.exists_eq_succ_of_ne_zero (Nat.ne_of_gt hfuel)
      subst hp
      rw [hTreeInsert, hNodeInit]
      exact Cmd.bind_error (Cmd.bind_error (deref_error hq))
  | node a l r ihl ihr =>
      obtain ⟨rfl, node, hc, -, hl, hr⟩ := represents_node h
      obtain ⟨fuel, rfl⟩ := Nat.exists_eq_succ_of_ne_zero (Nat.ne_of_gt (Nat.zero_lt_of_lt hfuel))
      have hlt : max l.height r.height < fuel := Nat.lt_of_succ_lt_succ hfuel
      rw [hTreeInsert, Cmd.bind_ok (deref_run hc), Cmd.bind_ok (compareData_run (hcmp.root hc))]
      rw [locate] at hloc
      split_ifs at hloc with h1 h2
      · rw [if_pos (by omega)]
        exact Cmd.bind_error (ihr hr hcmp.right (by omega : _ < fuel) hloc)
      · rw [if_neg (by omega), if_pos (by omega)]
        exact Cmd.bind_error (ihl hl hcmp.left (by omega : _ < fuel) hloc)

end Insert

end OsLabs.Fat
