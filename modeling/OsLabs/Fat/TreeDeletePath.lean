import OsLabs.Fat.TreeDelete

/-! # Deleting from the hierarchy tree

What `h_tree_delete` does to the represented tree. The node to remove is found as in a search, its
subtree is replaced by what the removal returns, and the sizes above it are recomputed
(`hTreeDelete_at`). If the removal leaves a tree, the whole is a tree again; a tree at the root of the
whole is a tree at the place of the removal (`PathRebuilt`). -/

namespace OsLabs.Fat

open SearchTree

variable {α β κ : Type}

/-! ## The path to the removed node -/

/-- Unlink a node from its siblings and remove it from its place. -/
def removeNode (dataDestroy : DataModifyFn α β) (a : Nat) : HM α β Ptr := do
  removeChildFromH a
  deleteRoot dataDestroy 2 a

/-- A change that keeps the sizes keeps what is read of them. -/
theorem SizeAt.modify {nodes : Heap (HNode α)} {p : Ptr} {k : Int} (h : SizeAt nodes p k) (r : Nat)
    {f : HNode α → HNode α} (hf : ∀ node, (f node).size = node.size) :
    SizeAt (nodes.modify r f) p k := by
  cases p with
  | none => exact h
  | some q =>
      obtain ⟨node, hc, hs⟩ := h
      by_cases hqr : q = r
      · subst hqr
        exact ⟨f node, Heap.cell_modify_self hc f, by rw [hf, hs]⟩
      · exact ⟨node, by rw [Heap.cell_modify_ne hqr, hc], hs⟩

/-- The size read is determined. -/
theorem SizeAt.unique {nodes : Heap (HNode α)} {p : Ptr} {k k' : Int} (h : SizeAt nodes p k)
    (h' : SizeAt nodes p k') : k = k' := by
  cases p with
  | none => exact h.trans h'.symm
  | some q =>
      obtain ⟨node, hc, rfl⟩ := h
      obtain ⟨node', hc', rfl⟩ := h'
      rw [hc] at hc'
      cases hc'
      rfl

/-- Store a link of a node and recompute its size. -/
theorem setNode_updateSize_run {m : HMem α β} {r : Nat} {node : HNode α} {kl kr : Int}
    (f : HNode α → HNode α) (hc : m.nodes.cell r = some node)
    (hf : ∀ node, (f node).size = node.size) (hl : SizeAt m.nodes (f node).left kl)
    (hr : SizeAt m.nodes (f node).right kr) {γ : Type} (rest : HM α β γ) :
    (do setNode r f; updateSize r; rest) m = rest { m with
      nodes := (m.nodes.modify r f).modify r fun node => { node with size := 1 + kl + kr } } := by
  have hc' := Heap.cell_modify_self hc f
  have hsize : updateSize r ⟨m.nodes.modify r f, m.store, m.errno⟩ = .ok ⟨⟩ { m with
      nodes := (m.nodes.modify r f).modify r fun node => { node with size := 1 + kl + kr } } := by
    unfold updateSize
    rw [Cmd.bind_ok (deref_run hc'), Cmd.bind_ok (hTreeSize_of_sizeAt (hl.modify r hf)),
      Cmd.bind_ok (hTreeSize_of_sizeAt (hr.modify r hf)), setNode_run hc']
  rw [Cmd.bind_ok (setNode_run hc f), Cmd.bind_ok hsize]

section Path

variable {m : HMem α β} {key : κ} {dataCmpKey : DataCmpFn α β κ} {dataDestroy : DataModifyFn α β}
  {c : Nat → Int}

/-- The result of a deletion along the path to a removed node, in terms of the memory `m₁` and the
pointer `q` that the removal left. -/
structure PathRebuilt (c : Nat → Int) (t sub : BinaryTree Nat) (q p' : Ptr)
    (n₁ nodes : Heap (HNode α)) : Prop where
  frame : LinksFrame (fun x => x ∈ inorder t ∧ x ∉ inorder sub) n₁ nodes
  size : ∃ k, SizeAt nodes p' k
  represents : ∀ s, Represents n₁ q s → inorder s ⊆ inorder sub → Represents nodes p' (replaceBy c s t)
  reaches : ∀ nodes' : Heap (HNode α),
    (∀ x ∈ inorder t, x ∉ inorder sub → nodes'.cell x = nodes.cell x) →
      ∀ t', Linked (nodePointers nodes') p' t' → ∃ s, Linked (nodePointers nodes') q s

/-- One step of the path, to the right. -/
theorem PathRebuilt.right {b : Nat} {tl tr sub : BinaryTree Nat} {q right : Ptr}
    {n₁ nodes : Heap (HNode α)} {node : HNode α} {kr : Int} (h : PathRebuilt c tr sub q right n₁ nodes)
    (hn : (inorder (.node b tl tr)).Nodup) (hsub : subtreeBy c (.node b tl tr) = sub)
    (hneg : c b < 0) (hc : nodes.cell b = some node) (hl : Represents nodes node.left tl)
    (hr : SizeAt nodes right kr) :
    PathRebuilt c (.node b tl tr) sub q (some b) n₁
      ((nodes.modify b fun node => { node with right := right }).modify b fun node =>
        { node with size := 1 + (tl.numNodes : Int) + kr }) := by
  obtain ⟨-, -, hbl, hbr, hlr⟩ := nodup_node hn
  have hsub' : subtreeBy c tr = sub := by
    rw [subtreeBy, if_neg (by omega), if_pos hneg] at hsub
    exact hsub
  have hbs : b ∉ inorder sub := fun hb => hbr (mem_of_mem_subtreeBy (hsub' ▸ hb))
  have hc₁ := Heap.cell_modify_self hc fun node => { node with right := right }
  have hc₂ := Heap.cell_modify_self hc₁ fun node => { node with size := 1 + (tl.numNodes : Int) + kr }
  have hframe : LinksFrame (· = b) nodes _ :=
    (LinksFrame.modify nodes b (fun node => { node with right := right }) fun _ => rfl).trans
      (LinksFrame.modify _ b (fun node => { node with size := 1 + (tl.numNodes : Int) + kr })
        fun _ => rfl)
  refine ⟨?_, ⟨_, _, hc₂, rfl⟩, fun s hs hss => ?_, fun nodes' hnodes' t' ht' => ?_⟩
  · exact (h.frame.mono fun x hx => ⟨by simp [hx.1], hx.2⟩).trans
      (hframe.mono fun x hx => ⟨by simp [hx], hx ▸ hbs⟩)
  · have hrep := h.represents s hs hss
    have hsubset := replaceBy_subset (c := c) (t := tr) (s := s) (by rw [hsub']; exact hss)
    have hb' : b ∉ inorder (replaceBy c s tr) := fun hb => hbr (hsubset hb)
    rw [replaceBy, if_neg (by omega), if_pos hneg]
    refine represents_node_of hc₂ ?_ ?_ ?_ ?_
    · show 1 + (tl.numNodes : Int) + kr = _
      rw [hr.unique hrep.sizeAt]
    · exact hframe.represents hl fun x hx h => hbl (h ▸ hx)
    · exact hframe.represents hrep fun x hx h => hb' (h ▸ hx)
    · exact nodup_node_of hl.nodup hrep.nodup hbl hb' fun x hx hx' => hlr x hx (hsubset hx')
  · obtain ⟨l', r', pl, pr, rfl, ⟨n, hn', -, rfl⟩, -, hr'⟩ := linked_some ht'
    obtain rfl := Option.some.inj (hn'.symm.trans ((hnodes' b (by simp) hbs).trans hc₂))
    refine h.reaches nodes' (fun x hx hxs => ?_) r' hr'
    rw [hnodes' x (by simp [hx]) hxs]
    exact hframe.same x (ne_of_mem_of_not_mem hx hbr)

/-- One step of the path, to the left. -/
theorem PathRebuilt.left {b : Nat} {tl tr sub : BinaryTree Nat} {q left : Ptr}
    {n₁ nodes : Heap (HNode α)} {node : HNode α} {kl : Int} (h : PathRebuilt c tl sub q left n₁ nodes)
    (hn : (inorder (.node b tl tr)).Nodup) (hsub : subtreeBy c (.node b tl tr) = sub)
    (hpos : 0 < c b) (hc : nodes.cell b = some node) (hr : Represents nodes node.right tr)
    (hl : SizeAt nodes left kl) :
    PathRebuilt c (.node b tl tr) sub q (some b) n₁
      ((nodes.modify b fun node => { node with left := left }).modify b fun node =>
        { node with size := 1 + kl + (tr.numNodes : Int) }) := by
  obtain ⟨-, -, hbl, hbr, hlr⟩ := nodup_node hn
  have hsub' : subtreeBy c tl = sub := by
    rw [subtreeBy, if_neg (by omega), if_neg (by omega)] at hsub
    exact hsub
  have hbs : b ∉ inorder sub := fun hb => hbl (mem_of_mem_subtreeBy (hsub' ▸ hb))
  have hc₁ := Heap.cell_modify_self hc fun node => { node with left := left }
  have hc₂ := Heap.cell_modify_self hc₁ fun node => { node with size := 1 + kl + (tr.numNodes : Int) }
  have hframe : LinksFrame (· = b) nodes _ :=
    (LinksFrame.modify nodes b (fun node => { node with left := left }) fun _ => rfl).trans
      (LinksFrame.modify _ b (fun node => { node with size := 1 + kl + (tr.numNodes : Int) })
        fun _ => rfl)
  refine ⟨?_, ⟨_, _, hc₂, rfl⟩, fun s hs hss => ?_, fun nodes' hnodes' t' ht' => ?_⟩
  · exact (h.frame.mono fun x hx => ⟨by simp [hx.1], hx.2⟩).trans
      (hframe.mono fun x hx => ⟨by simp [hx], hx ▸ hbs⟩)
  · have hrep := h.represents s hs hss
    have hsubset := replaceBy_subset (c := c) (t := tl) (s := s) (by rw [hsub']; exact hss)
    have hb' : b ∉ inorder (replaceBy c s tl) := fun hb => hbl (hsubset hb)
    rw [replaceBy, if_neg (by omega), if_neg (by omega)]
    refine represents_node_of hc₂ ?_ ?_ ?_ ?_
    · show 1 + kl + (tr.numNodes : Int) = _
      rw [hl.unique hrep.sizeAt]
    · exact hframe.represents hrep fun x hx h => hb' (h ▸ hx)
    · exact hframe.represents hr fun x hx h => hbr (h ▸ hx)
    · exact nodup_node_of hrep.nodup hr.nodup hb' hbr fun x hx => hlr x (hsubset hx)
  · obtain ⟨l', r', pl, pr, rfl, ⟨n, hn', rfl, -⟩, hl', -⟩ := linked_some ht'
    obtain rfl := Option.some.inj (hn'.symm.trans ((hnodes' b (by simp) hbs).trans hc₂))
    refine h.reaches nodes' (fun x hx hxs => ?_) l' hl'
    rw [hnodes' x (by simp [hx]) hxs]
    exact hframe.same x (ne_of_mem_of_not_mem hx hbl)

variable (dataDestroy) in
/-- Deleting a key that the comparison does not find. -/
theorem hTreeDelete_notFound {p : Ptr} {t : BinaryTree Nat} {fuel : Nat}
    (h : Represents m.nodes p t)
    (hcmp : ComparesAs m.nodes t (fun data => dataCmpKey m.store data key) c)
    (hfuel : t.height < fuel) (hsub : subtreeBy c t = .nil) :
    ∃ nodes, hTreeDelete key dataCmpKey dataDestroy fuel p m = .ok p { m with nodes := nodes } ∧
      Represents nodes p t ∧ LinksFrame (· ∈ inorder t) m.nodes nodes := by
  -- By induction over the tree; the comparisons lead to an empty subtree.
  induction t generalizing p fuel with
  | nil =>
      obtain rfl := h.linked
      obtain ⟨fuel, rfl⟩ := Nat.exists_eq_succ_of_ne_zero (Nat.ne_of_gt hfuel)
      exact ⟨m.nodes, rfl, h, LinksFrame.refl _ _⟩
  | node a l r ihl ihr =>
      obtain ⟨rfl, node, hc, -, hl, hr⟩ := represents_node h
      obtain ⟨fuel, rfl⟩ := Nat.exists_eq_succ_of_ne_zero (Nat.ne_of_gt (Nat.zero_lt_of_lt hfuel))
      have hlt : max l.height r.height < fuel := Nat.lt_of_succ_lt_succ hfuel
      obtain ⟨-, -, hal, har, hlr⟩ := nodup_node h.nodup
      rw [hTreeDelete, Cmd.bind_ok (deref_run hc), Cmd.bind_ok (compareData_run (hcmp.root hc))]
      rw [subtreeBy] at hsub
      split_ifs at hsub with h0 hneg
      -- The call returns the root of the same subtree, and the parent links it again.
      · rw [if_neg h0, if_pos hneg]
        obtain ⟨nodes, hrun, hrep, hframe⟩ := ihr hr hcmp.right (by omega : _ < fuel) hsub
        have hca : nodes.cell a = some node := by rw [hframe.same a har, hc]
        obtain ⟨nodes', hrun', hrep', hframe'⟩ := relink_run
          (m := { m with nodes := nodes }) (fun n => { n with right := node.right }) hca
          (fun _ => rfl) (hframe.represents hl hlr) hrep h.nodup
        refine ⟨nodes', ?_, hrep', (hframe.mono fun b hb => by simp [hb]).trans
          (hframe'.mono fun b hb => by simp [hb])⟩
        rw [Cmd.bind_ok hrun, hrun']
        rfl
      · rw [if_neg h0, if_neg hneg]
        obtain ⟨nodes, hrun, hrep, hframe⟩ := ihl hl hcmp.left (by omega : _ < fuel) hsub
        have hca : nodes.cell a = some node := by rw [hframe.same a hal, hc]
        obtain ⟨nodes', hrun', hrep', hframe'⟩ := relink_run
          (m := { m with nodes := nodes }) (fun n => { n with left := node.left }) hca
          (fun _ => rfl) hrep (hframe.represents hr fun b hb hb' => hlr b hb' hb) h.nodup
        refine ⟨nodes', ?_, hrep', (hframe.mono fun b hb => by simp [hb]).trans
          (hframe'.mono fun b hb => by simp [hb])⟩
        rw [Cmd.bind_ok hrun, hrun']
        rfl

/-- A fault of the removal is a fault of the deletion. -/
theorem hTreeDelete_error {p : Ptr} {t : BinaryTree Nat} {fuel a : Nat} {l r : BinaryTree Nat}
    {e : Fault} {m₁ : HMem α β} (h : Represents m.nodes p t)
    (hcmp : ComparesAs m.nodes t (fun data => dataCmpKey m.store data key) c)
    (hfuel : t.height < fuel) (hsub : subtreeBy c t = .node a l r)
    (hact : removeNode dataDestroy a m = .error e m₁) :
    hTreeDelete key dataCmpKey dataDestroy fuel p m = .error e m₁ := by
  induction t generalizing p fuel with
  | nil => cases hsub
  | node b tl tr ihl ihr =>
      obtain ⟨rfl, node, hc, -, hl, hr⟩ := represents_node h
      obtain ⟨fuel, rfl⟩ := Nat.exists_eq_succ_of_ne_zero (Nat.ne_of_gt (Nat.zero_lt_of_lt hfuel))
      have hlt : max tl.height tr.height < fuel := Nat.lt_of_succ_lt_succ hfuel
      rw [hTreeDelete, Cmd.bind_ok (deref_run hc), Cmd.bind_ok (compareData_run (hcmp.root hc))]
      rw [subtreeBy] at hsub
      split_ifs at hsub with h0 hneg
      · cases hsub
        rw [if_pos h0]
        exact hact
      · rw [if_neg h0, if_pos hneg, Cmd.bind_error (ihr hr hcmp.right (by omega : _ < fuel) hsub)]
      · rw [if_neg h0, if_neg hneg, Cmd.bind_error (ihl hl hcmp.left (by omega : _ < fuel) hsub)]

/-- A deletion removes the node the comparison finds and rebuilds the path to it. -/
theorem hTreeDelete_at {p q : Ptr} {t : BinaryTree Nat} {fuel a : Nat} {l r : BinaryTree Nat}
    {m₁ : HMem α β} (h : Represents m.nodes p t)
    (hcmp : ComparesAs m.nodes t (fun data => dataCmpKey m.store data key) c)
    (hfuel : t.height < fuel) (hsub : subtreeBy c t = .node a l r)
    (hact : removeNode dataDestroy a m = .ok q m₁) (hq : ∃ k, SizeAt m₁.nodes q k)
    (hout : ∀ x ∈ inorder t, x ∉ inorder (.node a l r) →
      (m₁.nodes.cell x).map HNode.links = (m.nodes.cell x).map HNode.links) :
    ∃ p' nodes, hTreeDelete key dataCmpKey dataDestroy fuel p m =
        .ok p' { m₁ with nodes := nodes } ∧
      PathRebuilt c t (.node a l r) q p' m₁.nodes nodes := by
  induction t generalizing p fuel with
  | nil => cases hsub
  | node b tl tr ihl ihr =>
      obtain ⟨rfl, node, hc, -, hl, hr⟩ := represents_node h
      obtain ⟨fuel, rfl⟩ := Nat.exists_eq_succ_of_ne_zero (Nat.ne_of_gt (Nat.zero_lt_of_lt hfuel))
      have hlt : max tl.height tr.height < fuel := Nat.lt_of_succ_lt_succ hfuel
      obtain ⟨-, -, hbl, hbr, hlr⟩ := nodup_node h.nodup
      have hsub₀ := hsub
      rw [hTreeDelete, Cmd.bind_ok (deref_run hc), Cmd.bind_ok (compareData_run (hcmp.root hc))]
      rw [subtreeBy] at hsub
      -- a node outside the subtree, as the removal left it
      have hkeep : ∀ {x n}, x ∈ inorder (.node b tl tr) → x ∉ inorder (.node a l r) →
          m.nodes.cell x = some n → ∃ n', m₁.nodes.cell x = some n' ∧ n'.links = n.links :=
        fun {x n} hx hxs hcx => by
          have := hout x hx hxs
          rw [hcx] at this
          cases hcx' : m₁.nodes.cell x with
          | none =>
              rw [hcx'] at this
              cases this
          | some n' =>
              rw [hcx'] at this
              exact ⟨n', rfl, Option.some.inj this⟩
      split_ifs at hsub with h0 hneg
      · cases hsub
        refine ⟨q, m₁.nodes, ?_, LinksFrame.refl _ _, hq, fun s hs _ => ?_, fun nodes _ t' ht' => ?_⟩
        · rw [if_pos h0]
          exact hact
        · rwa [replaceBy, if_pos h0]
        · exact ⟨t', ht'⟩
      · obtain ⟨right, nodes, hrun, hpath⟩ := ihr hr hcmp.right (by omega : _ < fuel) hsub
          fun x hx => hout x (by simp [hx])
        have hbs : b ∉ inorder (.node a l r) := fun hb =>
          hbr (mem_of_mem_subtreeBy (c := c) (hsub ▸ hb))
        obtain ⟨n', hcn', hlinks⟩ := hkeep (by simp) hbs hc
        simp only [HNode.links, Prod.mk.injEq] at hlinks
        have hcb : nodes.cell b = some n' := by
          rw [hpath.frame.same b fun hx => hbr hx.1, hcn']
        have hleft : Represents nodes n'.left tl := by
          rw [hlinks.2.1]
          refine hl.congr fun x hx n hcx => ?_
          have hxs : x ∉ inorder (.node a l r) := fun hxs =>
            hlr x hx (mem_of_mem_subtreeBy (c := c) (hsub ▸ hxs))
          obtain ⟨n'', hcx', hlinks'⟩ := hkeep (by simp [hx]) hxs hcx
          simp only [HNode.links, Prod.mk.injEq] at hlinks'
          exact ⟨n'', by rw [hpath.frame.same x fun hx' => hlr x hx hx'.1, hcx'], hlinks'.2.1,
            hlinks'.2.2.1, hlinks'.2.2.2.1⟩
        obtain ⟨kr, hkr⟩ := hpath.size
        refine ⟨some b, _, ?_, hpath.right h.nodup hsub₀ hneg hcb hleft hkr⟩
        rw [if_neg h0, if_pos hneg, Cmd.bind_ok hrun]
        exact setNode_updateSize_run (m := { m₁ with nodes := nodes })
          (fun node => { node with right := right }) hcb (fun _ => rfl) hleft.sizeAt hkr
          (pure (some b))
      · obtain ⟨left, nodes, hrun, hpath⟩ := ihl hl hcmp.left (by omega : _ < fuel) hsub
          fun x hx => hout x (by simp [hx])
        have hbs : b ∉ inorder (.node a l r) := fun hb =>
          hbl (mem_of_mem_subtreeBy (c := c) (hsub ▸ hb))
        obtain ⟨n', hcn', hlinks⟩ := hkeep (by simp) hbs hc
        simp only [HNode.links, Prod.mk.injEq] at hlinks
        have hcb : nodes.cell b = some n' := by
          rw [hpath.frame.same b fun hx => hbl hx.1, hcn']
        have hright : Represents nodes n'.right tr := by
          rw [hlinks.2.2.1]
          refine hr.congr fun x hx n hcx => ?_
          have hxs : x ∉ inorder (.node a l r) := fun hxs =>
            hlr x (mem_of_mem_subtreeBy (c := c) (hsub ▸ hxs)) hx
          obtain ⟨n'', hcx', hlinks'⟩ := hkeep (by simp [hx]) hxs hcx
          simp only [HNode.links, Prod.mk.injEq] at hlinks'
          exact ⟨n'', by rw [hpath.frame.same x fun hx' => hlr x hx'.1 hx, hcx'], hlinks'.2.1,
            hlinks'.2.2.1, hlinks'.2.2.2.1⟩
        obtain ⟨kl, hkl⟩ := hpath.size
        refine ⟨some b, _, ?_, hpath.left h.nodup hsub₀ (by omega) hcb hright hkl⟩
        rw [if_neg h0, if_neg hneg, Cmd.bind_ok hrun]
        exact setNode_updateSize_run (m := { m₁ with nodes := nodes })
          (fun node => { node with left := left }) hcb (fun _ => rfl) hkl hright.sizeAt
          (pure (some b))

end Path

end OsLabs.Fat
