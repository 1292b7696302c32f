import OsLabs.Lib.Chain
import OsLabs.Fat.TreeSequences

/-! # The lists of hierarchical children

Every node heads a list of its children, linked by `h_next_sibling`. Whatever nodes are created by
`h_node_init` and removed by `remove_child_from_h`, in whatever order, the live nodes are those created
and not removed, with the parents that they were created with, and the list of a live node holds
exactly the live nodes whose `h_parent` it is, the youngest first. -/

namespace OsLabs.Fat

variable {α β : Type}

/-! ## Sibling lists -/

/-- The `h_next_sibling` of a live node. -/
def nextSibling (nodes : Heap (HNode α)) (a : Nat) : Ptr := (nodes.cell a).bind (·.hNextSibling)

/-- The next sibling of a live node is the link that it holds. -/
theorem nextSibling_eq {nodes : Heap (HNode α)} {a : Nat} {node : HNode α}
    (hc : nodes.cell a = some node) : nextSibling nodes a = node.hNextSibling := by
  rw [nextSibling, hc]
  rfl

/-- The `h_parent` of a live node. -/
def hParentOf (nodes : Heap (HNode α)) (a : Nat) : Ptr := (nodes.cell a).bind (·.hParent)

/-- The parent of a live node is the link that it holds. -/
theorem hParentOf_eq {nodes : Heap (HNode α)} {a : Nat} {node : HNode α}
    (hc : nodes.cell a = some node) : hParentOf nodes a = node.hParent := by
  rw [hParentOf, hc]
  rfl

/-- What a live node was created with: its data and its `h_parent`. -/
def origin (nodes : Heap (HNode α)) (a : Nat) : Option (α × Ptr) :=
  (nodes.cell a).map fun node => (node.data, node.hParent)

/-- A node with a parent is live. -/
theorem live_of_hParentOf {nodes : Heap (HNode α)} {a p : Nat} (h : hParentOf nodes a = some p) :
    ∃ node, nodes.cell a = some node ∧ node.hParent = some p :=
  Option.bind_eq_some_iff.mp h

/-- The live nodes with a parent, in reverse order of allocation. -/
def hChildrenOf (nodes : Heap (HNode α)) (p : Nat) : List Nat :=
  (List.range nodes.next).reverse.filter fun a => hParentOf nodes a = some p

/-- The children of a node are the nodes whose link leads to it. -/
theorem mem_hChildrenOf {nodes : Heap (HNode α)} {p a : Nat} :
    a ∈ hChildrenOf nodes p ↔ hParentOf nodes a = some p := by
  unfold hChildrenOf
  rw [List.mem_filter, List.mem_reverse, List.mem_range, decide_eq_true_eq]
  constructor
  · exact And.right
  · intro h
    obtain ⟨node, hc, -⟩ := live_of_hParentOf h
    exact ⟨Heap.lt_next hc, h⟩

/-- No child is listed twice. -/
theorem nodup_hChildrenOf (nodes : Heap (HNode α)) (p : Nat) : (hChildrenOf nodes p).Nodup := by
  unfold hChildrenOf
  exact (List.nodup_reverse.mpr List.nodup_range).filter _

/-- A node has no more children than addresses have been given out. -/
theorem length_hChildrenOf_le (nodes : Heap (HNode α)) (p : Nat) :
    (hChildrenOf nodes p).length ≤ nodes.next := by
  have := List.length_filter_le (fun a => decide (hParentOf nodes a = some p))
    (List.range nodes.next).reverse
  rwa [List.length_reverse, List.length_range] at this

/-- Every list of children is exact, and every parent is live. -/
structure SiblingsExact (nodes : Heap (HNode α)) : Prop where
  parent : ∀ a p, hParentOf nodes a = some p → ∃ node, nodes.cell p = some node
  children : ∀ p node, nodes.cell p = some node →
    Chain (nextSibling nodes) node.hChildren (hChildrenOf nodes p)

/-- A node without children has no list of children. -/
theorem SiblingsExact.hChildren_eq_none_iff {nodes : Heap (HNode α)} (h : SiblingsExact nodes)
    {p : Nat} {node : HNode α} (hc : nodes.cell p = some node) :
    node.hChildren = none ↔ ∀ a, hParentOf nodes a ≠ some p := by
  have hhead := (h.children p node hc).head
  rw [hhead, List.head?_eq_none_iff, List.eq_nil_iff_forall_not_mem]
  apply forall_congr'
  intro a
  rw [mem_hChildrenOf]

/-! ## Creating a node -/

section Create

variable {nodes : Heap (HNode α)} {newData : α} {hParent : Ptr}

/-- A new node changes no link to a next sibling but its own. -/
theorem nextSibling_hNodeInitHeap {a : Nat} (ha : a ≠ nodes.next) :
    nextSibling (hNodeInitHeap nodes newData hParent) a = nextSibling nodes a := by
  unfold nextSibling
  rw [cell_hNodeInitHeap ha]
  cases nodes.cell a with
  | none => rfl
  | some node =>
      simp only [Option.map_some, Option.bind_some]
      split
      · rfl
      · rfl

/-- A new node changes no link to a parent but its own. -/
theorem hParentOf_hNodeInitHeap {a : Nat} (ha : a ≠ nodes.next) :
    hParentOf (hNodeInitHeap nodes newData hParent) a = hParentOf nodes a := by
  unfold hParentOf
  rw [cell_hNodeInitHeap ha]
  cases nodes.cell a with
  | none => rfl
  | some node =>
      simp only [Option.map_some, Option.bind_some]
      split
      · rfl
      · rfl

variable (hp : ∀ p, hParent = some p → ∃ node, nodes.cell p = some node)

include hp

/-- The new node has its data and parent, and the others keep theirs. -/
theorem origin_hNodeInitHeap (a : Nat) :
    origin (hNodeInitHeap nodes newData hParent) a =
      if a = nodes.next then some (newData, hParent) else origin nodes a := by
  unfold origin
  split_ifs with ha
  · rw [ha, cell_hNodeInitHeap_next newData hp]
    rfl
  · rw [cell_hNodeInitHeap ha]
    cases nodes.cell a with
    | none => rfl
    | some node =>
        simp only [Option.map_some]
        split
        · rfl
        · rfl

/-- The new node comes first among the children of its parent. -/
theorem hChildrenOf_hNodeInitHeap (p : Nat) :
    hChildrenOf (hNodeInitHeap nodes newData hParent) p =
      if hParent = some p then nodes.next :: hChildrenOf nodes p else hChildrenOf nodes p := by
  have hnew : hParentOf (hNodeInitHeap nodes newData hParent) nodes.next = hParent :=
    hParentOf_eq (cell_hNodeInitHeap_next newData hp)
  have hold : (List.range nodes.next).reverse.filter
      (fun a => hParentOf (hNodeInitHeap nodes newData hParent) a = some p) = hChildrenOf nodes p := by
    apply List.filter_congr
    intro a ha
    rw [List.mem_reverse, List.mem_range] at ha
    rw [hParentOf_hNodeInitHeap (Nat.ne_of_lt ha)]
  rw [hChildrenOf, next_hNodeInitHeap, List.range_succ, List.reverse_append, List.reverse_singleton,
    List.singleton_append, List.filter_cons, hnew, hold]
  by_cases h : hParent = some p
  · simp [h]
  · simp [h]

/-- `h_node_init` keeps the lists of children exact. -/
theorem SiblingsExact.create (h : SiblingsExact nodes) :
    SiblingsExact (hNodeInitHeap nodes newData hParent) := by
  have hnew := cell_hNodeInitHeap_next newData hp
  constructor
  · intro a p hpar
    have hlive : ∃ node, nodes.cell p = some node := by
      by_cases ha : a = nodes.next
      · subst ha
        rw [hParentOf_eq hnew] at hpar
        exact hp p hpar
      · rw [hParentOf_hNodeInitHeap ha] at hpar
        exact h.parent a p hpar
    obtain ⟨node, hc⟩ := hlive
    obtain ⟨node', hc', -⟩ := live_hNodeInitHeap hc newData hParent
    exact ⟨node', hc'⟩
  · intro p node' hc'
    rw [hChildrenOf_hNodeInitHeap hp]
    -- the list of the children that are already there is linked as before
    have hold : ∀ {o : Ptr}, Chain (nextSibling nodes) o (hChildrenOf nodes p) →
        Chain (nextSibling (hNodeInitHeap nodes newData hParent)) o (hChildrenOf nodes p) := by
      intro o hchain
      apply hchain.congr
      intro a ha
      obtain ⟨node, hc, -⟩ := live_of_hParentOf (mem_hChildrenOf.mp ha)
      exact nextSibling_hNodeInitHeap (Nat.ne_of_lt (Heap.lt_next hc))
    by_cases hpn : p = nodes.next
    · -- the new node has no children
      subst hpn
      have hne : hParent ≠ some nodes.next := by
        intro heq
        obtain ⟨node, hc⟩ := hp _ heq
        exact absurd (Heap.lt_next hc) (lt_irrefl _)
      have hnil : hChildrenOf nodes nodes.next = [] := by
        rw [List.eq_nil_iff_forall_not_mem]
        intro a ha
        obtain ⟨node, hc⟩ := h.parent a _ (mem_hChildrenOf.mp ha)
        exact absurd (Heap.lt_next hc) (lt_irrefl _)
      rw [hnew] at hc'
      cases hc'
      rw [if_neg hne, hnil]
      rfl
    · rw [cell_hNodeInitHeap hpn, Option.map_eq_some_iff] at hc'
      obtain ⟨node, hc, rfl⟩ := hc'
      by_cases heq : hParent = some p
      · subst heq
        rw [if_pos rfl, if_pos rfl]
        refine ⟨rfl, ?_⟩
        rw [nextSibling_eq hnew]
        simp only [Option.bind_some, hc]
        exact hold (h.children p node hc)
      · rw [if_neg heq, if_neg heq]
        exact hold (h.children p node hc)

end Create

/-! ## Removing a node -/

section Remove

variable {m : HMem α β} {a : Nat} {child : HNode α}

/-- The loop of `remove_child_from_h` stops at the sibling before the child and links it to the one
after. -/
theorem unlinkSibling_exact {l r : List Nat} {before fuel iter : Nat} {next : Ptr}
    (h : Chain (nextSibling m.nodes) (some iter) (l ++ before :: a :: r))
    (hlive : ∀ x ∈ l ++ before :: a :: r, ∃ node, m.nodes.cell x = some node)
    (hfuel : l.length < fuel) :
    unlinkSibling a next fuel iter m = .ok ⟨⟩ { m with
      nodes := m.nodes.modify before fun node => { node with hNextSibling := next } } := by
  induction l generalizing iter fuel with
  | nil =>
      obtain ⟨hiter, hnext, -⟩ := h
      cases hiter
      obtain ⟨fuel, rfl⟩ := Nat.exists_eq_succ_of_ne_zero (Nat.ne_of_gt hfuel)
      obtain ⟨node, hc⟩ := hlive before (by simp)
      rw [nextSibling_eq hc] at hnext
      rw [unlinkSibling, Cmd.bind_ok (deref_run hc), hnext]
      dsimp only
      rw [if_pos rfl, setNode_run hc]
  | cons x l ih =>
      rw [List.cons_append] at h hlive
      have hnodup := h.nodup
      obtain ⟨hiter, hrest⟩ := h
      cases hiter
      obtain ⟨fuel, rfl⟩ := Nat.exists_eq_succ_of_ne_zero
        (Nat.ne_of_gt (Nat.zero_lt_of_lt hfuel))
      obtain ⟨node, hc⟩ := hlive x (by simp)
      -- the next sibling is not the child: it comes before the sibling that precedes the child
      obtain ⟨y, hy, hya⟩ : ∃ y, (l ++ before :: a :: r).head? = some y ∧ y ≠ a := by
        rw [List.nodup_cons] at hnodup
        cases l with
        | nil =>
            refine ⟨before, rfl, ?_⟩
            rintro rfl
            simp at hnodup
        | cons y l =>
            refine ⟨y, rfl, ?_⟩
            rintro rfl
            simp at hnodup
      have hnext := hrest.head
      rw [hy, nextSibling_eq hc] at hnext
      rw [nextSibling_eq hc, hnext] at hrest
      rw [unlinkSibling, Cmd.bind_ok (deref_run hc), hnext]
      dsimp only
      rw [if_neg hya]
      apply ih hrest
      · intro z hz
        exact hlive z (List.mem_cons_of_mem x hz)
      · simpa using hfuel

/-- Freeing a node takes it out of the list of children of its parent. -/
theorem hChildrenOf_free {nodes nodes' : Heap (HNode α)} (hnext : nodes'.next = nodes.next)
    (hfreed : nodes'.cell a = none) (hpar : ∀ x, x ≠ a → hParentOf nodes' x = hParentOf nodes x)
    (p : Nat) : hChildrenOf nodes' p = (hChildrenOf nodes p).filter (· ≠ a) := by
  unfold hChildrenOf
  rw [hnext, List.filter_filter]
  apply List.filter_congr
  intro x _
  by_cases hx : x = a
  · subst hx
    simp [hParentOf, hfreed]
  · simp [hx, hpar x hx]

/-- The lists of children stay exact when a childless node is freed, provided that the lists without
it are linked. -/
theorem SiblingsExact.remove {nodes nodes' : Heap (HNode α)} (h : SiblingsExact nodes)
    (hchildless : ∀ x, hParentOf nodes x ≠ some a) (hnext : nodes'.next = nodes.next)
    (hfreed : nodes'.cell a = none) (hpar : ∀ x, x ≠ a → hParentOf nodes' x = hParentOf nodes x)
    (hlive : ∀ x node, x ≠ a → nodes.cell x = some node → ∃ node', nodes'.cell x = some node')
    (hlinked : ∀ p node', p ≠ a → nodes'.cell p = some node' →
      Chain (nextSibling nodes') node'.hChildren ((hChildrenOf nodes p).filter (· ≠ a))) :
    SiblingsExact nodes' := by
  constructor
  · intro x p hx
    have hxa : x ≠ a := by
      rintro rfl
      simp [hParentOf, hfreed] at hx
    rw [hpar x hxa] at hx
    obtain ⟨node, hc⟩ := h.parent x p hx
    apply hlive p node _ hc
    rintro rfl
    exact hchildless x hx
  · intro p node' hc'
    rw [hChildrenOf_free hnext hfreed hpar]
    apply hlinked p node' _ hc'
    rintro rfl
    rw [hfreed] at hc'
    cases hc'

/-- A node that is freed has no origin any more, and the others keep theirs. -/
theorem origin_free (nodes : Heap (HNode α)) (a x : Nat) :
    origin (nodes.free a) x = if x = a then none else origin nodes x := by
  unfold origin
  split_ifs with hx
  · rw [hx, Heap.cell_free_self]
    rfl
  · rw [Heap.cell_free_ne hx]

/-- A change that keeps data and parent keeps every origin. -/
theorem origin_modify (nodes : Heap (HNode α)) (q x : Nat) {f : HNode α → HNode α}
    (hf : ∀ node, (f node).data = node.data ∧ (f node).hParent = node.hParent) :
    origin (nodes.modify q f) x = origin nodes x := by
  unfold origin
  rw [Heap.cell_modify]
  split
  · cases nodes.cell x with
    | none => rfl
    | some node => exact congrArg some (Prod.ext (hf node).1 (hf node).2)
  · rfl

/-- A removal that changes a node in a field other than its parent, and frees the child. -/
theorem SiblingsExact.remove_modify {nodes : Heap (HNode α)} (h : SiblingsExact nodes)
    (hchildless : ∀ x, hParentOf nodes x ≠ some a) {q : Nat} {f : HNode α → HNode α}
    (hf : ∀ node, (f node).hParent = node.hParent)
    (hlinked : ∀ p node', p ≠ a → (nodes.modify q f).cell p = some node' →
      Chain (nextSibling (nodes.modify q f)) node'.hChildren
        ((hChildrenOf nodes p).filter (· ≠ a))) :
    SiblingsExact ((nodes.modify q f).free a) := by
  have hcell : ∀ x, x ≠ a → ((nodes.modify q f).free a).cell x = (nodes.modify q f).cell x :=
    fun x hx => Heap.cell_free_ne hx
  refine h.remove hchildless rfl (Heap.cell_free_self _ _) ?_ ?_ ?_
  · intro x hx
    unfold hParentOf
    rw [hcell x hx, Heap.cell_modify]
    split
    · cases nodes.cell x with
      | none => rfl
      | some node => exact hf node
    · rfl
  · intro x node hx hc
    rw [hcell x hx, Heap.cell_modify, hc]
    split
    · exact ⟨_, rfl⟩
    · exact ⟨_, rfl⟩
  · intro p node' hp hc'
    rw [hcell p hp] at hc'
    apply (hlinked p node' hp hc').congr
    intro x hx
    rw [List.mem_filter, decide_eq_true_eq] at hx
    unfold nextSibling
    rw [hcell x hx.2]

/-- Changing one node leaves the links of the others alone. -/
theorem nextSibling_modify_ne {nodes : Heap (HNode α)} {q x : Nat} (hx : x ≠ q)
    (f : HNode α → HNode α) : nextSibling (nodes.modify q f) x = nextSibling nodes x := by
  unfold nextSibling
  rw [Heap.cell_modify_ne hx]

/-- A change that keeps the link to the next sibling keeps the lists. -/
theorem nextSibling_modify_of_keeps {nodes : Heap (HNode α)} (q x : Nat) {f : HNode α → HNode α}
    (hf : ∀ node, (f node).hNextSibling = node.hNextSibling) :
    nextSibling (nodes.modify q f) x = nextSibling nodes x := by
  unfold nextSibling
  rw [Heap.cell_modify]
  split
  · cases nodes.cell x with
    | none => rfl
    | some node => exact hf node
  · rfl

/-- A node is not among the children of another node than its parent. -/
theorem filter_hChildrenOf_of_ne {nodes : Heap (HNode α)} {p : Nat}
    (h : hParentOf nodes a ≠ some p) : (hChildrenOf nodes p).filter (· ≠ a) = hChildrenOf nodes p := by
  rw [List.filter_eq_self]
  intro x hx
  rw [decide_eq_true_eq]
  rintro rfl
  exact h (mem_hChildrenOf.mp hx)

/-- `remove_child_from_h` and `free`. -/
def removeAndFree (hChild : Nat) : HM α β PUnit := do
  removeChildFromH hChild
  freeNode hChild

/-- The first child is taken out of the list by its parent. -/
theorem SiblingsExact.remove_first {nodes : Heap (HNode α)} (h : SiblingsExact nodes)
    (hc : nodes.cell a = some child) (hchildless : ∀ x, hParentOf nodes x ≠ some a) {q : Nat}
    {parent : HNode α} (hq : nodes.cell q = some parent) (hpar : child.hParent = some q)
    (hfirst : parent.hChildren = some a) :
    SiblingsExact ((nodes.modify q fun node =>
      { node with hChildren := child.hNextSibling }).free a) := by
  refine h.remove_modify hchildless (fun _ => rfl) ?_
  intro p node' hp hc'
  have hkeep : ∀ {o : Ptr} {l : List Nat}, Chain (nextSibling nodes) o l →
      Chain (nextSibling (nodes.modify q fun node =>
        { node with hChildren := child.hNextSibling })) o l := by
    intro o l hchain
    exact hchain.congr fun x _ => nextSibling_modify_of_keeps q x fun _ => rfl
  -- the parent loses its first child; the other lists are not touched
  by_cases hpq : p = q
  · subst hpq
    rw [Heap.cell_modify_self hq] at hc'
    cases hc'
    have hchain := h.children p parent hq
    have hnodup := nodup_hChildrenOf nodes p
    obtain ⟨rest, hl⟩ : ∃ rest, hChildrenOf nodes p = a :: rest := by
      have hhead := hchain.head
      rw [hfirst] at hhead
      exact ⟨(hChildrenOf nodes p).tail, (List.head?_eq_some_iff.mp hhead.symm).elim fun t ht => by
        rw [ht, List.tail_cons]⟩
    rw [hl] at hchain hnodup ⊢
    obtain ⟨-, hrest⟩ := hchain
    rw [nextSibling_eq hc] at hrest
    have hfilter : (a :: rest).filter (· ≠ a) = rest := by
      rw [List.filter_cons_of_neg (by simp), List.filter_eq_self]
      intro x hx
      rw [decide_eq_true_eq]
      rintro rfl
      exact (List.nodup_cons.mp hnodup).1 hx
    rw [hfilter]
    exact hkeep hrest
  · rw [Heap.cell_modify_ne hpq] at hc'
    rw [filter_hChildrenOf_of_ne]
    · exact hkeep (h.children p node' hc')
    · rw [hParentOf_eq hc, hpar]
      intro heq
      exact hpq (Option.some.inj heq).symm

/-- Another child is taken out of the list by the sibling before it. -/
theorem SiblingsExact.remove_later {nodes : Heap (HNode α)} (h : SiblingsExact nodes)
    (hc : nodes.cell a = some child) (hchildless : ∀ x, hParentOf nodes x ≠ some a) {q before : Nat}
    {l r : List Nat} (hpar : child.hParent = some q)
    (hl : hChildrenOf nodes q = l ++ before :: a :: r) :
    SiblingsExact ((nodes.modify before fun node =>
      { node with hNextSibling := child.hNextSibling }).free a) := by
  refine h.remove_modify hchildless (fun _ => rfl) ?_
  intro p node' hp hc'
  -- the node before `a` is the one that is relinked
  have hbefore : hParentOf nodes before = some q := by
    rw [← mem_hChildrenOf, hl]
    simp
  obtain ⟨node, hn, hch⟩ : ∃ node, nodes.cell p = some node ∧ node'.hChildren = node.hChildren := by
    rw [Heap.cell_modify] at hc'
    split at hc'
    · obtain ⟨node, hn, rfl⟩ := Option.map_eq_some_iff.mp hc'
      exact ⟨node, hn, rfl⟩
    · exact ⟨node', hc', rfl⟩
  have hchain := h.children p node hn
  rw [hch]
  -- the list of `q` loses `a` between `before` and what follows
  by_cases hpq : p = q
  · subst hpq
    rw [hl] at hchain ⊢
    have hnodup := hchain.nodup
    rw [List.nodup_append, List.nodup_cons, List.nodup_cons] at hnodup
    obtain ⟨-, ⟨hb, har, -⟩, hdisj⟩ := hnodup
    have hla : ∀ x ∈ l, x ≠ a := fun x hx => hdisj x hx a (by simp)
    have hlb : ∀ x ∈ l, x ≠ before := fun x hx => hdisj x hx before (by simp)
    have hfilter : (l ++ before :: a :: r).filter (· ≠ a) = l ++ before :: r := by
      rw [List.filter_append, List.filter_cons_of_pos, List.filter_cons_of_neg (by simp)]
      · congr 2
        · rw [List.filter_eq_self]
          intro x hx
          simpa using hla x hx
        · rw [List.filter_eq_self]
          intro x hx
          rw [decide_eq_true_eq]
          rintro rfl
          exact har hx
      · rw [decide_eq_true_eq]
        rintro rfl
        simp at hb
    rw [hfilter]
    obtain ⟨nb, hnb, -⟩ := live_of_hParentOf hbefore
    apply hchain.unlink
    · rw [nextSibling_eq (Heap.cell_modify_self hnb _), nextSibling_eq hc]
    · intro x hx
      apply nextSibling_modify_ne
      rcases List.mem_append.mp hx with hx | hx
      · exact hlb x hx
      · rintro rfl
        simp [hx] at hb
  · -- the lists of two parents have no node in common
    rw [filter_hChildrenOf_of_ne]
    · apply hchain.congr
      intro x hx
      apply nextSibling_modify_ne
      rintro rfl
      rw [mem_hChildrenOf, hbefore] at hx
      exact hpq (Option.some.inj hx).symm
    · rw [hParentOf_eq hc, hpar]
      intro heq
      exact hpq (Option.some.inj heq).symm

/-- The removal of a childless node returns, keeps the lists of children exact and takes that node away. -/
theorem removeAndFree_exact (h : SiblingsExact m.nodes) (hc : m.nodes.cell a = some child)
    (hchildless : ∀ x, hParentOf m.nodes x ≠ some a) :
    ∃ m', removeAndFree a m = .ok ⟨⟩ m' ∧ m'.nodes.next = m.nodes.next ∧
      SiblingsExact m'.nodes ∧ ∀ x, origin m'.nodes x = if x = a then none else origin m.nodes x := by
  have hmodified : ∀ (q : Nat) {f : HNode α → HNode α},
      (∀ node, (f node).data = node.data ∧ (f node).hParent = node.hParent) →
      ∀ x, origin ((m.nodes.modify q f).free a) x = if x = a then none else origin m.nodes x := by
    intro q f hf x
    rw [origin_free, origin_modify m.nodes q x hf]
  unfold removeAndFree removeChildFromH
  rw [bind_assoc, Cmd.bind_ok (deref_run hc)]
  cases hpar : child.hParent with
  | none =>
      refine ⟨{ m with nodes := m.nodes.free a }, freeNode_run hc, rfl, ?_, origin_free m.nodes a⟩
      have hkeep : ∀ x, x ≠ a → (m.nodes.free a).cell x = m.nodes.cell x :=
        fun x hx => Heap.cell_free_ne hx
      refine h.remove hchildless rfl (Heap.cell_free_self _ _) ?_ ?_ ?_
      · intro x hx
        rw [hParentOf, hkeep x hx]
        rfl
      · intro x node hx hn
        exact ⟨node, by rw [hkeep x hx, hn]⟩
      · intro p node' hp hc'
        rw [hkeep p hp] at hc'
        have hne : hParentOf m.nodes a ≠ some p := by
          rw [hParentOf_eq hc, hpar]
          simp
        rw [filter_hChildrenOf_of_ne hne]
        apply (h.children p node' hc').congr
        intro x hx
        rw [nextSibling, hkeep x]
        · rfl
        · rintro rfl
          exact hne (mem_hChildrenOf.mp hx)
  | some q =>
      have hparent : hParentOf m.nodes a = some q := by rw [hParentOf_eq hc, hpar]
      have hmem : a ∈ hChildrenOf m.nodes q := mem_hChildrenOf.mpr hparent
      obtain ⟨parent, hq⟩ := h.parent a q hparent
      have hqa : a ≠ q := by
        rintro rfl
        exact hchildless a hparent
      have hchain := h.children q parent hq
      dsimp only
      rw [bind_assoc, Cmd.bind_ok (deref_run hq)]
      cases hch : parent.hChildren with
      | none => exact absurd hparent ((h.hChildren_eq_none_iff hq).mp hch a)
      | some iter =>
          dsimp only
          by_cases hfirst : iter = a
          · subst hfirst
            rw [if_pos rfl, Cmd.bind_ok (setNode_run hq _)]
            refine ⟨_, freeNode_run (?_ : _ = some child), ?_, h.remove_first hc hchildless hq hpar hch,
              hmodified q fun _ => ⟨rfl, rfl⟩⟩
            · exact (Heap.cell_modify_ne hqa _).trans hc
            · rfl
          · rw [if_neg hfirst, bind_assoc, Cmd.get_bind]
            -- the child is further down the list
            obtain ⟨l, before, r, hl⟩ : ∃ l before r, hChildrenOf m.nodes q = l ++ before :: a :: r := by
              obtain ⟨s, r, hs⟩ := List.append_of_mem hmem
              rcases List.eq_nil_or_concat s with rfl | ⟨l, before, rfl⟩
              · rw [hs, List.nil_append, hch] at hchain
                exact absurd (Option.some.inj hchain.1) hfirst
              · exact ⟨l, before, r, by
                  rw [hs, List.concat_eq_append, List.append_assoc]
                  rfl⟩
            rw [hch, hl] at hchain
            have hlive : ∀ x ∈ l ++ before :: a :: r, ∃ node, m.nodes.cell x = some node := by
              intro x hx
              rw [← hl, mem_hChildrenOf] at hx
              obtain ⟨node, hn, -⟩ := live_of_hParentOf hx
              exact ⟨node, hn⟩
            have hlen := length_hChildrenOf_le m.nodes q
            rw [hl, List.length_append] at hlen
            have hba : a ≠ before := by
              have hnodup := hchain.nodup
              rw [List.nodup_append, List.nodup_cons] at hnodup
              rintro rfl
              simp at hnodup
            rw [Cmd.bind_ok (unlinkSibling_exact hchain hlive (by omega))]
            refine ⟨_, freeNode_run (?_ : _ = some child), ?_, h.remove_later hc hchildless hpar hl,
              hmodified before fun _ => ⟨rfl, rfl⟩⟩
            · exact (Heap.cell_modify_ne hba _).trans hc
            · rfl

end Remove

/-! ## Every interleaving -/

/-- Create a node under a parent, which may be `NULL`, or remove a node. -/
inductive HEvent (α : Type)
  | create (newData : α) (hParent : Ptr)
  | remove (hChild : Nat)

/-- Run an event; the result lists the node it created. -/
def HEvent.run : HEvent α → HM α β (List Nat)
  | .create newData hParent => do
      let newNode ← hNodeInit newData hParent
      pure [newNode]
  | .remove hChild => do
      removeAndFree hChild
      pure []

/-- A parent that is not `NULL` exists; what is removed exists and has no hierarchical children. -/
def HEvent.Allowed (nodes : Heap (HNode α)) : HEvent α → Prop
  | .create _ hParent => ∀ p, hParent = some p → ∃ node, nodes.cell p = some node
  | .remove hChild =>
      (∃ node, nodes.cell hChild = some node) ∧ ∀ x, hParentOf nodes x ≠ some hChild

/-- What the events create, in order: the data and the parent of each node. -/
def creations : List (HEvent α) → List (α × Ptr)
  | [] => []
  | .create newData hParent :: rest => (newData, hParent) :: creations rest
  | .remove _ :: rest => creations rest

/-- The nodes that the events remove. -/
def removals : List (HEvent α) → List Nat
  | [] => []
  | .create _ _ :: rest => removals rest
  | .remove hChild :: rest => hChild :: removals rest

/-- Run events one after the other; the result lists the nodes they created, in order. -/
def runEvents : List (HEvent α) → HM α β (List Nat)
  | [] => pure []
  | event :: rest => do
      let new ← event.run
      let later ← runEvents rest
      pure (new ++ later)

/-- Every event is allowed when it is run. -/
def EventsAllowed : List (HEvent α) → HMem α β → Prop
  | [], _ => True
  | event :: rest, m =>
      event.Allowed m.nodes ∧ ∀ new m', event.run m = .ok new m' → EventsAllowed rest m'

/-- What one event does to the live nodes and what they were created with. -/
def HEvent.originAfter (event : HEvent α) (nodes : Heap (HNode α)) (a : Nat) : Option (α × Ptr) :=
  match event with
  | .create newData hParent => if a = nodes.next then some (newData, hParent) else origin nodes a
  | .remove hChild => if a = hChild then none else origin nodes a

/-- The node that an event creates, if it creates one. -/
def HEvent.new (event : HEvent α) (next : Nat) : List Nat :=
  match event with
  | .create _ _ => [next]
  | .remove _ => []

/-- One event keeps the lists of children exact, creates its node at the frontier or removes its node, and
leaves the others. -/
theorem HEvent.run_exact {m : HMem α β} {event : HEvent α} (h : SiblingsExact m.nodes)
    (hallowed : event.Allowed m.nodes) :
    ∃ m', event.run m = .ok (event.new m.nodes.next) m' ∧ SiblingsExact m'.nodes ∧
      List.range m'.nodes.next = List.range m.nodes.next ++ event.new m.nodes.next ∧
      ∀ a, origin m'.nodes a = event.originAfter m.nodes a := by
  cases event with
  | create newData hParent =>
      refine ⟨{ m with nodes := hNodeInitHeap m.nodes newData hParent }, ?_,
        h.create hallowed, ?_, origin_hNodeInitHeap hallowed⟩
      · exact Cmd.bind_ok (hNodeInit_run hallowed)
      · show List.range (hNodeInitHeap m.nodes newData hParent).next = _
        rw [next_hNodeInitHeap, List.range_succ]
        rfl
  | remove hChild =>
      obtain ⟨⟨child, hc⟩, hchildless⟩ := hallowed
      obtain ⟨m', hrun, hnext, hexact, horigin⟩ := removeAndFree_exact h hc hchildless
      refine ⟨m', Cmd.bind_ok hrun, hexact, ?_, horigin⟩
      rw [hnext]
      exact (List.append_nil _).symm

/-- A node not created yet has no origin. -/
theorem origin_eq_none {nodes : Heap (HNode α)} {a : Nat} (h : nodes.next ≤ a) : origin nodes a = none := by
  rw [origin, nodes.fresh a h]
  rfl

/-- A sequence of events keeps the lists of children exact. The live nodes afterwards are those that were live
and those that the events create, without those that the events remove. -/
theorem runEvents_exact {events : List (HEvent α)} {m : HMem α β} (h : SiblingsExact m.nodes)
    (hallowed : EventsAllowed events m) :
    ∃ created m', runEvents events m = .ok created m' ∧ SiblingsExact m'.nodes ∧
      List.range m'.nodes.next = List.range m.nodes.next ++ created ∧
      created.length = (creations events).length ∧
      ∀ a x, origin m'.nodes a = some x ↔
        a ∉ removals events ∧ (origin m.nodes a = some x ∨ (a, x) ∈ created.zip (creations events)) := by
  induction events generalizing m with
  | nil =>
      refine ⟨[], m, rfl, h, by rw [List.append_nil], rfl, fun a x => ?_⟩
      simp [removals]
  | cons event rest ih =>
      obtain ⟨hnow, hlater⟩ := hallowed
      obtain ⟨m₁, hrun, h₁, hnew, horigin⟩ := event.run_exact h hnow
      obtain ⟨later, m', hrest, h', hcreated, hlength, hlive⟩ := ih h₁ (hlater _ m₁ hrun)
      refine ⟨event.new m.nodes.next ++ later, m', ?_, h', ?_, ?_, fun a x => ?_⟩
      · rw [runEvents, Cmd.bind_ok hrun, Cmd.bind_ok hrest]
        rfl
      · rw [hcreated, hnew, List.append_assoc]
      · cases event with
        | create newData hParent =>
            rw [List.length_append, hlength]
            exact Nat.add_comm 1 _
        | remove hChild => exact hlength
      · rw [hlive, horigin]
        cases event with
        | create newData hParent =>
            have hsplit : (if a = m.nodes.next then some (newData, hParent) else origin m.nodes a) = some x ↔
                origin m.nodes a = some x ∨ (a, x) = (m.nodes.next, newData, hParent) := by
              split_ifs with ha
              · rw [origin_eq_none (Nat.le_of_eq ha.symm), ha]
                constructor
                · intro heq
                  exact .inr (by rw [Option.some.inj heq])
                · rintro (heq | heq)
                  · cases heq
                  · rw [(Prod.mk.inj heq).2]
              · simp [ha]
            show _ ∧ ((if a = m.nodes.next then _ else _) = some x ∨ _) ↔
              a ∉ removals rest ∧ (_ ∨ (a, x) ∈ (m.nodes.next, newData, hParent) :: later.zip (creations rest))
            rw [hsplit, List.mem_cons, or_assoc]
        | remove hChild =>
            -- what is created later lies behind the removed node
            have hbehind : (a, x) ∈ later.zip (creations rest) → a ≠ hChild := by
              rintro hmem rfl
              obtain ⟨⟨child, hc⟩, -⟩ := hnow
              have hnodup := List.nodup_range (n := m'.nodes.next)
              rw [hcreated, hnew, List.nodup_append] at hnodup
              exact hnodup.2.2 a (List.mem_append_left _ (List.mem_range.mpr (Heap.lt_next hc))) a
                (List.of_mem_zip hmem).1 rfl
            show _ ∧ ((if a = hChild then none else origin m.nodes a) = some x ∨ _) ↔
              a ∉ hChild :: removals rest ∧ (_ ∨ (a, x) ∈ later.zip (creations rest))
            rw [List.mem_cons, not_or]
            split_ifs with ha
            · simp only [ha, not_true_eq_false, false_and, iff_false, not_and, false_or]
              exact fun _ hmem => hbehind (by rwa [ha]) ha
            · rw [and_assoc, and_iff_right ha]

/-- With no node, every list of children is exact. -/
theorem siblingsExact_empty : SiblingsExact (Heap.empty : Heap (HNode α)) where
  parent a p h := by cases h
  children p node hc := by cases hc

/-! ## The walk over the children -/

/-- The loop of `h_tree_flatten_h_children` visits a sibling list, when the array is large enough. -/
theorem flattenSiblings_run {m : HMem α β} {l : List Nat} {q : Ptr} {fuel slots : Nat}
    (h : Chain (nextSibling m.nodes) q l)
    (hlive : ∀ x ∈ l, ∃ node, m.nodes.cell x = some node) (hfuel : l.length < fuel)
    (hslots : l.length < slots) :
    flattenSiblings fuel slots q m =
      .ok (l.filterMap fun a => (m.nodes.cell a).map HNode.data) m := by
  induction l generalizing q fuel slots with
  | nil =>
      obtain rfl := h
      obtain ⟨fuel, rfl⟩ := Nat.exists_eq_succ_of_ne_zero (Nat.ne_of_gt hfuel)
      have hslots' : slots ≠ 0 := Nat.ne_of_gt hslots
      rw [flattenSiblings, if_neg hslots']
      rfl
  | cons a l ih =>
      obtain ⟨rfl, hrest⟩ := h
      obtain ⟨node, hc⟩ := hlive a (by simp)
      obtain ⟨fuel, rfl⟩ := Nat.exists_eq_succ_of_ne_zero
        (Nat.ne_of_gt (Nat.zero_lt_of_lt hfuel))
      rw [nextSibling_eq hc] at hrest
      rw [List.length_cons] at hfuel hslots
      have hlater := ih hrest (fun x hx => hlive x (List.mem_cons_of_mem a hx))
        (by omega : l.length < fuel) (by omega : l.length < slots - 1)
      rw [flattenSiblings, if_neg (by omega), Cmd.bind_ok (deref_run hc), Cmd.bind_ok hlater]
      simp [hc]

/-- **Sibling lists are exact.** After every allowed interleaving of creations and removals of childless
nodes, the live nodes are exactly those created and not removed, with the data and the `h_parent` that they
were created with; the walk from `h_children` of a live node along `h_next_sibling` ends and visits the live
nodes whose `h_parent` it is, each once, in reverse order of creation; `h_tree_flatten_h_children` collects
their data. -/
theorem runEvents_siblings {events : List (HEvent α)} {store : β} {errno : Int}
    (hallowed : EventsAllowed events (⟨Heap.empty, store, errno⟩ : HMem α β)) :
    ∃ created m, runEvents events (⟨Heap.empty, store, errno⟩ : HMem α β) = .ok created m ∧
      created.Nodup ∧ created.length = (creations events).length ∧
      (∀ a x, origin m.nodes a = some x ↔ (a, x) ∈ created.zip (creations events) ∧ a ∉ removals events) ∧
      ∀ p node, m.nodes.cell p = some node →
        Chain (nextSibling m.nodes) node.hChildren
          (created.reverse.filter fun a => hParentOf m.nodes a = some p) ∧
        ∀ slots, created.length < slots → hTreeFlattenHChildren p slots m =
          .ok ((created.reverse.filter fun a => hParentOf m.nodes a = some p).filterMap fun a =>
            (m.nodes.cell a).map HNode.data) m := by
  obtain ⟨created, m, hrun, hexact, hcreated, hlength, hlive⟩ :=
    runEvents_exact (m := ⟨Heap.empty, store, errno⟩) siblingsExact_empty hallowed
  have hrange : created = List.range m.nodes.next := hcreated.symm
  subst hrange
  refine ⟨_, m, hrun, List.nodup_range, hlength, ?_, ?_⟩
  · intro a x
    rw [hlive, and_comm]
    exact and_congr_left fun _ => or_iff_right (by simp [origin, Heap.empty])
  · intro p node hc
    have hchain := hexact.children p node hc
    refine ⟨hchain, ?_⟩
    intro slots hslots
    rw [List.length_range] at hslots
    have hlen := length_hChildrenOf_le m.nodes p
    rw [hTreeFlattenHChildren, Cmd.bind_ok (deref_run hc), Cmd.get_bind]
    apply flattenSiblings_run hchain
    · intro x hx
      obtain ⟨node', hc', -⟩ := live_of_hParentOf (mem_hChildrenOf.mp hx)
      exact ⟨node', hc'⟩
    · show (hChildrenOf m.nodes p).length < _
      omega
    · show (hChildrenOf m.nodes p).length < _
      omega

/-- A root, three children, and the removal of the one in the middle. -/
def familyEvents : List (HEvent Nat) :=
  [.create 10 none, .create 11 (some 0), .create 12 (some 0), .create 13 (some 0), .remove 2]

/-- The events of the small family are allowed one after the other. -/
theorem eventsAllowed_familyEvents :
    EventsAllowed familyEvents (⟨Heap.empty, (⟨⟩ : PUnit), 0⟩ : HMem Nat PUnit) := by
  refine ⟨by simp [HEvent.Allowed], ?_⟩
  intro new m₁ h₁
  cases h₁
  refine ⟨by rintro p ⟨⟩; exact ⟨_, rfl⟩, ?_⟩
  intro new m₂ h₂
  cases h₂
  refine ⟨by rintro p ⟨⟩; exact ⟨_, rfl⟩, ?_⟩
  intro new m₃ h₃
  cases h₃
  refine ⟨by rintro p ⟨⟩; exact ⟨_, rfl⟩, ?_⟩
  intro new m₄ h₄
  cases h₄
  refine ⟨⟨⟨_, rfl⟩, ?_⟩, fun _ _ _ => trivial⟩
  intro x hx
  obtain ⟨node, hc, -⟩ := live_of_hParentOf hx
  have hlt : x < 4 := Heap.lt_next hc
  interval_cases x
  all_goals exact absurd hx (by decide)

/-- The small family after the removal: two of the three children are left, the last one first. -/
theorem runEvents_siblings_familyEvents : ∃ created m,
    runEvents familyEvents (⟨Heap.empty, (⟨⟩ : PUnit), 0⟩ : HMem Nat PUnit) = .ok created m ∧
      created.Nodup ∧ created.length = (creations familyEvents).length ∧
      (∀ a x, origin m.nodes a = some x ↔
        (a, x) ∈ created.zip (creations familyEvents) ∧ a ∉ removals familyEvents) ∧
      ∀ p node, m.nodes.cell p = some node →
        Chain (nextSibling m.nodes) node.hChildren
          (created.reverse.filter fun a => hParentOf m.nodes a = some p) ∧
        ∀ slots, created.length < slots → hTreeFlattenHChildren p slots m =
          .ok ((created.reverse.filter fun a => hParentOf m.nodes a = some p).filterMap fun a =>
            (m.nodes.cell a).map HNode.data) m :=
  runEvents_siblings eventsAllowed_familyEvents

end OsLabs.Fat
