import OsLabs.Fat.TreeSequences

/-! # How often a deletion destroys data

`delete_root` destroys the data of the node it is called on, and when it moves that node down it
calls itself on it again. The calls of `data_destroy` are recorded next to the memory it works on, and
counted for every tree built by insertions and every key. -/

namespace OsLabs.Fat

open SearchTree

variable {α β κ : Type}

/-! ## The store a deletion leaves -/

/-- When the right child of the root has a left child, the data of the root are destroyed a second
time. -/
theorem deleteRoot_twice {m m' : HMem α β} {a : Nat} {l r : BinaryTree Nat} {node : HNode α}
    {store : β} {q : Ptr} {dataDestroy : DataModifyFn α β}
    (h : Represents m.nodes (some a) (.node a l r)) (hc : m.nodes.cell a = some node)
    (hchild : ¬ SuccessorIsChild (.node a l r)) (hd : dataDestroy node.data m.store = .ok store)
    (hrun : deleteRoot dataDestroy 2 a m = .ok q m') :
    dataDestroy node.data store = .ok m'.store ∧ (∃ k, SizeAt m'.nodes q k) ∧
      ∀ x, x ∉ inorder (.node a l r) → m'.nodes.cell x = m.nodes.cell x := by
  cases hd' : dataDestroy node.data store with
  | error e =>
      obtain ⟨m₁, herr⟩ := deleteRoot_second_error h hc hchild hd hd'
      rw [herr] at hrun
      cases hrun
  | ok store' =>
      rcases l with _ | ⟨b, ll, lr⟩
      · exact absurd trivial hchild
      rcases r with _ | ⟨mr, _ | ⟨f, _ | ⟨g, gl, gr⟩, fr⟩, rr⟩
      · exact absurd trivial hchild
      · exact absurd trivial hchild
      · -- the successor is the left child of the right child
        obtain ⟨q', m₁, hnear, hrem⟩ := deleteRoot_near 0 h hc hd hd'
        rw [hnear] at hrun
        cases hrun
        refine ⟨by rw [hrem.store], ⟨_, hrem.represents.sizeAt⟩, ?_⟩
        intro x hx
        apply hrem.same x
        · rintro rfl
          simp at hx
        · intro hin
          simp only [inorder_node, inorder_nil, List.mem_append, List.mem_cons] at hx hin
          tauto
      · -- the successor is further down
        obtain ⟨q', m₁, hfar, hstore, ⟨node', hq⟩, hout, -⟩ := deleteRoot_far 0 h hc hd hd'
        rw [hfar] at hrun
        cases hrun
        exact ⟨by rw [hstore], ⟨_, node', hq, rfl⟩, hout⟩

section Store

variable {m : HMem α β} {key : κ} {dataCmpKey : DataCmpFn α β κ} {dataDestroy : DataModifyFn α β}
  {c : Nat → Int} {p : Ptr} {t : BinaryTree Nat} {fuel a : Nat} {l r : BinaryTree Nat}
  {node : HNode α} {store : β}

/-- A node whose successor is its right child is destroyed once. -/
theorem hTreeDelete_store_once (h : Represents m.nodes p t)
    (hcmp : ComparesAs m.nodes t (fun data => dataCmpKey m.store data key) c)
    (hfuel : t.height < fuel) (hlive : HierarchyLive m.nodes) (hsub : subtreeBy c t = .node a l r)
    (hc : m.nodes.cell a = some node) (hd : dataDestroy node.data m.store = .ok store)
    (hchild : SuccessorIsChild (.node a l r)) :
    ∃ p' m', hTreeDelete key dataCmpKey dataDestroy fuel p m = .ok p' m' ∧ m'.store = store := by
  obtain ⟨m₀, hunlink⟩ := removeChildFromH_run hlive hc
  have hframe := (within_removeChildFromH a).ok hunlink
  obtain ⟨node₀, hc₀, hlinks⟩ := hframe.live hc
  simp only [HNode.links, Prod.mk.injEq] at hlinks
  have hd₀ : dataDestroy node₀.data m₀.store = .ok store := by
    rw [hlinks.1, hframe.store, hd]
  obtain ⟨q, m₁, hroot, hrem⟩ :=
    deleteRoot_of_isChild (hframe.represents (represents_subtreeBy h hsub)) hc₀ hd₀ hchild
  have hremovable : Removable dataDestroy m (.node a l r) := .inl hchild
  obtain ⟨p', m', hrun, hdel⟩ :=
    hTreeDelete_of_rootRemoved h hcmp hfuel hsub hunlink hroot hremovable.near hrem
  exact ⟨p', m', hrun, hdel.store⟩

/-- Any other node that is found is destroyed twice, if the deletion returns. -/
theorem hTreeDelete_store_twice {p' : Ptr} {m' : HMem α β} (h : Represents m.nodes p t)
    (hcmp : ComparesAs m.nodes t (fun data => dataCmpKey m.store data key) c)
    (hfuel : t.height < fuel) (hlive : HierarchyLive m.nodes) (hsub : subtreeBy c t = .node a l r)
    (hc : m.nodes.cell a = some node) (hd : dataDestroy node.data m.store = .ok store)
    (hchild : ¬ SuccessorIsChild (.node a l r))
    (hrun : hTreeDelete key dataCmpKey dataDestroy fuel p m = .ok p' m') :
    dataDestroy node.data store = .ok m'.store := by
  obtain ⟨m₀, hunlink⟩ := removeChildFromH_run hlive hc
  have hframe := (within_removeChildFromH a).ok hunlink
  obtain ⟨node₀, hc₀, hlinks⟩ := hframe.live hc
  simp only [HNode.links, Prod.mk.injEq] at hlinks
  have hd₀ : dataDestroy node₀.data m₀.store = .ok store := by
    rw [hlinks.1, hframe.store, hd]
  have hact : removeNode dataDestroy a m = deleteRoot dataDestroy 2 a m₀ := by
    unfold removeNode
    rw [Cmd.bind_ok hunlink]
  cases hroot : deleteRoot dataDestroy 2 a m₀ with
  | error e m₁ =>
      rw [hTreeDelete_error h hcmp hfuel hsub (hact.trans hroot)] at hrun
      cases hrun
  | ok q m₁ =>
      obtain ⟨hstore, hq, hout⟩ := deleteRoot_twice
        (hframe.represents (represents_subtreeBy h hsub)) hc₀ hchild hd₀ hroot
      obtain ⟨p'', nodes, hrun', -⟩ := hTreeDelete_at h hcmp hfuel hsub (hact.trans hroot) hq
        (by
          intro x _ hx
          rw [hout x hx, hframe.links x])
      rw [hrun'] at hrun
      cases hrun
      rw [← hlinks.1]
      exact hstore

end Store

/-! ## Recorded calls -/

/-- A callback that records, after what it does, the data it was called on. -/
def traced (dataDestroy : DataModifyFn α β) : DataModifyFn α (β × List α) :=
  fun data store =>
    match dataDestroy data store.1 with
    | .ok store' => .ok (store', store.2 ++ [data])
    | .error e => .error e

/-- A comparison that does not read the record. -/
def untraced (cmp : DataCmpFn α β κ) : DataCmpFn α (β × List α) κ :=
  fun store data key => cmp store.1 data key

/-- A destruction that succeeds is traced. -/
theorem traced_ok {dataDestroy : DataModifyFn α β} {data : α} {store store' : β} {calls : List α}
    (h : dataDestroy data store = .ok store') :
    traced dataDestroy data (store, calls) = .ok (store', calls ++ [data]) := by
  simp only [traced, h]

/-- A recorded call that returned is the last one of the record. -/
theorem traced_eq_ok {dataDestroy : DataModifyFn α β} {data : α} {store store' : β × List α}
    (h : traced dataDestroy data store = .ok store') : store'.2 = store.2 ++ [data] := by
  unfold traced at h
  split at h
  · cases h
    rfl
  · cases h

/-- The data of the nodes with a key, in order. -/
def dataWithKey [DecidableEq κ] (keyOf : α → κ) (nodes : Heap (HNode α)) (key : κ)
    (t : BinaryTree Nat) : List α :=
  ((inorder t).filter fun a => keyAt keyOf nodes a = some key).filterMap fun a =>
    (nodes.cell a).map HNode.data

/-- The deletion returns after calling the callback once on each datum with the key, and on no other
datum. -/
def DestroysMatched [DecidableEq κ] (keyOf : α → κ) (key : κ) (dataCmpKey : DataCmpFn α β κ)
    (dataDestroy : DataModifyFn α β) (fuel : Nat) (p : Ptr) (m : HMem α (β × List α))
    (t : BinaryTree Nat) : Prop :=
  ∃ p' m', hTreeDelete key (untraced dataCmpKey) (traced dataDestroy) fuel p m = .ok p' m' ∧
    m'.store.2 = m.store.2 ++ dataWithKey keyOf m.nodes key t

section Matched

variable [LinearOrder κ] {dataCmp : DataCmpFn α β α} {dataCmpKey : DataCmpFn α β κ} {keyOf : α → κ}

/-- Tracing the destructions does not change the comparisons. -/
theorem Compares.untraced {store : β} (h : Compares dataCmp dataCmpKey keyOf store)
    (calls : List α) :
    Compares (untraced dataCmp) (untraced dataCmpKey) keyOf (store, calls) where
  data := h.data
  key := h.key

/-- The nodes of a tree whose key is the one compared with. -/
theorem filter_key_eq {m : HMem α β} {p : Ptr} {t : BinaryTree Nat}
    (hcmp : Compares dataCmp dataCmpKey keyOf m.store) (h : Represents m.nodes p t) (key : κ) :
    ((inorder t).filter fun a => keyAt keyOf m.nodes a = some key) =
      (inorder t).filter fun a =>
        compareWith m.nodes (fun data => dataCmpKey m.store data key) a = 0 := by
  apply List.filter_congr
  intro a ha
  obtain ⟨node, hc⟩ := live_of_linked h.linked ha
  rw [decide_eq_decide]
  exact (compareWith_eq_zero_iff hc fun data => hcmp.key data key).symm

/-- The data with a key are those of the node a search finds. -/
theorem dataWithKey_eq {m : HMem α β} {p : Ptr} {t : BinaryTree Nat}
    (hcmp : Compares dataCmp dataCmpKey keyOf m.store) (h : Grown keyOf m p t) (key : κ) :
    dataWithKey keyOf m.nodes key t =
      (locate (compareWith m.nodes fun data => dataCmpKey m.store data key) t).toList.filterMap
        fun a => (m.nodes.cell a).map HNode.data := by
  unfold dataWithKey
  rw [filter_key_eq hcmp h.represents key,
    filter_eq_zero (h.ordered.monotone fun data => hcmp.key data key)]

/-- No two nodes of an ordered tree have the same key. -/
theorem length_dataWithKey_le {m : HMem α β} {p : Ptr} {t : BinaryTree Nat}
    (hcmp : Compares dataCmp dataCmpKey keyOf m.store) (h : Grown keyOf m p t) (key : κ) :
    (dataWithKey keyOf m.nodes key t).length ≤ 1 := by
  rw [dataWithKey_eq hcmp h key]
  exact (List.length_filterMap_le _ _).trans Option.length_toList_le

/-- From a grown tree, a deletion destroys what it should if and only if the successor of the node to
remove is its right child. -/
theorem destroysMatched_iff {m : HMem α (β × List α)} {p : Ptr} {t : BinaryTree Nat} {fuel : Nat}
    {dataDestroy : DataModifyFn α β} (hcmp : Compares dataCmp dataCmpKey keyOf m.store.1)
    (hd : ∀ a node, m.nodes.cell a = some node →
      ∃ store', dataDestroy node.data m.store.1 = .ok store')
    (h : Grown keyOf m p t) (key : κ) (hfuel : m.nodes.next < fuel) :
    DestroysMatched keyOf key dataCmpKey dataDestroy fuel p m t ↔
      SuccessorIsChild
        (subtreeBy (compareWith m.nodes fun data => dataCmpKey m.store.1 data key) t) := by
  have hcmp' : Compares (untraced dataCmp) (untraced dataCmpKey) keyOf m.store :=
    hcmp.untraced m.store.2
  set c := compareWith m.nodes fun data => dataCmpKey m.store.1 data key with hcdef
  have hall : ComparesAs m.nodes t (fun data => untraced dataCmpKey m.store data key) c :=
    comparesAs_compareWith (fun data => (hcmp'.key data key).imp fun _ h => h.1) t
  have hheight : t.height < fuel := by
    have := h.represents.height_lt
    omega
  have hdata := dataWithKey_eq hcmp' h key
  change dataWithKey keyOf m.nodes key t = (locate c t).toList.filterMap _ at hdata
  unfold DestroysMatched
  rw [hdata]
  cases hsub : subtreeBy c t with
  | nil =>
      -- the key is absent: nothing is destroyed
      refine ⟨fun _ => trivial, fun _ => ?_⟩
      obtain ⟨nodes, hrun, -⟩ :=
        hTreeDelete_notFound (traced dataDestroy) h.represents hall hheight hsub
      refine ⟨p, { m with nodes := nodes }, hrun, ?_⟩
      rw [subtreeBy_eq_nil_iff.mp hsub]
      simp
  | node a l r =>
      have hrep := represents_subtreeBy h.represents hsub
      obtain ⟨-, node, hc, -⟩ := represents_node hrep
      obtain ⟨store, hstore⟩ := hd a node hc
      have hd₁ : traced dataDestroy node.data m.store = .ok (store, m.store.2 ++ [node.data]) :=
        traced_ok hstore
      rw [locate_eq_of_subtreeBy hsub]
      simp only [Option.toList_some, List.filterMap_cons, List.filterMap_nil, hc, Option.map_some]
      constructor
      · rintro ⟨p', m', hrun, hcalls⟩
        by_contra hchild
        have htwice := traced_eq_ok (hTreeDelete_store_twice h.represents hall hheight h.hierarchy
          hsub hc hd₁ hchild hrun)
        rw [htwice] at hcalls
        simp at hcalls
      · intro hchild
        obtain ⟨p', m', hrun, hs⟩ := hTreeDelete_store_once h.represents hall hheight h.hierarchy
          hsub hc hd₁ hchild
        exact ⟨p', m', hrun, by rw [hs]⟩

/-- For every tree built by insertions and every key, a deletion calls `data_destroy` exactly once, on
the data of the node whose key matched (and not at all when there is none), if and only if that node
has at most one subtree or its right child has no left child. -/
theorem hTreeDelete_destroysMatched_iff {inserts : List (α × Ptr)} {m : HMem α (β × List α)}
    {p : Ptr} {store : β} {errno : Int} {dataDestroy : DataModifyFn α β} {fuel : Nat}
    (hcmp : Compares dataCmp dataCmpKey keyOf store)
    (hrun : insertAll (untraced dataCmp) inserts none ⟨Heap.empty, (store, []), errno⟩ = .ok p m)
    (hd : ∀ a node, m.nodes.cell a = some node →
      ∃ store', dataDestroy node.data store = .ok store')
    (key : κ) (hfuel : m.nodes.next < fuel) :
    ∃ t, Represents m.nodes p t ∧ Ordered keyOf m.nodes t ∧
      (DestroysMatched keyOf key dataCmpKey dataDestroy fuel p m t ↔
        SuccessorIsChild
          (subtreeBy (compareWith m.nodes fun data => dataCmpKey store data key) t)) := by
  obtain ⟨hstore, t, ht⟩ :=
    insertAll_grown (hcmp.untraced []) (grown_empty keyOf (store, []) errno) hrun
  refine ⟨t, ht.represents, ht.ordered, ?_⟩
  have hstore₁ : m.store.1 = store := by rw [hstore]
  subst hstore₁
  exact destroysMatched_iff hcmp hd ht key hfuel

end Matched

/-! ## Trees of numbers -/

/-- Insert numbers into an empty tree, next to an empty record. -/
def insertTraced (numbers : List Nat) : EStateM.Result Fault (HMem Nat (PUnit × List Nat)) Ptr :=
  insertAll (untraced natCmp) (numbers.map fun n => (n, none)) none ⟨Heap.empty, (⟨⟩, []), 0⟩

/-- The equivalence for the deletion of `2` after inserting `2`, `1` and `6`. -/
theorem hTreeDelete_destroysMatched_iff_numbers : ∃ m t, insertTraced [2, 1, 6] = .ok (some 0) m ∧
    Represents m.nodes (some 0) t ∧ Ordered id m.nodes t ∧
    (DestroysMatched id 2 natCmp natDestroy (m.nodes.next + 1) (some 0) m t ↔
      SuccessorIsChild (subtreeBy (compareWith m.nodes fun data => natCmp ⟨⟩ data 2) t)) := by
  obtain ⟨m, hm⟩ := Cmd.ret?_eq_some (r := insertTraced [2, 1, 6]) (a := some 0) (by decide +kernel)
  obtain ⟨t, ht⟩ := hTreeDelete_destroysMatched_iff compares_natCmp hm
    (fun _ node _ => ⟨⟨⟩, (rfl : natDestroy node.data ⟨⟩ = _)⟩) 2 (Nat.lt_succ_self m.nodes.next)
  exact ⟨m, t, hm, ht⟩

/-- The record after inserting numbers and deleting one. -/
def callsOfDelete (numbers : List Nat) (key : Nat) : Option (List Nat) :=
  match insertTraced numbers with
  | .ok p m =>
      match hTreeDelete key (untraced natCmp) (traced natDestroy) (m.nodes.next + 1) p m with
      | .ok _ m' => some m'.store.2
      | .error _ _ => none
  | .error _ _ => none

/-- Deleting `2` from the tree of `2`, `1`, `6` and `5` destroys `2` twice. -/
theorem not_forall_destroysMatched :
    ¬ ∀ (numbers : List Nat) (key : Nat) (m : HMem Nat (PUnit × List Nat)) (p : Ptr),
      insertTraced numbers = .ok p m → ∃ t, Represents m.nodes p t ∧ Ordered id m.nodes t ∧
        DestroysMatched id key natCmp natDestroy (m.nodes.next + 1) p m t := by
  intro h
  obtain ⟨m, hm⟩ := Cmd.ret?_eq_some (r := insertTraced [2, 1, 6, 5]) (a := some 0)
    (by decide +kernel)
  obtain ⟨t, hrep, hord, p', m', hrun, hcalls⟩ := h [2, 1, 6, 5] 2 m (some 0) hm
  have htwice : callsOfDelete [2, 1, 6, 5] 2 = some [2, 2] := by decide +kernel
  simp only [callsOfDelete, hm, hrun, Option.some.injEq] at htwice
  have hcmp : Compares (untraced natCmp) (untraced natCmp) id ((⟨⟩, []) : PUnit × List Nat) :=
    compares_natCmp.untraced []
  have hempty : Grown id (⟨Heap.empty, (⟨⟩, []), 0⟩ : HMem Nat (PUnit × List Nat)) none .nil :=
    grown_empty id _ 0
  obtain ⟨hstore, t', ht'⟩ := insertAll_grown hcmp hempty hm
  obtain rfl := hrep.unique ht'.represents
  replace hstore : m.store = (⟨⟩, []) := hstore
  have hle := length_dataWithKey_le (hstore ▸ hcmp) ht' 2
  rw [hstore, htwice, List.nil_append] at hcalls
  rw [← hcalls] at hle
  simp at hle

end OsLabs.Fat
