import OsLabs.Fat.TreeSequences

/-! # Insertion and search as a finite map

After any sequence of insertions into an empty tree, the nodes are exactly those created by the first
insertion of each key (`Holds`), a search finds them by their key, and an insertion of a key that is
already there leaves the memory as it was (`hTreeInsert_present`). -/

namespace OsLabs.Fat

open SearchTree

variable {α β κ : Type}

/-! ## Memory that is rebuilt as it was -/

/-- Heaps with the same cells and the same next address are equal. -/
theorem heap_ext {nodes nodes' : Heap α} (hcell : ∀ a, nodes.cell a = nodes'.cell a)
    (hnext : nodes.next = nodes'.next) : nodes = nodes' := by
  cases nodes
  cases nodes'
  cases hnext
  congr
  funext a
  exact hcell a

/-- Two memories with the same tree under a pointer have the same links and sizes in it. -/
theorem Represents.links_eq {nodes nodes' : Heap (HNode α)} {p : Ptr} {t : BinaryTree Nat}
    (h : Represents nodes p t) (h' : Represents nodes' p t) {a : Nat} {node node' : HNode α}
    (ha : a ∈ inorder t) (hc : nodes.cell a = some node) (hc' : nodes'.cell a = some node') :
    node'.left = node.left ∧ node'.right = node.right ∧ node'.size = node.size := by
  induction t generalizing p with
  | nil => cases ha
  | node b l r ihl ihr =>
      obtain ⟨-, nb, hcb, hs, hl, hr⟩ := represents_node h
      obtain ⟨-, nb', hcb', hs', hl', hr'⟩ := represents_node h'
      -- the root of a subtree is what the link to it points to
      have hroot : ∀ {q q' : Ptr} {s : BinaryTree Nat}, Represents nodes q s →
          Represents nodes' q' s → q' = q := by
        intro q q' s hq hq'
        cases s with
        | nil => exact hq'.linked.trans hq.linked.symm
        | node x sl sr => exact (represents_node hq').1.trans (represents_node hq).1.symm
      have hleft := hroot hl hl'
      have hright := hroot hr hr'
      rw [inorder_node, List.mem_append, List.mem_cons] at ha
      rcases ha with ha | rfl | ha
      · rw [hleft] at hl'
        exact ihl hl hl' ha
      · cases hc.symm.trans hcb
        cases hc'.symm.trans hcb'
        exact ⟨hleft, hright, by rw [hs', hs]⟩
      · rw [hright] at hr'
        exact ihr hr hr' ha

/-- A frame whose tree is the same changed nothing. -/
theorem LinksFrame.eq_of_represents {nodes nodes' : Heap (HNode α)} {p : Ptr} {t : BinaryTree Nat}
    (h : LinksFrame (· ∈ inorder t) nodes nodes') (hr : Represents nodes p t)
    (hr' : Represents nodes' p t) : nodes' = nodes := by
  apply heap_ext _ h.next
  intro a
  by_cases ha : a ∈ inorder t
  · obtain ⟨node, hc⟩ := live_of_linked hr.linked ha
    obtain ⟨node', hc', hhier⟩ := h.live hc
    obtain ⟨hleft, hright, hsize⟩ := hr.links_eq hr' ha hc hc'
    rw [hc, hc']
    cases node
    cases node'
    simp only [HNode.hier, Prod.mk.injEq] at hhier
    simp_all
  · exact h.same a ha

section Map

variable [LinearOrder κ] {dataCmp : DataCmpFn α β α} {dataCmpKey : DataCmpFn α β κ} {keyOf : α → κ}

/-! ## Created nodes -/

/-- The tree consists of one node for each of the keys, in the order of their first insertion. -/
structure Holds (keyOf : α → κ) (created : List κ) (m : HMem α β) (p : Ptr) (t : BinaryTree Nat) :
    Prop where
  grown : Grown keyOf m p t
  nodup : created.Nodup
  key : ∀ a, keyAt keyOf m.nodes a = created[a]?
  mem : ∀ a, a ∈ inorder t ↔ a < created.length
  next : m.nodes.next = created.length

/-- An empty tree holds no data. -/
theorem holds_empty (keyOf : α → κ) (store : β) (errno : Int) :
    Holds keyOf [] (⟨Heap.empty, store, errno⟩ : HMem α β) none .nil where
  grown := grown_empty keyOf store errno
  nodup := List.nodup_nil
  key a := by simp [keyAt]
  mem a := by simp
  next := rfl

variable {created : List κ} {m : HMem α β} {p : Ptr} {t : BinaryTree Nat}

/-- The number of nodes is the number of keys. -/
theorem Holds.numNodes (h : Holds keyOf created m p t) : t.numNodes = created.length := by
  rw [← length_inorder]
  have hperm : List.Perm (inorder t) (List.range created.length) := by
    rw [List.perm_ext_iff_of_nodup h.grown.represents.nodup List.nodup_range]
    intro a
    rw [h.mem a, List.mem_range]
  rw [hperm.length_eq, List.length_range]

/-- The node that was created for a key. -/
theorem Holds.node_of_key (h : Holds keyOf created m p t) {a : Nat} {key : κ}
    (ha : created[a]? = some key) :
    a ∈ inorder t ∧ ∃ node, m.nodes.cell a = some node ∧ keyOf node.data = key := by
  obtain ⟨hlt, -⟩ := List.getElem?_eq_some_iff.mp ha
  refine ⟨(h.mem a).mpr hlt, ?_⟩
  have hkey := h.key a
  rw [ha, keyAt] at hkey
  exact Option.map_eq_some_iff.mp hkey

/-! ## Searching -/

/-- A search for a key that was inserted returns its node. -/
theorem Holds.search_present (h : Holds keyOf created m p t)
    (hcmp : Compares dataCmp dataCmpKey keyOf m.store) {a fuel : Nat} {key : κ}
    (ha : created[a]? = some key) (hfuel : m.nodes.next < fuel) :
    hTreeSearch key dataCmpKey fuel p m = .ok (some a) m := by
  obtain ⟨hmem, node, hc, hkey⟩ := h.node_of_key ha
  have hmono := h.grown.ordered.monotone fun data => hcmp.key data key
  have hzero : compareWith m.nodes (fun data => dataCmpKey m.store data key) a = 0 := by
    rw [compareWith_eq_zero_iff hc fun data => hcmp.key data key, keyAt, hc, ← hkey]
    rfl
  have hheight := h.grown.represents.height_lt
  rw [hTreeSearch_run h.grown.represents
    (comparesAs_compareWith (fun data => (hcmp.key data key).imp fun _ h => h.1) t) (by omega),
    locate_eq_some hmono hmem hzero]

/-- A search for any other key returns `NULL`. -/
theorem Holds.search_absent (h : Holds keyOf created m p t)
    (hcmp : Compares dataCmp dataCmpKey keyOf m.store) {fuel : Nat} {key : κ}
    (hkey : key ∉ created) (hfuel : m.nodes.next < fuel) :
    hTreeSearch key dataCmpKey fuel p m = .ok none m := by
  have hheight := h.grown.represents.height_lt
  rw [hTreeSearch_run h.grown.represents
    (comparesAs_compareWith (fun data => (hcmp.key data key).imp fun _ h => h.1) t) (by omega)]
  congr 1
  cases hloc : locate (compareWith m.nodes fun data => dataCmpKey m.store data key) t with
  | none => rfl
  | some a =>
      -- what the search would find has the key
      obtain ⟨hmem, hzero⟩ := locate_mem hloc
      obtain ⟨node, hc⟩ := live_of_linked h.grown.represents.linked hmem
      rw [compareWith_eq_zero_iff hc fun data => hcmp.key data key, h.key a] at hzero
      exact absurd (List.mem_of_getElem? hzero) hkey

/-! ## Inserting -/

/-- The comparison of the datum to insert with the datum of a node. -/
def insertCmp (dataCmp : DataCmpFn α β α) (m : HMem α β) (newData : α) : Nat → Int :=
  compareWith m.nodes (dataCmp m.store newData)

/-- The comparison that inserts is good for the tree it inserts into. -/
theorem comparesAs_insertCmp (hcmp : Compares dataCmp dataCmpKey keyOf m.store) (newData : α)
    (t : BinaryTree Nat) :
    ComparesAs m.nodes t (fun data => dataCmp m.store newData data) (insertCmp dataCmp m newData) :=
  comparesAs_compareWith (fun data => (hcmp.data newData data).imp fun _ h => h.1) t

/-- The comparison is zero exactly at the key of the datum. -/
theorem insertCmp_eq_zero_iff (hcmp : Compares dataCmp dataCmpKey keyOf m.store) {newData : α}
    {a : Nat} {node : HNode α} (hc : m.nodes.cell a = some node) :
    insertCmp dataCmp m newData a = 0 ↔ keyOf node.data = keyOf newData := by
  obtain ⟨c, hcmpc, hneg, hpos⟩ := hcmp.data newData node.data
  rw [insertCmp, compareWith_eq hc hcmpc]
  constructor
  · rintro rfl
    apply le_antisymm
    · exact not_lt.mp fun h => absurd (hneg.mpr h) (lt_irrefl 0)
    · exact not_lt.mp fun h => absurd (hpos.mpr h) (lt_irrefl 0)
  · intro hk
    have h1 : ¬ c < 0 := fun h => (hneg.mp h).ne hk.symm
    have h2 : ¬ 0 < c := fun h => (hpos.mp h).ne hk
    omega

/-- Down an ordered tree, what compares as smaller comes first. -/
theorem monotone_insertCmp (hcmp : Compares dataCmp dataCmpKey keyOf m.store)
    (h : Ordered keyOf m.nodes t) (newData : α) :
    Monotone (fun a => -insertCmp dataCmp m newData a) (inorder t) := by
  apply h.imp
  rintro a b ⟨k, k', hk, hk', hlt⟩ ha
  obtain ⟨na, hca, rfl⟩ := Option.map_eq_some_iff.mp hk
  obtain ⟨nb, hcb, rfl⟩ := Option.map_eq_some_iff.mp hk'
  obtain ⟨ca, hcmpa, -, hposa⟩ := hcmp.data newData na.data
  obtain ⟨cb, hcmpb, hnegb, -⟩ := hcmp.data newData nb.data
  simp only [insertCmp, compareWith_eq hca hcmpa, compareWith_eq hcb hcmpb] at ha ⊢
  have hle : keyOf newData ≤ keyOf na.data := not_lt.mp fun h => by
    have := hposa.mpr h
    omega
  have := hnegb.mpr (hle.trans_lt hlt)
  omega

/-- The search of an insertion meets a node exactly when the key was inserted before. -/
theorem Holds.locate_eq_none_iff (h : Holds keyOf created m p t)
    (hcmp : Compares dataCmp dataCmpKey keyOf m.store) (newData : α) :
    locate (fun a => -insertCmp dataCmp m newData a) t = none ↔ keyOf newData ∉ created := by
  rw [SearchTree.locate_eq_none_iff (monotone_insertCmp hcmp h.grown.ordered newData)]
  constructor
  · intro hne hmem
    obtain ⟨a, ha⟩ := List.mem_iff_getElem?.mp hmem
    obtain ⟨hin, node, hc, hkey⟩ := h.node_of_key ha
    apply hne a hin
    rw [(insertCmp_eq_zero_iff hcmp hc).mpr hkey]
    rfl
  · intro hnot a ha hzero
    obtain ⟨node, hc⟩ := live_of_linked h.grown.represents.linked ha
    apply hnot
    rw [← (insertCmp_eq_zero_iff hcmp hc).mp (by omega)]
    have hkey := h.key a
    rw [keyAt, hc] at hkey
    exact List.mem_of_getElem? hkey.symm

/-- An insertion of a key that is already there changes nothing: neither the tree, nor the list of
children of any node. -/
theorem hTreeInsert_present (h : Holds keyOf created m p t)
    (hcmp : Compares dataCmp dataCmpKey keyOf m.store) {newData : α} (hParent : Ptr)
    (hkey : keyOf newData ∈ created) :
    hTreeInsert newData hParent dataCmp (m.nodes.next + 1) p m = .ok p m := by
  cases hloc : locate (fun a => -insertCmp dataCmp m newData a) t with
  | none => exact absurd hkey ((h.locate_eq_none_iff hcmp newData).mp hloc)
  | some x =>
      obtain ⟨nodes, hrun, hrep, hframe⟩ := hTreeInsert_located hParent h.grown.represents
        (comparesAs_insertCmp hcmp newData t) h.grown.represents.height_lt hloc
      rw [hrun, hframe.eq_of_represents h.grown.represents hrep]

/-- An insertion of a new key creates its node. -/
theorem hTreeInsert_absent (h : Holds keyOf created m p t)
    (hcmp : Compares dataCmp dataCmpKey keyOf m.store) {newData : α} {hParent : Ptr}
    (hkey : keyOf newData ∉ created)
    (hp : ∀ q, hParent = some q → ∃ node, m.nodes.cell q = some node) :
    ∃ p' m' t', hTreeInsert newData hParent dataCmp (m.nodes.next + 1) p m = .ok p' m' ∧
      m'.store = m.store ∧ Holds keyOf (created ++ [keyOf newData]) m' p' t' ∧
      ∃ node, m'.nodes.cell m.nodes.next = some node ∧ node.data = newData ∧
        node.hParent = hParent := by
  have hloc := (h.locate_eq_none_iff hcmp newData).mpr hkey
  obtain ⟨p', nodes, hrun, hrep, hframe⟩ := hTreeInsert_new h.grown.represents
    (comparesAs_insertCmp hcmp newData t) h.grown.represents.height_lt hloc hp
  obtain ⟨hstore, t', hgrown⟩ := hTreeInsert_grown hcmp h.grown hrun
  obtain rfl := hgrown.represents.unique hrep
  have hnew := cell_hNodeInitHeap_next newData hp
  have hkeys : ∀ a, keyAt keyOf nodes a =
      keyAt keyOf (hNodeInitHeap m.nodes newData hParent) a :=
    fun a => keyAt_congr (entry_map_of_hier (hframe.hier a))
  refine ⟨p', _, _, hrun, hstore, ⟨hgrown, ?_, ?_, ?_, ?_⟩, ?_⟩
  -- The key is new, so the list of keys still has no repetition.
  · rw [List.nodup_append]
    refine ⟨h.nodup, List.nodup_singleton _, ?_⟩
    rintro a ha b hb rfl
    rw [List.mem_singleton] at hb
    exact hkey (hb ▸ ha)
  · intro a
    show keyAt keyOf nodes a = _
    rw [hkeys a]
    -- The new node has the next address, the others keep theirs.
    by_cases ha : a = m.nodes.next
    · rw [ha, keyAt, hnew, h.next]
      simp
    · rw [keyAt, cell_hNodeInitHeap ha, Option.map_map]
      have hold : keyAt keyOf m.nodes a = (created ++ [keyOf newData])[a]? := by
        rw [h.key a, List.getElem?_append]
        split
        · rfl
        · rename_i hge
          have := h.next
          rw [List.getElem?_eq_none (by omega), List.getElem?_eq_none (by simp; omega)]
      rw [← hold, keyAt]
      congr 1
      funext node
      simp only [Function.comp]
      split
      · rfl
      · rfl
  · intro a
    rw [mem_inorder_insertBy hloc a, h.mem a, h.next, List.length_append, List.length_singleton]
    omega
  · show nodes.next = _
    rw [hframe.next, next_hNodeInitHeap, h.next, List.length_append, List.length_singleton]
  · obtain ⟨node, hc, hhier⟩ := hframe.live hnew
    simp only [HNode.hier, Prod.mk.injEq] at hhier
    exact ⟨node, hc, hhier.1, hhier.2.1⟩

/-! ## Whole runs -/

/-- The keys that are inserted, in order and with repetitions. -/
def insertedKeys (keyOf : α → κ) (inserts : List (α × Ptr)) : List κ :=
  inserts.map fun insert => keyOf insert.1

omit [LinearOrder κ] in
/-- A sequence of insertions in two parts. -/
theorem insertAll_append {xs ys : List (α × Ptr)} {p₁ : Ptr} {m₁ : HMem α β}
    (h : insertAll dataCmp xs p m = .ok p₁ m₁) :
    insertAll dataCmp (xs ++ ys) p m = insertAll dataCmp ys p₁ m₁ := by
  induction xs generalizing p m with
  | nil =>
      cases h
      rfl
  | cons insert xs ih =>
      obtain ⟨newData, hParent⟩ := insert
      rw [insertAll, Cmd.get_bind, Cmd.bind_eq_ok] at h
      obtain ⟨p₂, m₂, hins, hrest⟩ := h
      rw [List.cons_append, insertAll, Cmd.get_bind, Cmd.bind_ok hins]
      exact ih hrest

/-- The hierarchical parent of every insertion is `NULL` or a node that exists when it is made. -/
def ParentsLive (dataCmp : DataCmpFn α β α) (inserts : List (α × Ptr)) (p : Ptr) (m : HMem α β) :
    Prop :=
  ∀ before newData q after, inserts = before ++ (newData, some q) :: after →
    ∀ p₁ m₁, insertAll dataCmp before p m = .ok p₁ m₁ → ∃ node, m₁.nodes.cell q = some node

/-- Parents that are live for all insertions are live for the first ones. -/
theorem ParentsLive.left {xs ys : List (α × Ptr)} (h : ParentsLive dataCmp (xs ++ ys) p m) :
    ParentsLive dataCmp xs p m := by
  intro before newData q after heq
  apply h before newData q (after ++ ys)
  rw [heq, List.append_assoc, List.cons_append]

/-- Parents that are live for all insertions are live for the last ones, from where the first ones
end. -/
theorem ParentsLive.right {xs ys : List (α × Ptr)} {p₁ : Ptr} {m₁ : HMem α β}
    (h : ParentsLive dataCmp (xs ++ ys) p m) (hxs : insertAll dataCmp xs p m = .ok p₁ m₁) :
    ParentsLive dataCmp ys p₁ m₁ := by
  intro before newData q after heq p₂ m₂ hrun
  apply h (xs ++ before) newData q after (by rw [heq, List.append_assoc]) p₂ m₂
  rw [insertAll_append hxs, hrun]

/-- One insertion, of a key that may be there or not. -/
theorem hTreeInsert_holds (h : Holds keyOf created m p t)
    (hcmp : Compares dataCmp dataCmpKey keyOf m.store) {newData : α} {hParent : Ptr}
    (hp : ∀ q, hParent = some q → ∃ node, m.nodes.cell q = some node) :
    ∃ p' m' t' more, hTreeInsert newData hParent dataCmp (m.nodes.next + 1) p m = .ok p' m' ∧
      m'.store = m.store ∧ Holds keyOf (created ++ more) m' p' t' ∧
      ∀ key, key ∈ created ++ more ↔ key ∈ created ∨ key = keyOf newData := by
  by_cases hkey : keyOf newData ∈ created
  · refine ⟨p, m, t, [], hTreeInsert_present h hcmp hParent hkey, rfl, ?_, ?_⟩
    · rw [List.append_nil]
      exact h
    · intro key
      rw [List.append_nil]
      constructor
      · exact .inl
      · rintro (hk | rfl)
        · exact hk
        · exact hkey
  · obtain ⟨p', m', t', hrun, hstore, hholds, -⟩ := hTreeInsert_absent h hcmp hkey hp
    exact ⟨p', m', t', [keyOf newData], hrun, hstore, hholds, by simp⟩

/-- A sequence of insertions returns, and creates a node for each new key. -/
theorem insertAll_holds {inserts : List (α × Ptr)} (h : Holds keyOf created m p t)
    (hcmp : Compares dataCmp dataCmpKey keyOf m.store) (hp : ParentsLive dataCmp inserts p m) :
    ∃ p' m' t' more, insertAll dataCmp inserts p m = .ok p' m' ∧ m'.store = m.store ∧
      Holds keyOf (created ++ more) m' p' t' ∧
      ∀ key, key ∈ created ++ more ↔ key ∈ created ∨ key ∈ insertedKeys keyOf inserts := by
  induction inserts generalizing created m p t with
  | nil =>
      refine ⟨p, m, t, [], rfl, rfl, ?_, ?_⟩
      · rw [List.append_nil]
        exact h
      · intro key
        simp [insertedKeys]
  | cons insert rest ih =>
      obtain ⟨newData, hParent⟩ := insert
      have hlive : ∀ q, hParent = some q → ∃ node, m.nodes.cell q = some node := by
        rintro q rfl
        exact hp [] newData q rest rfl p m rfl
      obtain ⟨p₁, m₁, t₁, more, hins, hstore, h₁, hkeys⟩ := hTreeInsert_holds h hcmp hlive
      have hone : insertAll dataCmp [(newData, hParent)] p m = .ok p₁ m₁ := by
        rw [insertAll, Cmd.get_bind, Cmd.bind_ok hins]
        rfl
      have hp' : ParentsLive dataCmp ([(newData, hParent)] ++ rest) p m := hp
      have hrest : ParentsLive dataCmp rest p₁ m₁ := hp'.right hone
      obtain ⟨p', m', t', more', hrun, hstore', h', hkeys'⟩ := ih h₁ (hstore ▸ hcmp) hrest
      refine ⟨p', m', t', more ++ more', ?_, hstore'.trans hstore, ?_, ?_⟩
      · rw [insertAll, Cmd.get_bind, Cmd.bind_ok hins, hrun]
      · rw [← List.append_assoc]
        exact h'
      · intro key
        rw [← List.append_assoc, hkeys' key, hkeys key, insertedKeys, insertedKeys, List.map_cons,
          List.mem_cons, or_assoc]

/-- The tree under `p` in `m`, built from memory `start` by insertions, is the finite map from each
key to the node created by its first insertion. -/
structure IsFiniteMap (dataCmp : DataCmpFn α β α) (dataCmpKey : DataCmpFn α β κ) (keyOf : α → κ)
    (start : HMem α β) (inserts : List (α × Ptr)) (p : Ptr) (m : HMem α β) (t : BinaryTree Nat) :
    Prop where
  /-- The size fields are exact. -/
  represents : Represents m.nodes p t
  ordered : Ordered keyOf m.nodes t
  size : hTreeSize p m = .ok ((insertedKeys keyOf inserts).toFinset.card : Int) m
  search : ∀ key fuel, m.nodes.next < fuel → ∃ found,
    hTreeSearch key dataCmpKey fuel p m = .ok found m ∧
      (found ≠ none ↔ key ∈ insertedKeys keyOf inserts)
  /-- Every insertion of the sequence returns. When its key was there, it changes nothing at all;
  otherwise it allocates a node, which every later search for the key returns. -/
  insertion : ∀ before newData hParent after, inserts = before ++ (newData, hParent) :: after →
    ∃ p₁ m₁ p₂ m₂, insertAll dataCmp before none start = .ok p₁ m₁ ∧
      hTreeInsert newData hParent dataCmp (m₁.nodes.next + 1) p₁ m₁ = .ok p₂ m₂ ∧
      (keyOf newData ∈ insertedKeys keyOf before → p₂ = p₁ ∧ m₂ = m₁) ∧
      (keyOf newData ∉ insertedKeys keyOf before →
        (∃ node, m₂.nodes.cell m₁.nodes.next = some node ∧ node.data = newData ∧
          node.hParent = hParent) ∧
        ∀ fuel, m.nodes.next < fuel →
          hTreeSearch (keyOf newData) dataCmpKey fuel p m = .ok (some m₁.nodes.next) m)

/-- Insertion and search implement a finite map, for every comparison that decides a linear order and
every sequence of insertions into an empty tree. -/
theorem insertAll_isFiniteMap {inserts : List (α × Ptr)} {store : β} {errno : Int}
    (hcmp : Compares dataCmp dataCmpKey keyOf store)
    (hp : ParentsLive dataCmp inserts none ⟨Heap.empty, store, errno⟩) :
    ∃ p m t, insertAll dataCmp inserts none ⟨Heap.empty, store, errno⟩ = .ok p m ∧
      IsFiniteMap dataCmp dataCmpKey keyOf ⟨Heap.empty, store, errno⟩ inserts p m t := by
  obtain ⟨p, m, t, created, hrun, hstore, h, hkeys⟩ :=
    insertAll_holds (holds_empty keyOf store errno) hcmp hp
  rw [List.nil_append] at h hkeys
  have hcmp' : Compares dataCmp dataCmpKey keyOf m.store := by
    rw [hstore]
    exact hcmp
  have hmem : ∀ key, key ∈ created ↔ key ∈ insertedKeys keyOf inserts := by
    intro key
    rw [hkeys key]
    simp
  refine ⟨p, m, t, hrun, h.grown.represents, h.grown.ordered, ?_, ?_, ?_⟩
  · rw [hTreeSize_run h.grown.represents, h.numNodes, ← List.toFinset_card_of_nodup h.nodup]
    congr 3
    ext key
    rw [List.mem_toFinset, List.mem_toFinset, hmem key]
  · intro key fuel hfuel
    by_cases hkey : key ∈ created
    · obtain ⟨a, ha⟩ := List.mem_iff_getElem?.mp hkey
      exact ⟨some a, h.search_present hcmp' ha hfuel, by simpa using (hmem key).mp hkey⟩
    · have hnot : key ∉ insertedKeys keyOf inserts := fun hk => hkey ((hmem key).mpr hk)
      exact ⟨none, h.search_absent hcmp' hkey hfuel, by simpa using hnot⟩
  · rintro before newData hParent after rfl
    obtain ⟨p₁, m₁, t₁, created₁, hrun₁, hstore₁, h₁, hkeys₁⟩ :=
      insertAll_holds (holds_empty keyOf store errno) hcmp hp.left
    rw [List.nil_append] at h₁ hkeys₁
    have hcmp₁ : Compares dataCmp dataCmpKey keyOf m₁.store := by
      rw [hstore₁]
      exact hcmp
    have hmem₁ : ∀ key, key ∈ created₁ ↔ key ∈ insertedKeys keyOf before := by
      intro key
      rw [hkeys₁ key]
      simp
    by_cases hkey : keyOf newData ∈ created₁
    · exact ⟨p₁, m₁, p₁, m₁, hrun₁, hTreeInsert_present h₁ hcmp₁ hParent hkey, fun _ => ⟨rfl, rfl⟩,
        fun hnot => absurd ((hmem₁ _).mp hkey) hnot⟩
    · have hlive : ∀ q, hParent = some q → ∃ node, m₁.nodes.cell q = some node := by
        rintro q rfl
        exact hp before newData q after rfl p₁ m₁ hrun₁
      obtain ⟨p₂, m₂, t₂, hins, hstore₂, h₂, hnode⟩ := hTreeInsert_absent h₁ hcmp₁ hkey hlive
      refine ⟨p₁, m₁, p₂, m₂, hrun₁, hins, fun hin => absurd ((hmem₁ _).mpr hin) hkey,
        fun _ => ⟨hnode, ?_⟩⟩
      intro fuel hfuel
      -- the rest of the sequence extends the list of created nodes
      have hafter : insertAll dataCmp after p₂ m₂ = .ok p m := by
        rw [insertAll_append hrun₁, insertAll, Cmd.get_bind, Cmd.bind_ok hins] at hrun
        exact hrun
      have hcmp₂ : Compares dataCmp dataCmpKey keyOf m₂.store := by
        rw [hstore₂]
        exact hcmp₁
      have hone : insertAll dataCmp [(newData, hParent)] p₁ m₁ = .ok p₂ m₂ := by
        rw [insertAll, Cmd.get_bind, Cmd.bind_ok hins]
        rfl
      have hlive₁ : ParentsLive dataCmp ([(newData, hParent)] ++ after) p₁ m₁ := hp.right hrun₁
      obtain ⟨p₃, m₃, t₃, more, hrun₃, -, h₃, -⟩ := insertAll_holds h₂ hcmp₂ (hlive₁.right hone)
      rw [hafter] at hrun₃
      cases hrun₃
      apply h₃.search_present hcmp' _ hfuel
      rw [h₁.next]
      simp

end Map

/-! ## Trees of numbers -/

/-- Insert `2`, `1`, and `2` again, the last two under the node of the first one. -/
def repeatedNumber : List (Nat × Ptr) := [(2, none), (1, some 0), (2, some 0)]

/-- The parents of the small sequence are live. -/
theorem parentsLive_repeatedNumber :
    ParentsLive natCmp repeatedNumber none ⟨Heap.empty, ⟨⟩, 0⟩ := by
  intro before newData q after heq p₁ m₁ hrun
  rcases before with _ | ⟨x, _ | ⟨y, _ | ⟨z, _ | ⟨w, rest⟩⟩⟩⟩
  all_goals simp only [repeatedNumber, List.nil_append, List.cons_append, List.cons.injEq,
    Prod.mk.injEq, reduceCtorEq, and_false, false_and, Option.some.injEq] at heq
  · -- the second insertion
    obtain ⟨rfl, ⟨-, rfl⟩, -⟩ := heq
    cases hrun
    exact ⟨_, rfl⟩
  · -- the third one
    obtain ⟨rfl, rfl, ⟨-, rfl⟩, -⟩ := heq
    cases hrun
    exact ⟨_, rfl⟩

/-- A number inserted twice is in the tree once. -/
theorem insertAll_isFiniteMap_repeatedNumber :
    ∃ p m t, insertAll natCmp repeatedNumber none ⟨Heap.empty, ⟨⟩, 0⟩ = .ok p m ∧
      IsFiniteMap natCmp natCmp id ⟨Heap.empty, ⟨⟩, 0⟩ repeatedNumber p m t :=
  insertAll_isFiniteMap compares_natCmp parentsLive_repeatedNumber

end OsLabs.Fat
