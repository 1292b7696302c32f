import OsLabs.Fat.Session

/-! # Taking the file tree down (`h_tree_destroy`, `fat_tree_destroy`, `fat_volume_unmount`)

`h_tree_destroy` destroys the data of a node, goes down on the right and on the left, and frees the
node last. After every sequence of operations on a mounted volume the file tree is still a tree of
distinct nodes with distinct files, and unmounting gives back each of its nodes and the file behind
it once, and nothing else (`unmount_releases`). -/

namespace OsLabs.Fat

open Cmd SearchTree Transition

variable {α β : Type}

/-- `h_tree_destroy`; the fuel bounds the depth of the recursion. -/
def hTreeDestroy (dataDestroy : DataModifyFn α β) : Nat → Ptr → HM α β PUnit
  | 0, _ => throw .diverges
  | _ + 1, none => pure ⟨⟩
  | fuel + 1, some root => do
      let node ← deref root
      modifyData dataDestroy node.data
      if node.right.isSome then hTreeDestroy dataDestroy fuel node.right
      if node.left.isSome then hTreeDestroy dataDestroy fuel node.left
      freeNode root

/-- `fat_tree_destroy`: the nodes with their files, and the tree itself. -/
def fatTreeDestroy : M PUnit := do
  let s ← get
  match s.fileTree with
  | some root => do
      if root.isSome then liftTree (hTreeDestroy destroyFile (s.nodes.next + 1) root)
      modify fun s => { s with fileTree := none }
  | none => pure ⟨⟩

/-- `fat_volume_unmount`, with the result of `close` on the device. -/
def fatVolumeUnmount (ret : Int) : M Int := do
  fatTreeDestroy
  pure ret

/-! ## Destroying a represented tree -/

/-- Destroy the data of the nodes, in the order in which `h_tree_destroy` comes to them. -/
def destroyData (dataDestroy : DataModifyFn α β) (nodes : Heap (HNode α)) :
    BinaryTree Nat → β → Except Fault β
  | .nil, store => .ok store
  | .node a l r, store =>
      match nodes.cell a with
      | none => .error .danglingPointer
      | some node => do
          let store ← dataDestroy node.data store
          let store ← destroyData dataDestroy nodes r store
          destroyData dataDestroy nodes l store

/-- A sequence that answers is made of two that do. -/
theorem except_bind_eq_ok {ε γ δ : Type} {x : Except ε γ} {f : γ → Except ε δ} {b : δ} :
    x >>= f = .ok b ↔ ∃ a, x = .ok a ∧ f a = .ok b := by
  cases x with
  | error e =>
      constructor
      · intro h
        cases h
      · rintro ⟨a, ha, -⟩
        cases ha
  | ok a =>
      constructor
      · intro h
        exact ⟨a, rfl, h⟩
      · rintro ⟨a', ha, h⟩
        cases ha
        exact h

/-- What is destroyed depends on the nodes of the tree only. -/
theorem destroyData_congr {dataDestroy : DataModifyFn α β} {nodes nodes' : Heap (HNode α)}
    {t : BinaryTree Nat} (h : ∀ a ∈ inorder t, nodes'.cell a = nodes.cell a) (store : β) :
    destroyData dataDestroy nodes' t store = destroyData dataDestroy nodes t store := by
  induction t generalizing store with
  | nil => rfl
  | node a l r ihl ihr =>
      have hl := ihl fun b hb => h b (by simp [hb])
      have hr := ihr fun b hb => h b (by simp [hb])
      simp only [destroyData, h a (by simp), hl, hr]

/-- The nodes of the tree are gone, and no other one. -/
structure NodesFreed (t : BinaryTree Nat) (nodes nodes' : Heap (HNode α)) : Prop where
  freed : ∀ a ∈ inorder t, nodes'.cell a = none
  kept : ∀ a, a ∉ inorder t → nodes'.cell a = nodes.cell a

/-- Freeing the root after both subtrees. -/
theorem NodesFreed.node {a : Nat} {l r : BinaryTree Nat} {nodes nodes₁ nodes₂ : Heap (HNode α)}
    (hr : NodesFreed r nodes nodes₁) (hl : NodesFreed l nodes₁ nodes₂) :
    NodesFreed (.node a l r) nodes (nodes₂.free a) := by
  constructor
  · intro b hb
    by_cases hba : b = a
    · rw [hba, Heap.cell_free_self]
    rw [Heap.cell_free_ne hba]
    by_cases hbl : b ∈ inorder l
    · exact hl.freed b hbl
    · have hbr : b ∈ inorder r := by simpa [hba, hbl] using hb
      rw [hl.kept b hbl, hr.freed b hbr]
  · intro b hb
    simp only [inorder_node, List.mem_append, List.mem_cons, not_or] at hb
    obtain ⟨hbl, hba, hbr⟩ := hb
    rw [Heap.cell_free_ne hba, hl.kept b hbl, hr.kept b hbr]

/-- An optional pointer is only followed when it is not null. -/
theorem whenSome_run {γ : Type} {dataDestroy : DataModifyFn α β} {fuel : Nat} {p : Ptr}
    {m m' : HMem α β} (h : hTreeDestroy dataDestroy (fuel + 1) p m = .ok ⟨⟩ m')
    (rest : PUnit → HM α β γ) :
    (if p.isSome then hTreeDestroy dataDestroy (fuel + 1) p >>= rest else rest ⟨⟩) m = rest ⟨⟩ m' := by
  cases p with
  | none =>
      cases h
      rfl
  | some a => exact bind_ok h

/-- If the data can be destroyed one after the other, the tree can be destroyed. -/
theorem hTreeDestroy_run {dataDestroy : DataModifyFn α β} {m : HMem α β} {p : Ptr}
    {t : BinaryTree Nat} {fuel : Nat} {store : β} (h : Represents m.nodes p t)
    (hfuel : t.height < fuel) (hd : destroyData dataDestroy m.nodes t m.store = .ok store) :
    ∃ nodes, hTreeDestroy dataDestroy fuel p m = .ok ⟨⟩ { m with nodes := nodes, store := store } ∧
      NodesFreed t m.nodes nodes := by
  induction t generalizing m p fuel store with
  | nil =>
      obtain rfl := h.linked
      obtain ⟨fuel, rfl⟩ := Nat.exists_eq_succ_of_ne_zero (Nat.ne_of_gt hfuel)
      cases hd
      exact ⟨m.nodes, rfl, by simp, fun _ _ => rfl⟩
  | node a l r ihl ihr =>
      obtain ⟨-, -, hal, har, hlr⟩ := nodup_node h.nodup
      obtain ⟨rfl, node, hc, -, hl, hr⟩ := represents_node h
      obtain ⟨fuel, rfl⟩ := Nat.exists_eq_succ_of_ne_zero (Nat.ne_of_gt (Nat.zero_lt_of_lt hfuel))
      have hlt : max l.height r.height < fuel := Nat.lt_of_succ_lt_succ hfuel
      -- the recursive calls need a step also where the subtree is empty
      obtain ⟨fuel, rfl⟩ := Nat.exists_eq_succ_of_ne_zero (Nat.ne_of_gt (Nat.zero_lt_of_lt hlt))
      obtain ⟨hfl, hfr⟩ := max_lt_iff.mp hlt
      simp only [destroyData, hc] at hd
      obtain ⟨store₁, hd₁, hd⟩ := except_bind_eq_ok.mp hd
      obtain ⟨store₂, hd₂, hd₃⟩ := except_bind_eq_ok.mp hd
      -- the right subtree is destroyed in the memory without the data of the root
      obtain ⟨nodes₁, hrun₁, hfree₁⟩ :=
        ihr (m := { m with store := store₁ }) hr hfr hd₂
      -- the left subtree in the memory without the right one, which it has nothing in common with
      have hsame (b : Nat) (hb : b ∈ inorder l) : nodes₁.cell b = m.nodes.cell b :=
        hfree₁.kept b (hlr b hb)
      obtain ⟨nodes₂, hrun₂, hfree₂⟩ :=
        ihl (m := { m with nodes := nodes₁, store := store₂ })
          (hl.congr fun b hb node hc => ⟨node, by rw [hsame b hb, hc], rfl, rfl, rfl⟩) hfl
          ((destroyData_congr hsame store₂).trans hd₃)
      have hc₂ : nodes₂.cell a = some node := by
        rw [hfree₂.kept a hal, hfree₁.kept a har, hc]
      refine ⟨nodes₂.free a, ?_, hfree₁.node hfree₂⟩
      rw [hTreeDestroy, bind_ok (deref_run hc), bind_ok (modifyData_run hd₁)]
      exact (whenSome_run hrun₁ _).trans ((whenSome_run hrun₂ _).trans (freeNode_run hc₂))

/-! ## The files behind the nodes -/

/-- The data of some node of the tree. -/
def DataIn (nodes : Heap (HNode α)) (t : BinaryTree Nat) (d : α) : Prop :=
  ∃ a ∈ inorder t, ∃ node, nodes.cell a = some node ∧ node.data = d

/-- The files behind the nodes of the tree are gone, and no other one. -/
structure FilesFreed (nodes : Heap (HNode Nat)) (t : BinaryTree Nat) (files files' : Heap FatFile) :
    Prop where
  freed : ∀ d, DataIn nodes t d → files'.cell d = none
  kept : ∀ d, ¬ DataIn nodes t d → files'.cell d = files.cell d

/-- The data of a node are those of its root and of its subtrees. -/
theorem dataIn_node {nodes : Heap (HNode α)} {a : Nat} {node : HNode α} {l r : BinaryTree Nat}
    {d : α} (hc : nodes.cell a = some node) :
    DataIn nodes (.node a l r) d ↔ node.data = d ∨ DataIn nodes r d ∨ DataIn nodes l d := by
  constructor
  · rintro ⟨b, hb, node', hc', hd⟩
    simp only [inorder_node, List.mem_append, List.mem_cons] at hb
    obtain hb | rfl | hb := hb
    · exact .inr (.inr ⟨b, hb, node', hc', hd⟩)
    · rw [hc] at hc'
      cases hc'
      exact .inl hd
    · exact .inr (.inl ⟨b, hb, node', hc', hd⟩)
  · rintro (hd | ⟨b, hb, hd⟩ | ⟨b, hb, hd⟩)
    · exact ⟨a, by simp, node, hc, hd⟩
    · exact ⟨b, by simp [hb], hd⟩
    · exact ⟨b, by simp [hb], hd⟩

/-- Files that are live and behind one node each can be destroyed. -/
theorem destroyData_files {nodes : Heap (HNode Nat)} {t : BinaryTree Nat} (files : Heap FatFile)
    (hn : (inorder t).Nodup) (hnode : ∀ a ∈ inorder t, ∃ node, nodes.cell a = some node)
    (hfile : ∀ d, DataIn nodes t d → ∃ f, files.cell d = some f)
    (hdistinct : ∀ a b node node', nodes.cell a = some node → nodes.cell b = some node' →
      node.data = node'.data → a = b) :
    ∃ files', destroyData destroyFile nodes t files = .ok files' ∧ FilesFreed nodes t files files' := by
  induction t generalizing files with
  | nil => exact ⟨files, rfl, by simp [DataIn], fun _ _ => rfl⟩
  | node a l r ihl ihr =>
      obtain ⟨hnl, hnr, hal, har, hlr⟩ := nodup_node hn
      obtain ⟨node, hc⟩ := hnode a (by simp)
      obtain ⟨f, hf⟩ := hfile node.data ((dataIn_node hc).mpr (.inl rfl))
      -- no file is behind two nodes, so what is destroyed for one part is not missing for the next
      have hroot {t' : BinaryTree Nat} (ha : a ∉ inorder t') (d : Nat) (hd : DataIn nodes t' d) :
          d ≠ node.data := by
        rintro rfl
        obtain ⟨b, hb, node', hc', hd⟩ := hd
        exact ha (hdistinct b a node' node hc' hc hd ▸ hb)
      have hdis (d : Nat) (hdl : DataIn nodes l d) : ¬ DataIn nodes r d := by
        obtain ⟨b, hb, node₁, hc₁, rfl⟩ := hdl
        rintro ⟨b', hb', node₂, hc₂, hd⟩
        exact hlr b hb (hdistinct b' b node₂ node₁ hc₂ hc₁ hd ▸ hb')
      have hd₁ : destroyFile node.data files = .ok (files.free node.data) := by
        simp only [destroyFile, hf]
      obtain ⟨files₂, hd₂, hfree₂⟩ := ihr (files.free node.data) hnr
        (fun b hb => hnode b (by simp [hb])) fun d hd => by
          rw [Heap.cell_free_ne (hroot har d hd)]
          exact hfile d ((dataIn_node hc).mpr (.inr (.inl hd)))
      obtain ⟨files₃, hd₃, hfree₃⟩ := ihl files₂ hnl
        (fun b hb => hnode b (by simp [hb])) fun d hd => by
          rw [hfree₂.kept d (hdis d hd), Heap.cell_free_ne (hroot hal d hd)]
          exact hfile d ((dataIn_node hc).mpr (.inr (.inr hd)))
      refine ⟨files₃, ?_, fun d hd => ?_, fun d hd => ?_⟩
      · simp only [destroyData, hc]
        exact except_bind_eq_ok.mpr ⟨_, hd₁, except_bind_eq_ok.mpr ⟨_, hd₂, hd₃⟩⟩
      · by_cases hl : DataIn nodes l d
        · exact hfree₃.freed d hl
        rw [hfree₃.kept d hl]
        by_cases hr : DataIn nodes r d
        · exact hfree₂.freed d hr
        rw [hfree₂.kept d hr]
        obtain rfl | hr' | hl' := (dataIn_node hc).mp hd
        · exact Heap.cell_free_self _ _
        · exact absurd hr' hr
        · exact absurd hl' hl
      · rw [dataIn_node hc, not_or, not_or] at hd
        obtain ⟨hne, hr, hl⟩ := hd
        rw [hfree₃.kept d hl, hfree₂.kept d hr, Heap.cell_free_ne (Ne.symm hne)]

/-! ## Unmounting -/

/-- The volume after it was unmounted: no tree, no node, and no file that was in the tree. -/
structure Released (s u : State) : Prop where
  tree : u.fileTree = none
  nodes : ∀ a, u.nodes.cell a = none
  files : ∀ d, (∃ a e, s.treeEntry a = some e ∧ e.file = d) → u.files.cell d = none
  others : ∀ d, (¬ ∃ a e, s.treeEntry a = some e ∧ e.file = d) → u.files.cell d = s.files.cell d
  device : u.dev = s.dev
  io : u.io = s.io

/-- The files behind the nodes are those of the tree entries. -/
theorem TreeOk.dataIn_iff {s : State} {p : Ptr} {t : BinaryTree Nat} (h : TreeOk s p t) (d : Nat) :
    DataIn s.nodes t d ↔ ∃ a e, s.treeEntry a = some e ∧ e.file = d := by
  constructor
  · rintro ⟨a, -, node, hc, hd⟩
    obtain ⟨f, hf, -⟩ := h.file a node hc
    exact ⟨a, _, treeEntry_of_cell hc hf, hd⟩
  · rintro ⟨a, e, he, hd⟩
    obtain ⟨node, f, hc, -, rfl⟩ := treeEntry_eq_some he
    exact ⟨a, h.live a node hc, node, hc, hd⟩

/-- A volume with a well-formed tree can be unmounted. -/
theorem fatVolumeUnmount_run {s : State} (h : s.TreeWf) (ret : Int) :
    ∃ u, fatVolumeUnmount ret s = .ok ret u ∧ Released s u := by
  obtain ⟨p, t, hok⟩ := h
  obtain ⟨files, hfiles, hfree⟩ := destroyData_files s.files hok.represents.nodup
    (fun a ha => live_of_linked hok.represents.linked ha)
    (fun d ⟨a, _, node, hc, hd⟩ => by
      obtain ⟨f, hf, -⟩ := hok.file a node hc
      exact ⟨f, hd ▸ hf⟩) hok.distinct
  obtain ⟨nodes, hrun, hnodes⟩ := hTreeDestroy_run (m := s.toHMem) hok.represents
    hok.represents.height_lt hfiles
  have hdestroy : fatTreeDestroy s =
      .ok ⟨⟩ { s with nodes := nodes, store := files, fileTree := none } := by
    unfold fatTreeDestroy
    rw [get_bind, hok.root]
    -- for an empty tree `h_tree_destroy` is not called
    cases p with
    | none =>
        have hsame : s.toHMem = { s.toHMem with nodes := nodes, store := files } := by
          injection hrun
        exact congrArg (fun m => EStateM.Result.ok PUnit.unit { s with toHMem := m, fileTree := none }) hsame
    | some a => exact bind_ok (liftTree_ok hrun)
  refine ⟨_, bind_ok hdestroy, rfl, fun a => ?_, fun d hd => ?_, fun d hd => ?_, rfl, rfl⟩
  · -- every node that is live is in the tree
    by_cases ha : a ∈ inorder t
    · exact hnodes.freed a ha
    · show nodes.cell a = none
      rw [hnodes.kept a ha]
      exact Option.eq_none_iff_forall_ne_some.mpr fun node hc => ha (hok.live a node hc)
  · exact hfree.freed d ((hok.dataIn_iff d).mpr hd)
  · exact hfree.kept d fun hin => hd ((hok.dataIn_iff d).mp hin)

/-- **Unmounting gives back the tree.** After every sequence of operations on a volume just mounted,
with all results of the device calls, unmounting returns what `close` returned, and leaves no node of
the file tree and no file that was behind one; it destroys no other file, each file of the tree once,
and touches the device no more. -/
theorem unmount_releases {env : Env} {s t : Session} (hs : s.Mounted env) {ops : List Op}
    {replies : List Reply} (hrun : exec (Session.call env) [] s ops = some (replies, t)) (ret : Int) :
    ∃ u, fatVolumeUnmount ret t.vol = .ok ret u ∧ Released t.vol u := by
  have hwf : t.vol.TreeWf := by
    refine exec_invariant (I := fun _ (s : Session) => s.vol.TreeWf) (C := fun _ _ _ => True) ?_ hs.treeWf
      (meets_of_forall_mem fun _ _ => trivial) hrun
    intro evs s op u new hwf _ hcall
    exact (call_moves hwf hcall).1
  exact fatVolumeUnmount_run hwf ret

/-- A directory is made and opened, and the volume is unmounted. -/
theorem unmount_releases_dirPath : ∃ replies t u,
    exec (Session.call quietEnv) [] freshSession [.mkdir dirPath, .opendir dirPath] = some (replies, t) ∧
      (∃ e, t.vol.treeEntry 1 = some e ∧ e.path = dirPath) ∧ fatVolumeUnmount 0 t.vol = .ok 0 u ∧
      Released t.vol u := by
  obtain ⟨⟨replies, t⟩, hrun⟩ := Option.isSome_iff_exists.mp
    (by decide +kernel : (exec (Session.call quietEnv) [] freshSession
      [.mkdir dirPath, .opendir dirPath]).isSome = true)
  have hpath : ((exec (Session.call quietEnv) [] freshSession [.mkdir dirPath, .opendir dirPath]).bind
      fun r => (r.2.vol.treeEntry 1).map TreeEntry.path) = some dirPath := by
    decide +kernel
  rw [hrun, Option.bind_some, Option.map_eq_some_iff] at hpath
  obtain ⟨u, hunmount, hreleased⟩ := unmount_releases freshSession_mounted hrun 0
  exact ⟨replies, t, u, hrun, hpath, hunmount, hreleased⟩

end OsLabs.Fat
