import OsLabs.Fat.LookupSpec
import OsLabs.Fat.TreeSequences

/-! # The file tree as a table

The file tree read as a table (`State.treeEntry`): at the address of each node stand the path and the
open count of its file, and its hierarchical parent. On a well-formed tree (`TreeOk`) the tree
commands are the operations of that table.

* `fatTreeNodeSearch_run`: a search finds the entry with a path, if there is one;
* `fatTreeInsert_ok`: an insertion adds one entry, unless there is one with its path;
* `fatTreeDelete_ok`: a deletion drops the entry with a path;
* `iterate_ok`: the counters change on a node and on all its hierarchical ancestors. -/

namespace OsLabs.Fat

open Cmd SearchTree

/-! ## The order of paths -/

/-- Strings compare as equal when they are. -/
theorem strcmp_eq_zero_iff {a b : CString} : strcmp a b = 0 ↔ a = b := by
  unfold strcmp
  split
  · next h => simp [h]
  · next h =>
      split <;> simp [h]

/-- `strcmp` is negative just for a smaller string. -/
theorem strcmp_neg_iff {a b : CString} : strcmp a b < 0 ↔ a < b := by
  unfold strcmp
  split
  · next h => simp [h, List.lt_irrefl b]
  · next h =>
      split
      · next hlt => simp [hlt]
      · next hlt => simp [hlt]

/-- `strcmp` is positive just for a larger string. -/
theorem strcmp_pos_iff {a b : CString} : 0 < strcmp a b ↔ b < a := by
  unfold strcmp
  split
  · next h => simp [h, List.lt_irrefl b]
  · next h =>
      split
      · next hlt =>
          have hba : ¬ b < a := fun hba => List.lt_irrefl a (List.lt_trans hlt hba)
          simp [hba]
      · next hlt =>
          have hba : b < a := by
            by_contra hba
            exact h (List.le_antisymm (by simpa using hba) (by simpa using hlt))
          simp [hba]

/-- Swapping the strings turns the sign around. -/
theorem neg_strcmp (a b : CString) : -strcmp a b = strcmp b a := by
  rcases lt_trichotomy (strcmp a b) 0 with h | h | h
  · have hab := strcmp_neg_iff.mp h
    have hne : a ≠ b := fun heq => List.lt_irrefl b (heq ▸ hab)
    have hba : ¬ b < a := fun hba => List.lt_irrefl a (List.lt_trans hab hba)
    simp [strcmp, hab, hne, hne.symm, hba]
  · rw [h, strcmp_eq_zero_iff.mp h]
    exact (strcmp_eq_zero_iff.mpr rfl).symm
  · have hba := strcmp_pos_iff.mp h
    have hne : a ≠ b := fun heq => List.lt_irrefl b (heq ▸ hba)
    have hab : ¬ a < b := fun hab => List.lt_irrefl a (List.lt_trans hab hba)
    simp [strcmp, hab, hne, hne.symm, hba]

/-! ## Entries -/

/-- What the file tree holds at a node. -/
structure TreeEntry where
  file : Nat
  path : CString
  parent : Ptr
  opened : Nat
  isDir : Bool

/-- The entry at an address; `none` where there is no node. -/
def State.treeEntry (s : State) (a : Nat) : Option TreeEntry :=
  (s.nodes.cell a).bind fun node => (s.files.cell node.data).map fun f =>
    ⟨node.data, f.filepath, node.hParent, f.numTimesOpened, f.isDir⟩

/-- The entry at `a` has this path. -/
def PathAt (E : Nat → Option TreeEntry) (a : Nat) (path : CString) : Prop :=
  ∃ e, E a = some e ∧ e.path = path

/-- Some entry has this path. -/
def HasPath (E : Nat → Option TreeEntry) (path : CString) : Prop := ∃ a, PathAt E a path

/-- The path at `a` comes before the one at `b`. -/
def Before (E : Nat → Option TreeEntry) (a b : Nat) : Prop :=
  ∃ e e', E a = some e ∧ E b = some e' ∧ e.path < e'.path

/-- Compare the path at a node with a key. -/
def pathCmp (E : Nat → Option TreeEntry) (key : CString) (a : Nat) : Int :=
  match E a with
  | some e => strcmp e.path key
  | none => 0

/-- A well-formed file tree: every node is in the tree and has its own file, with a directory entry;
hierarchical parents are older than their children, and the paths increase in order. -/
structure TreeOk (s : State) (p : Ptr) (t : BinaryTree Nat) : Prop where
  root : s.fileTree = some p
  represents : Represents s.nodes p t
  live : ∀ a node, s.nodes.cell a = some node → a ∈ inorder t
  file : ∀ a node, s.nodes.cell a = some node →
    ∃ f, s.files.cell node.data = some f ∧ f.dentry.isSome = true
  distinct : ∀ a b node node', s.nodes.cell a = some node → s.nodes.cell b = some node' →
    node.data = node'.data → a = b
  older : ∀ a node q, s.nodes.cell a = some node → node.hParent = some q → q < a
  ordered : (inorder t).Pairwise (Before s.treeEntry)

section Entries

variable {s : State} {E : Nat → Option TreeEntry} {a b : Nat} {e : TreeEntry} {key : CString}

/-- The entry of a live node with a live file. -/
theorem treeEntry_of_cell {node : HNode Nat} {f : FatFile} (hc : s.nodes.cell a = some node)
    (hf : s.files.cell node.data = some f) :
    s.treeEntry a = some ⟨node.data, f.filepath, node.hParent, f.numTimesOpened, f.isDir⟩ := by
  simp [State.treeEntry, hc, hf]

/-- A node that is not live has no entry. -/
theorem treeEntry_of_none (hc : s.nodes.cell a = none) : s.treeEntry a = none := by
  simp [State.treeEntry, hc]

/-- The node and the file of an entry. -/
theorem treeEntry_eq_some (h : s.treeEntry a = some e) :
    ∃ node f, s.nodes.cell a = some node ∧ s.files.cell node.data = some f ∧
      e = ⟨node.data, f.filepath, node.hParent, f.numTimesOpened, f.isDir⟩ := by
  simp only [State.treeEntry, Option.bind_eq_some_iff, Option.map_eq_some_iff] at h
  obtain ⟨node, hc, f, hf, he⟩ := h
  exact ⟨node, f, hc, hf, he.symm⟩

/-- The key is compared with the path of the entry. -/
theorem pathCmp_of_entry (h : E a = some e) : pathCmp E key a = strcmp e.path key := by
  simp [pathCmp, h]

/-- The order of the paths is transitive. -/
theorem Before.trans {d : Nat} (h : Before E a b) (h' : Before E b d) : Before E a d := by
  obtain ⟨e, e', ha, hb, hlt⟩ := h
  obtain ⟨e'', e₃, hb', hd, hlt'⟩ := h'
  rw [hb] at hb'
  cases hb'
  exact ⟨e, e₃, ha, hd, List.lt_trans hlt hlt'⟩

end Entries

namespace TreeOk

variable {s : State} {p : Ptr} {t : BinaryTree Nat}

/-- Every node has an entry. -/
theorem entry_of_cell (h : TreeOk s p t) {a : Nat} {node : HNode Nat}
    (hc : s.nodes.cell a = some node) :
    ∃ f, s.files.cell node.data = some f ∧ f.dentry.isSome = true ∧
      s.treeEntry a = some ⟨node.data, f.filepath, node.hParent, f.numTimesOpened, f.isDir⟩ := by
  obtain ⟨f, hf, hd⟩ := h.file a node hc
  exact ⟨f, hf, hd, treeEntry_of_cell hc hf⟩

/-- The entries are at the nodes of the tree. -/
theorem mem_iff (h : TreeOk s p t) {a : Nat} :
    a ∈ inorder t ↔ ∃ e, s.treeEntry a = some e := by
  constructor
  · intro ha
    obtain ⟨node, hc⟩ := live_of_linked h.represents.linked ha
    obtain ⟨f, -, -, he⟩ := h.entry_of_cell hc
    exact ⟨_, he⟩
  · rintro ⟨e, he⟩
    obtain ⟨node, f, hc, -⟩ := treeEntry_eq_some he
    exact h.live a node hc

/-- Two entries do not share a file. -/
theorem file_inj (h : TreeOk s p t) {a b : Nat} {e e' : TreeEntry} (ha : s.treeEntry a = some e)
    (hb : s.treeEntry b = some e') (heq : e.file = e'.file) : a = b := by
  obtain ⟨node, f, hc, -, rfl⟩ := treeEntry_eq_some ha
  obtain ⟨node', f', hc', -, rfl⟩ := treeEntry_eq_some hb
  exact h.distinct a b node node' hc hc' heq

/-- The tree commands compare the paths of the entries. -/
theorem comparesAs (h : TreeOk s p t) (key : CString) :
    ComparesAs s.nodes t (fun data => fatFileCmpPath s.files data key) (pathCmp s.treeEntry key) := by
  intro a _ node hc
  obtain ⟨f, hf, -, he⟩ := h.entry_of_cell hc
  rw [pathCmp_of_entry he]
  simp [fatFileCmpPath, hf]

/-- The comparison with a path is monotone along the tree. -/
theorem monotone (h : TreeOk s p t) (key : CString) :
    Monotone (pathCmp s.treeEntry key) (inorder t) := by
  refine h.ordered.imp ?_
  rintro a b ⟨e, e', ha, hb, hlt⟩ hle
  rw [pathCmp_of_entry ha] at hle
  rw [pathCmp_of_entry hb, strcmp_pos_iff]
  have hnot : ¬ e.path < key := fun hk => by
    have := strcmp_neg_iff.mpr hk
    omega
  by_cases heq : key = e.path
  · rwa [heq]
  · have hkey : key < e.path := by
      by_contra hk
      exact heq (List.le_antisymm (by simpa using hnot) (by simpa using hk))
    exact List.lt_trans hkey hlt

/-- A search finds the entry with the path. -/
theorem locate_eq_some_iff (h : TreeOk s p t) {key : CString} {a : Nat} :
    locate (pathCmp s.treeEntry key) t = some a ↔ PathAt s.treeEntry a key := by
  constructor
  · intro hloc
    obtain ⟨ha, hzero⟩ := locate_mem hloc
    obtain ⟨e, he⟩ := h.mem_iff.mp ha
    rw [pathCmp_of_entry he, strcmp_eq_zero_iff] at hzero
    exact ⟨e, he, hzero⟩
  · rintro ⟨e, he, hpath⟩
    refine locate_eq_some (h.monotone key) (h.mem_iff.mpr ⟨e, he⟩) ?_
    rw [pathCmp_of_entry he, hpath, strcmp_eq_zero_iff]

/-- Two entries do not share a path. -/
theorem path_inj (h : TreeOk s p t) {a b : Nat} {path : CString} (ha : PathAt s.treeEntry a path)
    (hb : PathAt s.treeEntry b path) : a = b :=
  Option.some.inj ((h.locate_eq_some_iff.mpr ha).symm.trans (h.locate_eq_some_iff.mpr hb))

/-- The search finds no node just if no file has the path. -/
theorem locate_eq_none_iff (h : TreeOk s p t) {key : CString} :
    locate (pathCmp s.treeEntry key) t = none ↔ ¬ HasPath s.treeEntry key := by
  constructor
  · rintro hloc ⟨a, ha⟩
    rw [h.locate_eq_some_iff.mpr ha] at hloc
    cases hloc
  · intro hno
    cases hloc : locate (pathCmp s.treeEntry key) t with
    | none => rfl
    | some a => exact absurd ⟨a, h.locate_eq_some_iff.mp hloc⟩ hno

end TreeOk

/-! ## Keeping all entries -/

/-- Every entry is kept: the tree stays represented and its nodes keep their files and parents, and no
file changes its path, its open count or its directory flag, or loses its entry. -/
structure KeepsEntries (s u : State) : Prop where
  fileTree : u.fileTree = s.fileTree
  represents : ∀ p t, s.fileTree = some p → Represents s.nodes p t → Represents u.nodes p t
  nodes : ∀ a, (u.nodes.cell a).map HNode.entry = (s.nodes.cell a).map HNode.entry
  next : u.nodes.next = s.nodes.next
  files : ∀ a f, s.files.cell a = some f → ∃ f', u.files.cell a = some f' ∧
    f'.filepath = f.filepath ∧ f'.numTimesOpened = f.numTimesOpened ∧
    (f.dentry.isSome = true → f'.dentry.isSome = true ∧ f'.isDir = f.isDir)
  filesNext : s.files.next ≤ u.files.next

instance : Std.Refl KeepsEntries :=
  ⟨fun _ => ⟨rfl, fun _ _ _ h => h, fun _ => rfl, rfl, fun _ f h => ⟨f, h, rfl, rfl, fun hd => ⟨hd, rfl⟩⟩,
    Nat.le_refl _⟩⟩

instance : IsTrans State KeepsEntries := by
  refine ⟨fun s u v h h' => ⟨h'.fileTree.trans h.fileTree,
    fun p t hp hr => h'.represents p t (h.fileTree.trans hp) (h.represents p t hp hr),
    fun a => (h'.nodes a).trans (h.nodes a), h'.next.trans h.next, fun a f hf => ?_,
      Nat.le_trans h.filesNext h'.filesNext⟩⟩
  obtain ⟨f', hf', hpath, hopened, hdentry⟩ := h.files a f hf
  obtain ⟨f'', hf'', hpath', hopened', hdentry'⟩ := h'.files a f' hf'
  refine ⟨f'', hf'', hpath'.trans hpath, hopened'.trans hopened, fun hd => ?_⟩
  obtain ⟨hd', hdir⟩ := hdentry hd
  obtain ⟨hd'', hdir'⟩ := hdentry' hd'
  exact ⟨hd'', hdir'.trans hdir⟩

section Keeps

variable {s u : State} {p : Ptr} {t : BinaryTree Nat}

/-- The node of `u` at the address of a node of `s`. -/
theorem KeepsEntries.live (hk : KeepsEntries s u) {a : Nat} {node : HNode Nat}
    (hc : u.nodes.cell a = some node) :
    ∃ node₀, s.nodes.cell a = some node₀ ∧ node.data = node₀.data ∧ node.hParent = node₀.hParent := by
  have h := hk.nodes a
  rw [hc] at h
  cases hc₀ : s.nodes.cell a with
  | none =>
      rw [hc₀] at h
      cases h
  | some node₀ =>
      rw [hc₀] at h
      simp only [Option.map_some, Option.some.injEq, HNode.entry, Prod.mk.injEq] at h
      exact ⟨node₀, rfl, h.1, h.2⟩

/-- Where the tree is well formed, keeping the entries changes none of them. -/
theorem KeepsEntries.treeEntry (hk : KeepsEntries s u) (h : TreeOk s p t) :
    u.treeEntry = s.treeEntry := by
  funext a
  cases hc : u.nodes.cell a with
  | none =>
      have hnone := hk.nodes a
      rw [hc] at hnone
      rw [treeEntry_of_none hc, treeEntry_of_none]
      simpa using hnone.symm
  | some node =>
      obtain ⟨node₀, hc₀, hdata, hparent⟩ := hk.live hc
      obtain ⟨f, hf, hd, he⟩ := h.entry_of_cell hc₀
      obtain ⟨f', hf', hpath, hopened, hdentry⟩ := hk.files _ f hf
      rw [he, treeEntry_of_cell hc (by rw [hdata]; exact hf'), hdata, hparent, hpath, hopened,
        (hdentry hd).2]

/-- The tree stays well formed. -/
theorem KeepsEntries.treeOk (hk : KeepsEntries s u) (h : TreeOk s p t) : TreeOk u p t where
  root := hk.fileTree.trans h.root
  represents := hk.represents p t h.root h.represents
  live a node hc := by
    obtain ⟨node₀, hc₀, -⟩ := hk.live hc
    exact h.live a node₀ hc₀
  file a node hc := by
    obtain ⟨node₀, hc₀, hdata, -⟩ := hk.live hc
    obtain ⟨f, hf, hd⟩ := h.file a node₀ hc₀
    obtain ⟨f', hf', -, -, hdentry⟩ := hk.files _ f hf
    exact ⟨f', by rw [hdata]; exact hf', (hdentry hd).1⟩
  distinct a b node node' hc hc' heq := by
    obtain ⟨node₀, hc₀, hdata, -⟩ := hk.live hc
    obtain ⟨node₀', hc₀', hdata', -⟩ := hk.live hc'
    exact h.distinct a b node₀ node₀' hc₀ hc₀' (by rw [← hdata, ← hdata', heq])
  older a node q hc hq := by
    obtain ⟨node₀, hc₀, -, hparent⟩ := hk.live hc
    exact h.older a node₀ q hc₀ (hparent ▸ hq)
  ordered := by
    rw [hk.treeEntry h]
    exact h.ordered

/-- Nodes that differ in their links only. -/
theorem TreeOk.keepsEntries (h : TreeOk s p t) {nodes : Heap (HNode Nat)} {S : Nat → Prop}
    (hframe : LinksFrame S s.nodes nodes) (hrep : Represents nodes p t) :
    KeepsEntries s { s with nodes := nodes } where
  fileTree := rfl
  represents p' t' hp hr := by
    rw [h.root] at hp
    cases hp
    rwa [hr.unique h.represents]
  nodes _ := entry_map_of_hier (hframe.hier _)
  next := hframe.next
  files a f hf := ⟨f, hf, rfl, rfl, fun hd => ⟨hd, rfl⟩⟩
  filesNext := Nat.le_refl _

end Keeps

/-! ## Searches -/

section Searches

variable {s : State} {p : Ptr} {t : BinaryTree Nat}

/-- `fat_tree_node_search` finds what the search in the tree finds, and changes nothing. -/
theorem fatTreeNodeSearch_run (h : TreeOk s p t) (key : CString) :
    fatTreeNodeSearch key s = .ok (locate (pathCmp s.treeEntry key) t) s := by
  unfold fatTreeNodeSearch
  rw [get_bind, h.root]
  exact liftTree_ok (hTreeSearch_run h.represents (h.comparesAs key) h.represents.height_lt)

/-- A search returns the node with the path. -/
theorem fatTreeNodeSearch_ok (h : TreeOk s p t) {key : CString} {r : Ptr} {u : State}
    (hrun : fatTreeNodeSearch key s = .ok r u) :
    u = s ∧ (∀ a, r = some a ↔ PathAt s.treeEntry a key) ∧ (r = none ↔ ¬ HasPath s.treeEntry key) := by
  rw [fatTreeNodeSearch_run h] at hrun
  cases hrun
  exact ⟨rfl, fun a => h.locate_eq_some_iff, h.locate_eq_none_iff⟩

/-- A live node holds data. -/
theorem hTreeGetData_some {m : HMem Nat (Heap FatFile)} {a : Nat} {node : HNode Nat}
    (hc : m.nodes.cell a = some node) : hTreeGetData (some a) m = .ok (some node.data) m := by
  rw [hTreeGetData, bind_ok (deref_run hc)]
  rfl

/-- The file of a node. -/
theorem fatTreeGetFile_run {a : Nat} {e : TreeEntry} (he : s.treeEntry a = some e) :
    fatTreeGetFile (some a) s = .ok (some e.file) s := by
  obtain ⟨node, f, hc, -, rfl⟩ := treeEntry_eq_some he
  exact liftTree_ok (hTreeGetData_some hc)

/-- No file is read off a null pointer. -/
theorem fatTreeGetFile_none (s : State) :
    fatTreeGetFile none s = .ok none { s with errno := einval } := rfl

/-- The file of the parent of a node. -/
theorem fatTreeGetParent_run {a : Nat} {e : TreeEntry} (he : s.treeEntry a = some e) :
    fatTreeGetParent (some a) s = fatTreeGetFile e.parent s := by
  obtain ⟨node, f, hc, -, rfl⟩ := treeEntry_eq_some he
  have hparent : hTreeGetHParent (some a) s.toHMem = .ok node.hParent s.toHMem := by
    rw [hTreeGetHParent, bind_ok (deref_run hc)]
    rfl
  exact bind_ok (liftTree_ok hparent)

/-- A file read off a node is the one of its entry. -/
theorem fatTreeGetFile_ok (h : TreeOk s p t) {r file : Nat} {u : State}
    (hrun : fatTreeGetFile (some r) s = .ok (some file) u) :
    u = s ∧ ∃ e, s.treeEntry r = some e ∧ e.file = file := by
  cases hc : s.nodes.cell r with
  | none =>
      have herr : hTreeGetData (some r) s.toHMem = .error .danglingPointer s.toHMem :=
        bind_error (deref_error hc)
      unfold fatTreeGetFile at hrun
      rw [liftTree_error herr] at hrun
      cases hrun
  | some node =>
      obtain ⟨f, -, -, he⟩ := h.entry_of_cell hc
      rw [fatTreeGetFile_run he] at hrun
      cases hrun
      exact ⟨rfl, _, he, rfl⟩

end Searches

/-! ## Insertion -/

section Insertion

variable {s : State} {p : Ptr} {t : BinaryTree Nat} {file : Nat} {f : FatFile} {parent : Ptr}

/-- An insertion compares the path of the new file with those of the entries. -/
theorem TreeOk.comparesAs_insert (h : TreeOk s p t) (hf : s.files.cell file = some f) :
    ComparesAs s.nodes t (fun data => fatFileCmp s.files file data)
      (fun a => -pathCmp s.treeEntry f.filepath a) := by
  intro a _ node hc
  obtain ⟨g, hg, -, he⟩ := h.entry_of_cell hc
  show _ = Except.ok (-pathCmp s.treeEntry f.filepath a)
  rw [pathCmp_of_entry he, neg_strcmp]
  simp [fatFileCmp, hf, hg]

/-- The table with a new entry. -/
def insertedEntry (s : State) (file : Nat) (f : FatFile) (parent : Ptr) : Nat → Option TreeEntry :=
  Function.update s.treeEntry s.nodes.next (some ⟨file, f.filepath, parent, f.numTimesOpened, f.isDir⟩)

/-- An insertion into the tree of the volume. -/
theorem fatTreeInsert_run {p' : Ptr} {nodes : Heap (HNode Nat)} (hroot : s.fileTree = some p)
    (hins : hTreeInsert file parent fatFileCmp (s.nodes.next + 1) p s.toHMem =
      .ok p' { s.toHMem with nodes := nodes }) :
    fatTreeInsert parent (some file) s = .ok ⟨⟩ { s with nodes := nodes, fileTree := some p' } := by
  unfold fatTreeInsert
  rw [get_bind, hroot]
  exact bind_ok (liftTree_ok hins)

/-- An insertion that faults leaves the tree as it was. -/
theorem fatTreeInsert_error {e : Fault} (hroot : s.fileTree = some p)
    (hins : hTreeInsert file parent fatFileCmp (s.nodes.next + 1) p s.toHMem = .error e s.toHMem) :
    fatTreeInsert parent (some file) s = .error e s := by
  unfold fatTreeInsert
  rw [get_bind, hroot]
  exact bind_error (liftTree_error hins)

/-- The file and the parent of the nodes after an insertion of a new one. -/
theorem entry_hNodeInitHeap {nodes : Heap (HNode Nat)} (hp : ∀ q, parent = some q →
    ∃ node, nodes.cell q = some node) (a : Nat) :
    ((hNodeInitHeap nodes file parent).cell a).map HNode.entry =
      if a = nodes.next then some (file, parent) else (nodes.cell a).map HNode.entry := by
  split
  · next ha =>
      rw [ha, cell_hNodeInitHeap_next file hp]
      rfl
  · next ha =>
      rw [cell_hNodeInitHeap ha, Option.map_map]
      congr 1
      funext node
      simp only [Function.comp, HNode.entry]
      split <;> rfl

/-- There is no node yet at the next address. -/
theorem treeEntry_next (s : State) : s.treeEntry s.nodes.next = none :=
  treeEntry_of_none (s.nodes.fresh _ (Nat.le_refl _))

/-- Entries that are there are not touched by a new one. -/
theorem insertedEntry_of_some {a : Nat} {e : TreeEntry} (he : s.treeEntry a = some e) :
    insertedEntry s file f parent a = some e := by
  have hne : a ≠ s.nodes.next := by
    rintro rfl
    rw [treeEntry_next] at he
    cases he
  rw [insertedEntry, Function.update_of_ne hne, he]

/-- The tree after the insertion of a new node. -/
theorem TreeOk.inserted (h : TreeOk s p t) (hf : s.files.cell file = some f)
    (hd : f.dentry.isSome = true) (hnew : ∀ a e, s.treeEntry a = some e → e.file ≠ file)
    (hno : ¬ HasPath s.treeEntry f.filepath)
    (hp : ∀ q, parent = some q → ∃ e, s.treeEntry q = some e) {p' : Ptr}
    {nodes : Heap (HNode Nat)} {S : Nat → Prop}
    (hrep : Represents nodes p'
      (insertBy (fun a => -pathCmp s.treeEntry f.filepath a) s.nodes.next t))
    (hframe : LinksFrame S (hNodeInitHeap s.nodes file parent) nodes) {u : State}
    (hu : u = { s with nodes := nodes, fileTree := some p' }) :
    TreeOk u p' (insertBy (fun a => -pathCmp s.treeEntry f.filepath a) s.nodes.next t) ∧
      u.treeEntry = insertedEntry s file f parent := by
  subst hu
  have hp' : ∀ q, parent = some q → ∃ node, s.nodes.cell q = some node := by
    intro q hq
    obtain ⟨e, he⟩ := hp q hq
    obtain ⟨node, -, hc, -⟩ := treeEntry_eq_some he
    exact ⟨node, hc⟩
  have hentry (a : Nat) : (nodes.cell a).map HNode.entry =
      if a = s.nodes.next then some (file, parent) else (s.nodes.cell a).map HNode.entry :=
    (entry_map_of_hier (hframe.hier a)).trans (entry_hNodeInitHeap hp' a)
  -- the nodes that are there, and the new one
  have hlive {a : Nat} {node : HNode Nat} (hc : nodes.cell a = some node) :
      (a = s.nodes.next ∧ node.data = file ∧ node.hParent = parent) ∨
      (a ≠ s.nodes.next ∧ ∃ node₀, s.nodes.cell a = some node₀ ∧ node.data = node₀.data ∧
        node.hParent = node₀.hParent) := by
    have hmap := hentry a
    rw [hc] at hmap
    split at hmap
    · next ha =>
        simp only [Option.map_some, Option.some.injEq, HNode.entry, Prod.mk.injEq] at hmap
        exact .inl ⟨ha, hmap⟩
    · next ha =>
        cases hc₀ : s.nodes.cell a with
        | none =>
            rw [hc₀] at hmap
            cases hmap
        | some node₀ =>
            rw [hc₀] at hmap
            simp only [Option.map_some, Option.some.injEq, HNode.entry, Prod.mk.injEq] at hmap
            exact .inr ⟨ha, node₀, rfl, hmap⟩
  have htable : ({ s with nodes := nodes, fileTree := some p' } : State).treeEntry =
      insertedEntry s file f parent := by
    funext a
    cases hc : nodes.cell a with
    | none =>
        have hmap := hentry a
        rw [hc] at hmap
        rw [treeEntry_of_none hc]
        split at hmap
        · cases hmap
        · next ha =>
            rw [insertedEntry, Function.update_of_ne ha, treeEntry_of_none]
            simpa using hmap.symm
    | some node =>
        obtain ⟨rfl, hdata, hparent⟩ | ⟨ha, node₀, hc₀, hdata, hparent⟩ := hlive hc
        · rw [insertedEntry, Function.update_self, treeEntry_of_cell hc (by rw [hdata]; exact hf),
            hdata, hparent]
        · obtain ⟨g, hg, -, he⟩ := h.entry_of_cell hc₀
          rw [insertedEntry, Function.update_of_ne ha, he,
            treeEntry_of_cell hc (by rw [hdata]; exact hg), hdata, hparent]
  have hloc : locate (fun a => - -pathCmp s.treeEntry f.filepath a) t = none := by
    simp only [neg_neg]
    exact h.locate_eq_none_iff.mpr hno
  have hkeep {a b : Nat} (hab : Before s.treeEntry a b) :
      Before (insertedEntry s file f parent) a b := by
    obtain ⟨e, e', ha, hb, hlt⟩ := hab
    exact ⟨e, e', insertedEntry_of_some ha, insertedEntry_of_some hb, hlt⟩
  have hself : insertedEntry s file f parent s.nodes.next =
      some ⟨file, f.filepath, parent, f.numTimesOpened, f.isDir⟩ := Function.update_self _ _ _
  refine ⟨⟨rfl, hrep, fun a node hc => ?_, fun a node hc => ?_, fun a b node node' hc hc' heq => ?_,
    fun a node q hc hq => ?_, ?_⟩, htable⟩
  · rw [mem_inorder_insertBy hloc]
    obtain ⟨ha, -⟩ | ⟨-, node₀, hc₀, -⟩ := hlive hc
    · exact .inl ha
    · exact .inr (h.live a node₀ hc₀)
  · obtain ⟨-, hdata, -⟩ | ⟨-, node₀, hc₀, hdata, -⟩ := hlive hc
    · exact ⟨f, by rw [hdata]; exact hf, hd⟩
    · rw [hdata]
      exact h.file a node₀ hc₀
  · obtain ⟨ha, hdata, -⟩ | ⟨-, node₀, hc₀, hdata, -⟩ := hlive hc <;>
      obtain ⟨hb, hdata', -⟩ | ⟨-, node₀', hc₀', hdata', -⟩ := hlive hc'
    · rw [ha, hb]
    · obtain ⟨g, -, -, he⟩ := h.entry_of_cell hc₀'
      exact absurd (by rw [← hdata', ← heq, hdata]) (hnew b _ he)
    · obtain ⟨g, -, -, he⟩ := h.entry_of_cell hc₀
      exact absurd (by rw [← hdata, heq, hdata']) (hnew a _ he)
    · exact h.distinct a b node₀ node₀' hc₀ hc₀' (by rw [← hdata, ← hdata', heq])
  · obtain ⟨rfl, -, hparent⟩ | ⟨-, node₀, hc₀, -, hparent⟩ := hlive hc
    · obtain ⟨node₁, hc₁⟩ := hp' q (hparent ▸ hq)
      exact Heap.lt_next hc₁
    · exact h.older a node₀ q hc₀ (hparent ▸ hq)
  · rw [htable]
    refine pairwise_insertBy (fun a ha hpos => ?_) (fun a ha hneg => ?_) (h.ordered.imp hkeep) hloc
      fun a b d => Before.trans
    · obtain ⟨e, he⟩ := h.mem_iff.mp ha
      rw [pathCmp_of_entry he, neg_strcmp, strcmp_pos_iff] at hpos
      exact ⟨e, _, insertedEntry_of_some he, hself, hpos⟩
    · obtain ⟨e, he⟩ := h.mem_iff.mp ha
      rw [pathCmp_of_entry he, neg_strcmp, strcmp_neg_iff] at hneg
      exact ⟨_, e, hself, insertedEntry_of_some he, hneg⟩

/-- An insertion that returns adds an entry, unless there is one with the path of the new file. -/
theorem fatTreeInsert_ok {u : State} (h : TreeOk s p t) (hf : s.files.cell file = some f)
    (hd : f.dentry.isSome = true) (hnew : ∀ a e, s.treeEntry a = some e → e.file ≠ file)
    (hrun : fatTreeInsert parent (some file) s = .ok ⟨⟩ u) :
    (∃ nodes p', u = { s with nodes := nodes, fileTree := some p' }) ∧
    ((HasPath s.treeEntry f.filepath ∧ KeepsEntries s u) ∨
      (¬ HasPath s.treeEntry f.filepath ∧ (∀ q, parent = some q → ∃ e, s.treeEntry q = some e) ∧
        (∃ p' t', TreeOk u p' t') ∧ u.treeEntry = insertedEntry s file f parent)) := by
  have hcmp := h.comparesAs_insert hf
  have hloc : locate (fun a => - -pathCmp s.treeEntry f.filepath a) t =
      locate (pathCmp s.treeEntry f.filepath) t := by simp only [neg_neg]
  cases hfound : locate (pathCmp s.treeEntry f.filepath) t with
  -- The path is there already: the insertion changes no entry, and the new file is lost.
  | some a =>
      obtain ⟨nodes, hins, hrep, hframe⟩ := hTreeInsert_located parent h.represents hcmp
        h.represents.height_lt (hloc.trans hfound)
      rw [fatTreeInsert_run h.root hins] at hrun
      cases hrun
      have hroot : ({ s with nodes := nodes, fileTree := some p } : State) = { s with nodes := nodes } := by
        rw [← h.root]
      refine ⟨⟨nodes, p, rfl⟩, .inl ⟨⟨a, h.locate_eq_some_iff.mp hfound⟩, ?_⟩⟩
      rw [hroot]
      exact h.keepsEntries hframe hrep
  | none =>
      have hno := h.locate_eq_none_iff.mp hfound
      -- The parent must be live, or `h_node_init` writes to a freed node.
      have hp : ∀ q, parent = some q → ∃ e, s.treeEntry q = some e := by
        intro q hq
        cases hc : s.nodes.cell q with
        | none =>
            rw [fatTreeInsert_error h.root (hTreeInsert_dangling h.represents hcmp
              h.represents.height_lt (hloc.trans hfound) hq hc)] at hrun
            cases hrun
        | some node =>
            obtain ⟨g, -, -, he⟩ := h.entry_of_cell hc
            exact ⟨_, he⟩
      obtain ⟨p', nodes, hins, hrep, hframe⟩ := hTreeInsert_new h.represents hcmp
        h.represents.height_lt (hloc.trans hfound) fun q hq => by
          obtain ⟨e, he⟩ := hp q hq
          obtain ⟨node, -, hc, -⟩ := treeEntry_eq_some he
          exact ⟨node, hc⟩
      rw [fatTreeInsert_run h.root hins] at hrun
      cases hrun
      obtain ⟨hok, htable⟩ := h.inserted hf hd hnew hno hp hrep hframe rfl
      exact ⟨⟨nodes, p', rfl⟩, .inr ⟨hno, hp, ⟨p', _, hok⟩, htable⟩⟩

end Insertion

/-! ## Deletion -/

section Deletion

variable {s : State} {p : Ptr} {t : BinaryTree Nat}

/-- A file is destroyed once. -/
theorem destroyFile_once {file : Nat} {files files' : Heap FatFile}
    (h : destroyFile file files = .ok files') :
    files' = files.free file ∧ destroyFile file files' = .error .doubleFree := by
  unfold destroyFile at h
  split at h
  · cases h
    simp [destroyFile]
  · cases h

/-- The tree after a deletion of the node `a` with its file. -/
theorem TreeOk.deleted (h : TreeOk s p t) {a : Nat} {e : TreeEntry} {key : CString}
    (he : s.treeEntry a = some e) (hloc : locate (pathCmp s.treeEntry key) t = some a)
    (hnear : SuccessorNear (subtreeBy (pathCmp s.treeEntry key) t)) {p' : Ptr}
    {m' : HMem Nat (Heap FatFile)}
    (hdel : NodeDeleted s.toHMem m' p' (deleteBy (pathCmp s.treeEntry key) t) a
      (s.files.free e.file)) {u : State}
    (hu : u = { s with toHMem := m', fileTree := some p' }) :
    TreeOk u p' (deleteBy (pathCmp s.treeEntry key) t) ∧
      u.treeEntry = Function.update s.treeEntry a none := by
  subst hu
  have hfiles : m'.store = s.files.free e.file := hdel.store
  have hlive {b : Nat} {node : HNode Nat} (hc : m'.nodes.cell b = some node) :
      b ≠ a ∧ ∃ node₀, s.nodes.cell b = some node₀ ∧ node.data = node₀.data ∧
        node.hParent = node₀.hParent := by
    have hba : b ≠ a := by
      rintro rfl
      rw [hdel.freed] at hc
      cases hc
    have hmap := hdel.entry b hba
    rw [hc] at hmap
    cases hc₀ : s.nodes.cell b with
    | none =>
        rw [hc₀] at hmap
        cases hmap
    | some node₀ =>
        rw [hc₀] at hmap
        simp only [Option.map_some, Option.some.injEq, HNode.entry, Prod.mk.injEq] at hmap
        exact ⟨hba, node₀, rfl, hmap⟩
  -- the file of another node is not the one that was freed
  have hother {b : Nat} {node₀ : HNode Nat} (hba : b ≠ a) (hc₀ : s.nodes.cell b = some node₀) :
      ∃ f, m'.store.cell node₀.data = some f ∧ f.dentry.isSome = true ∧
        s.treeEntry b = some ⟨node₀.data, f.filepath, node₀.hParent, f.numTimesOpened, f.isDir⟩ := by
    obtain ⟨f, hf, hd, heb⟩ := h.entry_of_cell hc₀
    have hne : node₀.data ≠ e.file := fun heq => hba (h.file_inj heb he heq)
    exact ⟨f, by rw [hfiles, Heap.cell_free_ne hne]; exact hf, hd, heb⟩
  have htable : ({ s with toHMem := m', fileTree := some p' } : State).treeEntry =
      Function.update s.treeEntry a none := by
    funext b
    cases hc : m'.nodes.cell b with
    | none =>
        rw [treeEntry_of_none hc]
        by_cases hba : b = a
        · rw [hba, Function.update_self]
        · have hmap := hdel.entry b hba
          rw [hc] at hmap
          rw [Function.update_of_ne hba, treeEntry_of_none]
          simpa using hmap.symm
    | some node =>
        obtain ⟨hba, node₀, hc₀, hdata, hparent⟩ := hlive hc
        obtain ⟨f, hf, -, heb⟩ := hother hba hc₀
        rw [Function.update_of_ne hba, heb,
          treeEntry_of_cell (s := { s with toHMem := m', fileTree := some p' }) hc
            (by rw [hdata]; exact hf), hdata, hparent]
  have hin : inorder (deleteBy (pathCmp s.treeEntry key) t) =
      (inorder t).filter (pathCmp s.treeEntry key · ≠ 0) := inorder_deleteBy (h.monotone key) hnear
  have hmem {b : Nat} : b ∈ inorder (deleteBy (pathCmp s.treeEntry key) t) ↔
      b ∈ inorder t ∧ b ≠ a := by
    rw [hin, List.mem_filter, decide_eq_true_eq]
    refine and_congr_right fun hb => ?_
    obtain ⟨e', he'⟩ := h.mem_iff.mp hb
    rw [not_iff_not]
    constructor
    · intro hzero
      rw [pathCmp_of_entry he', strcmp_eq_zero_iff] at hzero
      exact h.path_inj ⟨e', he', hzero⟩ (h.locate_eq_some_iff.mp hloc)
    · rintro rfl
      exact (locate_mem hloc).2
  refine ⟨⟨rfl, hdel.represents, fun b node hc => ?_, fun b node hc => ?_,
    fun b d node node' hc hc' heq => ?_, fun b node q hc hq => ?_, ?_⟩, htable⟩
  · obtain ⟨hba, node₀, hc₀, -⟩ := hlive hc
    exact hmem.mpr ⟨h.live b node₀ hc₀, hba⟩
  · obtain ⟨hba, node₀, hc₀, hdata, -⟩ := hlive hc
    obtain ⟨f, hf, hd, -⟩ := hother hba hc₀
    exact ⟨f, by rw [hdata]; exact hf, hd⟩
  · obtain ⟨-, node₀, hc₀, hdata, -⟩ := hlive hc
    obtain ⟨-, node₀', hc₀', hdata', -⟩ := hlive hc'
    exact h.distinct b d node₀ node₀' hc₀ hc₀' (by rw [← hdata, ← hdata', heq])
  · obtain ⟨-, node₀, hc₀, -, hparent⟩ := hlive hc
    exact h.older b node₀ q hc₀ (hparent ▸ hq)
  · rw [htable]
    have hsub : (inorder (deleteBy (pathCmp s.treeEntry key) t)).Pairwise (Before s.treeEntry) := by
      rw [hin]
      exact h.ordered.sublist List.filter_sublist
    refine hsub.imp_of_mem fun {b d} hb hd hbd => ?_
    obtain ⟨e₁, e₂, h₁, h₂, hlt⟩ := hbd
    exact ⟨e₁, e₂, by rw [Function.update_of_ne (hmem.mp hb).2, h₁],
      by rw [Function.update_of_ne (hmem.mp hd).2, h₂], hlt⟩

/-- A deletion that returns drops the entry with the path, if there is one. -/
theorem fatTreeDelete_ok (h : TreeOk s p t) {key : CString} {u : State}
    (hrun : fatTreeDelete key s = .ok ⟨⟩ u) :
    (¬ HasPath s.treeEntry key ∧ KeepsEntries s u) ∨
    ∃ a e, s.treeEntry a = some e ∧ e.path = key ∧ (∃ p' t', TreeOk u p' t') ∧
      u.treeEntry = Function.update s.treeEntry a none ∧ u.files = s.files.free e.file := by
  unfold fatTreeDelete at hrun
  rw [get_bind, h.root] at hrun
  cases p with
  | none =>
      cases hrun
      refine .inl ⟨?_, Std.Refl.refl s⟩
      rintro ⟨a, e, he, -⟩
      have hnil : t = .nil := linked_none_iff.mp h.represents.linked
      have hmem := h.mem_iff.mpr ⟨e, he⟩
      rw [hnil] at hmem
      cases hmem
  | some root =>
      -- A file destroyed twice is an error, so a run that ends destroyed it once.
      have honce : ∀ file files files', destroyFile file files = .ok files' →
          ∃ e, destroyFile file files' = .error e :=
        fun file files files' hd => ⟨_, (destroyFile_once hd).2⟩
      obtain ⟨p', u', hlift, hmod⟩ := bind_eq_ok.mp hrun
      cases hmod
      cases hdel : hTreeDelete key fatFileCmpPath destroyFile (s.nodes.next + 1) (some root) s.toHMem with
      | error e m' =>
          rw [liftTree_error hdel] at hlift
          cases hlift
      | ok q m' =>
          rw [liftTree_ok hdel] at hlift
          cases hlift
          obtain ⟨hloc, rfl, nodes, rfl, hrep, hframe⟩ | ⟨a, node, store, hloc, hc, hd, hnear, hdeleted⟩ :=
            hTreeDelete_ok h.represents (h.comparesAs key) h.represents.height_lt honce hdel
          -- Nothing was found, and nothing was taken off.
          · have hroot : ({ s with nodes := nodes, fileTree := some (some root) } : State) =
                { s with nodes := nodes } := by rw [← h.root]
            refine .inl ⟨h.locate_eq_none_iff.mp hloc, ?_⟩
            show KeepsEntries s { s with nodes := nodes, fileTree := some (some root) }
            rw [hroot]
            exact h.keepsEntries hframe hrep
          -- The node is gone and its file with it.
          · obtain ⟨f, -, -, he⟩ := h.entry_of_cell hc
            rw [(destroyFile_once hd).1] at hdeleted
            obtain ⟨e', he', hpath⟩ := h.locate_eq_some_iff.mp hloc
            rw [he] at he'
            cases he'
            obtain ⟨hok, htable⟩ := h.deleted he hloc hnear hdeleted rfl
            exact .inr ⟨a, _, he, hpath, ⟨_, _, hok⟩, htable, hdeleted.store⟩

end Deletion

/-! ## Hierarchical ancestors -/

/-- One step up the hierarchy. -/
def Up (E : Nat → Option TreeEntry) (a b : Nat) : Prop := ∃ e, E a = some e ∧ e.parent = some b

/-- `b` is `a` or a hierarchical ancestor of `a`. -/
def Reaches (E : Nat → Option TreeEntry) : Nat → Nat → Prop := Relation.ReflTransGen (Up E)

/-- The hierarchical ancestors of a node, itself first, as far as there are entries. -/
def ancestorsFrom (E : Nat → Option TreeEntry) : Nat → Ptr → List Nat
  | 0, _ => []
  | _ + 1, none => []
  | fuel + 1, some a =>
      match E a with
      | none => []
      | some e => a :: ancestorsFrom E fuel e.parent

/-- A node of the file tree and its hierarchical ancestors; these are older than the node. -/
def State.ancestors (s : State) (a : Nat) : List Nat := ancestorsFrom s.treeEntry (a + 1) (some a)

section Ancestors

variable {E E' : Nat → Option TreeEntry} {a b : Nat} {e : TreeEntry}

/-- The ancestors depend on the parents only. -/
theorem reaches_congr (h : ∀ a, (E' a).map TreeEntry.parent = (E a).map TreeEntry.parent) :
    Reaches E' = Reaches E := by
  have hup : Up E' = Up E := by
    funext a b
    have ha := h a
    unfold Up
    cases hE : E a with
    | none =>
        rw [hE, Option.map_none, Option.map_eq_none_iff] at ha
        simp [ha]
    | some e =>
        rw [hE] at ha
        obtain ⟨e', he', hparent⟩ := Option.map_eq_some_iff.mp ha
        simp [he', hparent]
  unfold Reaches
  rw [hup]

/-- A node reaches itself. -/
theorem reaches_self (E : Nat → Option TreeEntry) (a : Nat) : Reaches E a a := .refl

/-- The ancestors of a node are itself and those of its parent. -/
theorem reaches_iff (he : E a = some e) :
    Reaches E a b ↔ b = a ∨ ∃ q, e.parent = some q ∧ Reaches E q b := by
  constructor
  · intro h
    rcases Relation.ReflTransGen.cases_head h with rfl | ⟨q, ⟨e', he', hq⟩, hqb⟩
    · exact .inl rfl
    · rw [he] at he'
      cases he'
      exact .inr ⟨q, hq, hqb⟩
  · rintro (rfl | ⟨q, hq, hqb⟩)
    · exact .refl
    · exact .head ⟨e, he, hq⟩ hqb

/-- Nothing but itself is reached from a node that is not live. -/
theorem reaches_of_none (hnone : E a = none) : Reaches E a b ↔ b = a := by
  constructor
  · intro h
    rcases Relation.ReflTransGen.cases_head h with rfl | ⟨q, ⟨e', he', -⟩, -⟩
    · rfl
    · rw [hnone] at he'
      cases he'
  · rintro rfl
    exact .refl

variable (hold : ∀ a e q, E a = some e → e.parent = some q → q < a)
include hold

/-- The nodes above a node are older. -/
theorem le_of_reaches (h : Reaches E a b) : b ≤ a := by
  induction h with
  | refl => exact Nat.le_refl _
  | tail _ hup ih =>
      obtain ⟨e, he, hq⟩ := hup
      exact Nat.le_trans (Nat.le_of_lt (hold _ e _ he hq)) ih

/-- The ancestors of a node are the live nodes that it reaches. -/
theorem mem_ancestorsFrom {fuel : Nat} (hfuel : a < fuel) :
    b ∈ ancestorsFrom E fuel (some a) ↔ Reaches E a b ∧ ∃ e, E b = some e := by
  induction fuel generalizing a with
  | zero => omega
  | succ fuel ih =>
      cases he : E a with
      | none =>
          simp only [ancestorsFrom, he, List.not_mem_nil, false_iff, not_and]
          intro h
          rw [(reaches_of_none he).mp h, he]
          simp
      | some e =>
          simp only [ancestorsFrom, he, List.mem_cons]
          rw [reaches_iff he]
          cases hq : e.parent with
          | none =>
              cases fuel <;> simp [ancestorsFrom] <;> rintro rfl <;> exact ⟨e, he⟩
          | some q =>
              have hlt := hold a e q he hq
              rw [ih (by omega)]
              constructor
              · rintro (rfl | ⟨h, hb⟩)
                · exact ⟨.inl rfl, e, he⟩
                · exact ⟨.inr ⟨q, rfl, h⟩, hb⟩
              · rintro ⟨rfl | ⟨q', hq', h⟩, hb⟩
                · exact .inl rfl
                · cases hq'
                  exact .inr ⟨h, hb⟩

end Ancestors

/-- Parents are older than their children. -/
theorem TreeOk.parent_lt {s : State} {p : Ptr} {t : BinaryTree Nat} (h : TreeOk s p t) (a : Nat)
    (e : TreeEntry) (q : Nat) (he : s.treeEntry a = some e) (hq : e.parent = some q) : q < a := by
  obtain ⟨node, f, hc, -, rfl⟩ := treeEntry_eq_some he
  exact h.older a node q hc hq

/-- The ancestors of a node, in a well-formed tree. -/
theorem TreeOk.mem_ancestors {s : State} {p : Ptr} {t : BinaryTree Nat} (h : TreeOk s p t)
    {a b : Nat} : b ∈ s.ancestors a ↔ Reaches s.treeEntry a b ∧ ∃ e, s.treeEntry b = some e :=
  mem_ancestorsFrom h.parent_lt (Nat.lt_succ_self a)

/-! ## Open counts -/

/-- The open count of an entry is changed by `g`. -/
def TreeEntry.count (g : Nat → Nat) (e : TreeEntry) : TreeEntry := { e with opened := g e.opened }

/-- The open counts of a node and of its hierarchical ancestors, which are all there, are changed by
`g`. -/
structure Counted (g : Nat → Nat) (r : Ptr) (E E' : Nat → Option TreeEntry) : Prop where
  chain : ∀ a, r = some a → ∀ b, Reaches E a b → ∃ e, E b = some e
  on : ∀ a, r = some a → ∀ b, Reaches E a b → E' b = (E b).map (TreeEntry.count g)
  off : ∀ b, (∀ a, r = some a → ¬ Reaches E a b) → E' b = E b

/-- Counting handles changes no parent. -/
theorem Counted.parents {g : Nat → Nat} {r : Ptr} {E E' : Nat → Option TreeEntry}
    (h : Counted g r E E') (b : Nat) : (E' b).map TreeEntry.parent = (E b).map TreeEntry.parent := by
  by_cases hb : ∃ a, r = some a ∧ Reaches E a b
  · obtain ⟨a, hr, hab⟩ := hb
    rw [h.on a hr b hab, Option.map_map]
    rfl
  · rw [h.off b fun a hr hab => hb ⟨a, hr, hab⟩]

/-- Changing the open count of a node and then those of its ancestors. -/
theorem Counted.cons {g : Nat → Nat} {E E' : Nat → Option TreeEntry} {a : Nat} {e : TreeEntry}
    (hold : ∀ a e q, E a = some e → e.parent = some q → q < a) (he : E a = some e)
    (h : Counted g e.parent (Function.update E a (some (e.count g))) E') :
    Counted g (some a) E E' := by
  have hparents (b : Nat) : (Function.update E a (some (e.count g)) b).map TreeEntry.parent =
      (E b).map TreeEntry.parent := by
    by_cases hba : b = a
    · subst hba
      rw [Function.update_self, he]
      rfl
    · rw [Function.update_of_ne hba]
  have hreach := reaches_congr hparents
  -- the ancestors of the parent are older than the node
  have hne {q b : Nat} (hq : e.parent = some q) (hqb : Reaches E q b) : b ≠ a := by
    have := le_of_reaches hold hqb
    have := hold a e q he hq
    omega
  refine ⟨?_, ?_, ?_⟩
  · rintro a' ⟨⟩ b hab
    obtain rfl | ⟨q, hq, hqb⟩ := (reaches_iff he).mp hab
    · exact ⟨e, he⟩
    · obtain ⟨e', he'⟩ := h.chain q hq b (by rw [hreach]; exact hqb)
      rw [Function.update_of_ne (hne hq hqb)] at he'
      exact ⟨e', he'⟩
  · rintro a' ⟨⟩ b hab
    obtain rfl | ⟨q, hq, hqb⟩ := (reaches_iff he).mp hab
    · rw [h.off b fun q hq hqb => hne hq (hreach ▸ hqb) rfl, Function.update_self, he]
      rfl
    · rw [h.on q hq b (by rw [hreach]; exact hqb), Function.update_of_ne (hne hq hqb)]
  · intro b hb
    have hba : b ≠ a := fun heq => hb a rfl (heq ▸ reaches_self E a)
    rw [h.off b fun q hq hqb => hb a rfl ((reaches_iff he).mpr (.inr ⟨q, hq, hreach ▸ hqb⟩)),
      Function.update_of_ne hba]

section Iteration

variable {s : State} {p : Ptr} {t : BinaryTree Nat}

/-- The open count of a file is changed by `g`. -/
def recount (g : Nat → Nat) (f : FatFile) : FatFile := { f with numTimesOpened := g f.numTimesOpened }

/-- An update of a file that keeps its path and an entry. -/
theorem TreeOk.updated (h : TreeOk s p t) {file : Nat} {g : FatFile → FatFile}
    (hpath : ∀ x, (g x).filepath = x.filepath)
    (hdentry : ∀ x, x.dentry.isSome = true → (g x).dentry.isSome = true) :
    TreeOk (s.updated file g) p t ∧
      (∀ a, (∀ e, s.treeEntry a = some e → e.file ≠ file) →
        (s.updated file g).treeEntry a = s.treeEntry a) ∧
      ∀ a e x, s.treeEntry a = some e → e.file = file → s.files.cell file = some x →
        (s.updated file g).treeEntry a =
          some { e with opened := (g x).numTimesOpened, isDir := (g x).isDir } := by
  have hother (a : Nat) (hne : ∀ e, s.treeEntry a = some e → e.file ≠ file) :
      (s.updated file g).treeEntry a = s.treeEntry a := by
    cases hc : s.nodes.cell a with
    | none =>
        rw [treeEntry_of_none hc]
        exact treeEntry_of_none hc
    | some node =>
        obtain ⟨f, hf, -, he⟩ := h.entry_of_cell hc
        have hf' := (State.cell_updated_ne (hne _ he) g).trans hf
        rw [he]
        exact treeEntry_of_cell (s := s.updated file g) hc hf'
  have hself (a : Nat) (e : TreeEntry) (x : FatFile) (he : s.treeEntry a = some e)
      (hfile : e.file = file) (hx : s.files.cell file = some x) :
      (s.updated file g).treeEntry a =
        some { e with opened := (g x).numTimesOpened, isDir := (g x).isDir } := by
    obtain ⟨node, f, hc, hf, rfl⟩ := treeEntry_eq_some he
    subst hfile
    rw [hf] at hx
    cases hx
    rw [treeEntry_of_cell (s := s.updated node.data g) hc (State.cell_updated_self hf g), hpath]
  -- the paths stay where they are
  have hsame {b : Nat} {e : TreeEntry} (hb : s.treeEntry b = some e) :
      ∃ e', (s.updated file g).treeEntry b = some e' ∧ e'.path = e.path := by
    by_cases hfile : e.file = file
    · obtain ⟨node, f, -, hf, rfl⟩ := treeEntry_eq_some hb
      exact ⟨_, hself b _ f hb hfile (hfile ▸ hf), rfl⟩
    · refine ⟨e, (hother b fun e' he' => ?_).trans hb, rfl⟩
      rw [hb] at he'
      cases he'
      exact hfile
  refine ⟨⟨h.root, h.represents, h.live, fun b node hc => ?_, h.distinct, h.older, ?_⟩, hother, hself⟩
  · obtain ⟨f, hf, hd⟩ := h.file b node hc
    by_cases hfile : node.data = file
    · exact ⟨g f, hfile ▸ State.cell_updated_self hf g, hdentry f hd⟩
    · exact ⟨f, (State.cell_updated_ne hfile g).trans hf, hd⟩
  · refine h.ordered.imp ?_
    rintro b d ⟨e₁, e₂, hb, hd, hlt⟩
    obtain ⟨e₁', hb', hpath₁⟩ := hsame hb
    obtain ⟨e₂', hd', hpath₂⟩ := hsame hd
    exact ⟨e₁', e₂', hb', hd', by rwa [hpath₁, hpath₂]⟩

/-- An update of the file of an entry. -/
theorem TreeOk.updated_entry (h : TreeOk s p t) {a : Nat} {e : TreeEntry} {x : FatFile}
    (he : s.treeEntry a = some e) (hx : s.files.cell e.file = some x) {g : FatFile → FatFile}
    (hpath : ∀ x, (g x).filepath = x.filepath)
    (hdentry : ∀ x, x.dentry.isSome = true → (g x).dentry.isSome = true) :
    TreeOk (s.updated e.file g) p t ∧ (s.updated e.file g).treeEntry =
      Function.update s.treeEntry a
        (some { e with opened := (g x).numTimesOpened, isDir := (g x).isDir }) := by
  obtain ⟨hok, hother, hself⟩ := h.updated hpath hdentry
  refine ⟨hok, ?_⟩
  funext b
  by_cases hba : b = a
  · subst hba
    rw [Function.update_self, hself b e x he rfl hx]
  · rw [Function.update_of_ne hba, hother b fun e' he' heq => hba (h.file_inj he' he heq)]

/-- Changing the open count of the file of an entry changes that entry. -/
theorem TreeOk.recounted (h : TreeOk s p t) {a : Nat} {e : TreeEntry} (he : s.treeEntry a = some e)
    (g : Nat → Nat) :
    TreeOk (s.updated e.file (recount g)) p t ∧
      (s.updated e.file (recount g)).treeEntry = Function.update s.treeEntry a (some (e.count g)) := by
  obtain ⟨node, f, -, hf, rfl⟩ := treeEntry_eq_some he
  exact h.updated_entry he hf (fun _ => rfl) fun _ hd => hd

/-- What `fat_tree_inc_num_times_opened` and its counterpart do when they return. -/
theorem iterate_ok {modFn : DataModifyFn Nat (Heap FatFile)} {g : Nat → Nat}
    (hmod : ∀ file files files', modFn file files = .ok files' →
      files' = files.modify file (recount g)) {fuel : Nat} {r : Ptr} {u : State}
    (h : TreeOk s p t) (hrun : liftTree (hTreeIterateHAncestors modFn fuel r) s = .ok ⟨⟩ u) :
    (∃ files, u = { s with store := files }) ∧ u.files.next = s.files.next ∧ TreeOk u p t ∧
      Counted g r s.treeEntry u.treeEntry := by
  -- By induction over the rounds, from the node up to the root.
  induction fuel generalizing s r with
  | zero => cases hrun
  | succ fuel ih =>
      cases r with
      | none =>
          cases hrun
          exact ⟨⟨s.store, rfl⟩, rfl, h, nofun, nofun, fun _ _ => rfl⟩
      | some a =>
          rw [hTreeIterateHAncestors, liftTree_bind] at hrun
          obtain ⟨node, s₁, hnode, hrun⟩ := bind_eq_ok.mp hrun
          rw [liftTree_bind] at hrun
          obtain ⟨x, s₂, hdata, hrun⟩ := bind_eq_ok.mp hrun
          cases hc : s.nodes.cell a with
          | none =>
              rw [liftTree_error (deref_error (m := s.toHMem) hc)] at hnode
              cases hnode
          | some node₀ =>
              rw [liftTree_ok (deref_run (m := s.toHMem) hc)] at hnode
              cases hnode
              obtain ⟨f, -, -, he⟩ := h.entry_of_cell hc
              cases hfile : modFn node.data s.files with
              | error err =>
                  rw [liftTree_error (modifyData_error (m := s.toHMem) hfile)] at hdata
                  cases hdata
              | ok files =>
                  rw [liftTree_ok (modifyData_run (m := s.toHMem) hfile)] at hdata
                  cases hdata
                  rw [hmod _ _ _ hfile] at hrun
                  obtain ⟨hok, htable⟩ := h.recounted he g
                  obtain ⟨⟨files', rfl⟩, hnext, hok', hrest⟩ := ih hok hrun
                  refine ⟨⟨files', rfl⟩, hnext, hok', ?_⟩
                  -- The parents keep their cells when the count of this node changes.
                  rw [htable] at hrest
                  exact hrest.cons h.parent_lt he

end Iteration

end OsLabs.Fat
