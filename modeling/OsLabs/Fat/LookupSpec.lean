import OsLabs.Fat.FileSpec
import OsLabs.Fat.FuseOps
import OsLabs.Fat.TreeSpec

/-! # Lookups

The commands that find a file and read it change nothing but the error number and the count of
questions put to the environment (`LookedUp`). What they return when they return says what was in
memory. -/

namespace OsLabs.Fat

open Cmd

/-! ## Results of reads -/

section Reads

variable {s t : State} {file : Nat}

/-- Reading through a pointer changes nothing, and gives what the cell holds. -/
theorem readFile_eq_ok {x : FatFile} (h : readFile file s = .ok x t) :
    t = s ∧ s.files.cell file = some x := by
  cases hx : s.files.cell file with
  | none =>
      unfold readFile at h
      rw [Cmd.get_bind, hx] at h
      cases h
  | some y =>
      rw [readFile_run hx] at h
      cases h
      exact ⟨rfl, rfl⟩

/-- An entry that could be read is that of a file that has one. -/
theorem readDentry_eq_ok {d : DirEntry} (h : readDentry file s = .ok d t) :
    t = s ∧ ∃ x, s.files.cell file = some x ∧ x.dentry = some d := by
  obtain ⟨x, u, hx, hrest⟩ := Cmd.bind_eq_ok.mp h
  obtain ⟨rfl, hx⟩ := readFile_eq_ok hx
  cases hd : x.dentry with
  | none =>
      rw [hd] at hrest
      cases hrest
  | some e =>
      rw [hd] at hrest
      cases hrest
      exact ⟨rfl, x, hx, hd⟩

/-- Whether a file is a directory, as `fat_file_is_directory` reads it. -/
def FatFile.isDir (f : FatFile) : Bool := f.dentry.all fun entry => decide entry.IsDirectory

/-- A file with an entry is a directory just if the attribute byte of the entry says so. -/
theorem FatFile.isDir_eq {f : FatFile} {d : DirEntry} (hd : f.dentry = some d) :
    f.isDir = decide d.IsDirectory := by
  rw [FatFile.isDir, hd, Option.all_some]

/-- `fat_file_is_directory` of a live file reads and changes nothing. -/
theorem fatFileIsDirectory_run {f : FatFile} (hf : s.files.cell file = some f) :
    fatFileIsDirectory (some file) s = .ok f.isDir s := by
  unfold fatFileIsDirectory
  rw [Cmd.bind_ok (nonNull_run file s), Cmd.bind_ok (readFile_run hf)]
  cases hd : f.dentry <;> simp [FatFile.isDir, hd]

/-- Past the test for `NULL` the pointer leads somewhere, and nothing has changed. -/
theorem nonNull_eq_ok {p : Ptr} {r : Nat} (h : nonNull p s = .ok r t) : t = s ∧ p = some r := by
  cases p with
  | none => cases h
  | some q =>
      cases h
      exact ⟨rfl, rfl⟩

end Reads

/-! ## What lookups leave alone -/

/-- Nothing changed but the error number and the count of questions. -/
def LookedUp (s t : State) : Prop := t = { s with errno := t.errno, tick := t.tick }

instance : Std.Refl LookedUp := ⟨fun _ => rfl⟩

instance : IsTrans State LookedUp := ⟨fun s t u h h' => by
  unfold LookedUp at *
  rw [h', h]⟩

namespace LookedUp

variable {s t : State}

/-- Files stay as they are under the frame of a lookup. -/
theorem files (h : LookedUp s t) : t.files = s.files := by
  unfold LookedUp at h
  rw [h]
  rfl

/-- Nodes stay as they are. -/
theorem nodes (h : LookedUp s t) : t.nodes = s.nodes := by
  unfold LookedUp at h
  rw [h]

/-- The FAT in memory is the same. -/
theorem table (h : LookedUp s t) : t.table = s.table := by
  unfold LookedUp at h
  rw [h]

/-- No byte of the device changes. -/
theorem dev (h : LookedUp s t) : t.dev = s.dev := by
  unfold LookedUp at h
  rw [h]

/-- The root of the file tree is the same node. -/
theorem fileTree (h : LookedUp s t) : t.fileTree = s.fileTree := by
  unfold LookedUp at h
  rw [h]

end LookedUp

/-- Nothing changed in tree memory but the error number. -/
def TreeLookedUp {α β : Type} (m m' : HMem α β) : Prop := m' = { m with errno := m'.errno }

instance {α β : Type} : Std.Refl (@TreeLookedUp α β) := ⟨fun _ => rfl⟩

instance {α β : Type} : IsTrans (HMem α β) TreeLookedUp := ⟨fun m m' m'' h h' => by
  unfold TreeLookedUp at *
  rw [h', h]⟩

section Tree

variable {α β κ : Type}

/-- A comparison changes nothing, whatever it answers. -/
theorem within_compareData {R : HMem α β → HMem α β → Prop} [Std.Refl R] (f : β → Except Fault Int) :
    Within R (compareData f : HM α β Int) := by
  refine within_get_bind fun m => ?_
  cases f m.store <;> exact Std.Refl.refl m

/-- `h_tree_search` only reads the nodes on its way down. -/
theorem within_hTreeSearch {R : HMem α β → HMem α β → Prop} [Std.Refl R] [IsTrans _ R] (key : κ)
    (cmp : DataCmpFn α β κ) (fuel : Nat) (root : Ptr) : Within R (hTreeSearch key cmp fuel root) := by
  induction fuel generalizing root with
  | zero => exact within_throw _
  | succ fuel ih =>
      cases root with
      | none => exact within_pure _
      | some r =>
          rw [hTreeSearch]
          refine (within_deref _ r).bind fun node => (within_compareData _).bind fun c => ?_
          exact within_ite (fun _ => ih _) fun _ => within_ite (fun _ => ih _) fun _ => within_pure _

/-- The error number is what a lookup may change. -/
theorem within_setTreeErrno (e : Int) : Within TreeLookedUp (setTreeErrno e : HM α β PUnit) :=
  fun _ => rfl

/-- `h_tree_get_data` sets the error number when it is given no node, and changes nothing else. -/
theorem within_hTreeGetData (node : Ptr) :
    Within TreeLookedUp (hTreeGetData node : HM α β (Option α)) := by
  cases node with
  | none => exact (within_setTreeErrno _).bind fun _ => within_pure _
  | some r => exact (within_deref _ r).bind fun _ => within_pure _

/-- `h_tree_get_h_parent` reads one node. -/
theorem within_hTreeGetHParent {R : HMem α β → HMem α β → Prop} [Std.Refl R] [IsTrans _ R] (node : Ptr) :
    Within R (hTreeGetHParent node : HM α β Ptr) := by
  cases node with
  | none => exact within_pure _
  | some r => exact (within_deref _ r).bind fun _ => within_pure _

/-- A call on the tree that answers, seen from the whole state: only the memory of the tree is new.
-/
theorem liftTree_ok {γ : Type} {m : HM Nat (Heap FatFile) γ} {s : State} {a : γ}
    {h : HMem Nat (Heap FatFile)} (hm : m s.toHMem = .ok a h) :
    liftTree m s = .ok a { s with toHMem := h } := by
  unfold liftTree
  rw [hm]

/-- A call on the tree that fails leaves the memory of the tree where it stopped. -/
theorem liftTree_error {γ : Type} {m : HM Nat (Heap FatFile) γ} {s : State} {e : Fault}
    {h : HMem Nat (Heap FatFile)} (hm : m s.toHMem = .error e h) :
    liftTree m s = .error e { s with toHMem := h } := by
  unfold liftTree
  rw [hm]

/-- A sequence of tree commands. -/
theorem liftTree_bind {γ δ : Type} (x : HM Nat (Heap FatFile) γ) (f : γ → HM Nat (Heap FatFile) δ)
    (s : State) : liftTree (x >>= f) s = (liftTree x >>= fun a => liftTree (f a)) s := by
  cases hx : x s.toHMem with
  | error e h =>
      rw [bind_error (liftTree_error hx), liftTree_error (bind_error hx)]
  | ok a h =>
      rw [bind_ok (liftTree_ok hx)]
      cases hf : f a h with
      | error e h' => rw [liftTree_error ((bind_ok hx).trans hf), liftTree_error hf]
      | ok b h' => rw [liftTree_ok ((bind_ok hx).trans hf), liftTree_ok hf]

/-- A tree command changes the tree memory of the state only. -/
theorem within_liftTree {γ : Type} {R : State → State → Prop}
    {R' : HMem Nat (Heap FatFile) → HMem Nat (Heap FatFile) → Prop}
    {m : HM Nat (Heap FatFile) γ} (hm : Within R' m)
    (hR : ∀ s h, R' s.toHMem h → R s { s with toHMem := h }) : Within R (liftTree m) := by
  intro s
  have h := hm s.toHMem
  cases hr : m s.toHMem with
  | ok a t =>
      rw [hr] at h
      rw [liftTree_ok hr]
      exact hR _ _ h
  | error e t =>
      rw [hr] at h
      rw [liftTree_error hr]
      exact hR _ _ h

end Tree

/-- What a lookup does to the memory of the tree, it does to the state and to no more. -/
theorem lookedUp_of_tree (s : State) (h : HMem Nat (Heap FatFile)) (hh : TreeLookedUp s.toHMem h) :
    LookedUp s { s with toHMem := h } := by
  unfold TreeLookedUp at hh
  unfold LookedUp
  rw [hh]

section Lookups

/-- Asking the environment takes a tick, which the frame of a lookup allows. -/
theorem within_ask {γ : Type} (answer : Nat → γ) : Within LookedUp (ask answer) := fun _ => rfl

/-- Setting the error number is within the frame of a lookup. -/
theorem within_setErrno (e : Int) : Within LookedUp (setErrno e) := fun _ => rfl

/-- Reading the error number changes nothing. -/
theorem within_getErrno {R : State → State → Prop} [Std.Refl R] : Within R getErrno :=
  fun s => Std.Refl.refl s

/-- The test for `NULL` changes nothing. -/
theorem within_nonNull {R : State → State → Prop} [Std.Refl R] (p : Ptr) : Within R (nonNull p) := by
  cases p with
  | none => exact within_throw _
  | some r => exact within_pure _

/-- Reading a file changes nothing. -/
theorem within_readFile {R : State → State → Prop} [Std.Refl R] (file : Nat) :
    Within R (readFile file) := by
  refine within_get_bind fun s => ?_
  cases s.files.cell file <;> exact Std.Refl.refl s

/-- Reading an entry changes nothing. -/
theorem within_readDentry {R : State → State → Prop} [Std.Refl R] [IsTrans _ R] (file : Nat) :
    Within R (readDentry file) := by
  refine (within_readFile file).bind fun x => ?_
  split
  · exact within_pure _
  · exact within_throw _

/-- `fat_file_is_directory` changes nothing. -/
theorem within_fatFileIsDirectory {R : State → State → Prop} [Std.Refl R] [IsTrans _ R] (file : Ptr) :
    Within R (fatFileIsDirectory file) := by
  refine (within_nonNull file).bind fun _ => (within_readFile _).bind fun x => ?_
  split
  · exact within_pure _
  · exact within_pure _

/-- Making an entry asks for the time and for the bytes after the name. -/
theorem within_initDirentry (env : Env) (isDir : Bool) (filepath : CString) (c : Nat) :
    Within LookedUp (fatFileInitDirentry env isDir filepath c) := by
  refine (within_ask _).bind fun after => ?_
  cases filenameFromPath (basename filepath) after DirEntry.zero with
  | error e => exact within_throw _
  | ok entry => exact (within_ask _).bind fun _ => within_pure _

/-- `fat_tree_node_search` leaves everything but the error number and the clock alone. -/
theorem within_fatTreeNodeSearch (key : CString) : Within LookedUp (fatTreeNodeSearch key) := by
  refine within_get_bind fun s => ?_
  cases s.fileTree with
  | none => exact Std.Refl.refl s
  | some root => exact within_liftTree (within_hTreeSearch _ _ _ _) lookedUp_of_tree s

/-- `fat_tree_get_file` leaves everything but the error number and the clock alone. -/
theorem within_fatTreeGetFile (node : Ptr) : Within LookedUp (fatTreeGetFile node) :=
  within_liftTree (within_hTreeGetData node) lookedUp_of_tree

/-- `fat_tree_get_parent` leaves everything but the error number and the clock alone. -/
theorem within_fatTreeGetParent (node : Ptr) : Within LookedUp (fatTreeGetParent node) :=
  (within_liftTree (within_hTreeGetHParent node) lookedUp_of_tree).bind fun _ => within_fatTreeGetFile _

end Lookups

end OsLabs.Fat
