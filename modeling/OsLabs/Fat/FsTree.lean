import OsLabs.Fat.File

/-! # The file tree (`fat_fs_tree.c`)

The hierarchy tree with `fat_file`s as data, ordered by their full paths. The depth bound handed to
the tree functions is one more than the number of nodes ever allocated. -/

namespace OsLabs.Fat

/-- `fat_file_cmp`. -/
def fatFileCmp : DataCmpFn Nat (Heap FatFile) Nat := fun files file1 file2 =>
  match files.cell file1, files.cell file2 with
  | some f1, some f2 => .ok (strcmp f1.filepath f2.filepath)
  | _, _ => .error .danglingPointer

/-- `fat_file_cmp_path`. -/
def fatFileCmpPath : DataCmpFn Nat (Heap FatFile) CString := fun files file1 filepath =>
  match files.cell file1 with
  | some f1 => .ok (strcmp f1.filepath filepath)
  | none => .error .danglingPointer

/-- `fat_tree_insert`, with the assignment of its result to `vol->file_tree` that every caller
makes. -/
def fatTreeInsert (parent newFile : Ptr) : M PUnit := do
  let s ← get
  match s.fileTree, newFile with
  | some root, some file => do
      let root ← liftTree (hTreeInsert file parent fatFileCmp (s.nodes.next + 1) root)
      modify fun s => { s with fileTree := some root }
  | _, _ => do
      setErrno einval
      modify fun s => { s with fileTree := none }

/-- `fat_tree_node_search`. -/
def fatTreeNodeSearch (key : CString) : M Ptr := do
  let s ← get
  match s.fileTree with
  | some root => liftTree (hTreeSearch key fatFileCmpPath (s.nodes.next + 1) root)
  | none => throw .nullPointer

/-- `fat_tree_get_file`. -/
def fatTreeGetFile (node : Ptr) : M Ptr := liftTree (hTreeGetData node)

/-- `fat_tree_search`. -/
def fatTreeSearch (key : CString) : M Ptr := do
  let s ← get
  match s.fileTree with
  | some (some _) => do
      let node ← fatTreeNodeSearch key
      fatTreeGetFile node
  | _ => pure none

/-- `fat_tree_get_parent`. -/
def fatTreeGetParent (node : Ptr) : M Ptr := do
  let parent ← liftTree (hTreeGetHParent node)
  fatTreeGetFile parent

/-- `fat_tree_inc_num_times_opened`. -/
def fatTreeIncNumTimesOpened (node : Ptr) : M PUnit := do
  let s ← get
  liftTree (hTreeIterateHAncestors incNumTimesOpened (s.nodes.next + 1) node)

/-- `fat_tree_dec_num_times_opened`. -/
def fatTreeDecNumTimesOpened (node : Ptr) : M PUnit := do
  let s ← get
  liftTree (hTreeIterateHAncestors decNumTimesOpened (s.nodes.next + 1) node)

/-- `fat_tree_delete`, with the assignment of its result to `vol->file_tree`. -/
def fatTreeDelete (key : CString) : M PUnit := do
  let s ← get
  match s.fileTree with
  | some (some root) => do
      let root ←
        liftTree (hTreeDelete key fatFileCmpPath destroyFile (s.nodes.next + 1) (some root))
      modify fun s => { s with fileTree := some root }
  | some none => pure ⟨⟩
  | none => setErrno einval

/-- `fat_tree_flatten_h_children`; the result `none` is `NULL`, and the array has one slot more than
the directory has entries. -/
def fatTreeFlattenHChildren (dirNode : Ptr) : M (Option (List Nat)) := do
  match dirNode with
  | none => pure none
  | some r => do
      let size ← liftTree (hTreeSize (some r))
      if size = 0 then pure none
      else do
        let file ← readFile (← nonNull (← fatTreeGetFile (some r)))
        let elems ← liftTree (hTreeFlattenHChildren r (file.nentries + 1))
        pure (some elems)

end OsLabs.Fat
