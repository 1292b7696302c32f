import OsLabs.Fat.Session
import OsLabs.Fat.TableSearch

/-! # Creations that fail

`fat_fuse_mkdir` and `fat_fuse_mknod` give up cleanly as long as the file is not in the tree: no
directory to create in, or, for `fat_fuse_mkdir`, a number in use returned by the search for a free
cluster, or an entry of the table that could not be written. A failure of the last step, the write of
the directory entry, leaves the file in the tree and its cluster allocated
(`createFile_untouched_iff`). -/

namespace OsLabs.Fat

open Cmd

/-- Nothing that lasts has changed: the tree and its nodes, the files with their counters, the table
in memory, and the device. -/
structure Untouched (s u : State) : Prop where
  fileTree : u.fileTree = s.fileTree
  nodes : u.nodes = s.nodes
  files : ∀ a f, s.files.cell a = some f → u.files.cell a = some f
  table : u.table = s.table
  byte : ∀ i, u.dev.byte i = s.dev.byte i

/-- A node holds a directory with this path. -/
def DirectoryAt (s : State) (path : CString) : Prop :=
  ∃ q d, s.treeEntry q = some d ∧ d.path = path ∧ d.isDir = true

/-- There is no directory to create in, the number that the search for a free cluster returns is in use, or
nothing of the entry of the new cluster can be written. -/
def NothingDone (s : State) (path : CString) : Prop :=
  ¬ DirectoryAt s (dirname path) ∨ s.table.fatMap s.table.nextFree ≠ fatClusterFree ∨ s.nextCount 4 = 0

section Init

variable {s u : State} {env : Env} {isDir : Bool} {path : CString} {cluster : Nat}

/-- Building an entry takes a tick of the clock and changes nothing else. -/
theorem fatFileInitDirentry_state {entry : DirEntry}
    (hrun : fatFileInitDirentry env isDir path cluster s = .ok entry u) :
    u = { s with tick := u.tick } := by
  obtain ⟨after, t, hask, hnamed⟩ := bind_eq_ok.mp hrun
  have ht : t = { s with tick := s.tick + 1 } := by
    cases hask
    rfl
  cases hname : filenameFromPath (basename path) after DirEntry.zero with
  | error e =>
      rw [hname] at hnamed
      cases hnamed
  | ok fields =>
      rw [hname] at hnamed
      obtain ⟨now, v, htime, hrest⟩ := bind_eq_ok.mp hnamed
      obtain ⟨-, hv⟩ := EStateM.Result.ok.inj htime
      obtain ⟨-, hu⟩ := EStateM.Result.ok.inj hrest
      rw [← hu, ← hv, ht]

/-- The new file that is destroyed again leaves no trace. -/
theorem Untouched.fatFileDestroy {t : State} (h : Untouched s t)
    (hrun : fatFileDestroy s.files.next t = .ok ⟨⟩ u) : Untouched s u ∧ u.errno = t.errno := by
  rw [fatFileDestroy_ok hrun]
  refine ⟨⟨h.fileTree, h.nodes, fun a f hf => ?_, h.table, h.byte⟩, rfl⟩
  have hne : a ≠ s.files.next := Nat.ne_of_lt (Heap.lt_next hf)
  exact (Heap.cell_free_ne hne).trans (h.files a f hf)

/-- Without an error number, `fat_file_init` fails if and only if the number that the search returns is
in use or its entry of the table could not be written, and then leaves no trace. -/
theorem fatFileInit_cases {r : Ptr} (herrno : s.errno = 0)
    (hrun : fatFileInit env isDir path s = .ok r u) :
    ((s.table.fatMap s.table.nextFree ≠ fatClusterFree ∨ s.nextCount 4 = 0) ∧ r = none ∧
        u.errno ≠ 0 ∧ Untouched s u) ∨
      (s.table.fatMap s.table.nextFree = fatClusterFree ∧ s.nextCount 4 ≠ 0 ∧ u.errno = 0 ∧
        ∃ c, r = some c) := by
  unfold fatFileInit at hrun
  rw [bind_ok (fatFileInitEmpty_run path s)] at hrun
  -- The new file is a fresh cell, so no file that was there changes.
  obtain ⟨t, heq⟩ : ∃ t : State, t = { s with store := s.files.alloc (emptyFile path) } := ⟨_, rfl⟩
  have hzero : t.errno = 0 := by rw [heq, herrno]
  have hcell : t.files.cell s.files.next = some (emptyFile path) := by
    rw [heq]
    exact Heap.cell_alloc_next _ _
  have hst : Untouched s t := by
    rw [heq]
    refine ⟨rfl, rfl, fun a f hf => ?_, rfl, fun _ => rfl⟩
    exact (Heap.cell_alloc_ne (Nat.ne_of_lt (Heap.lt_next hf)) _).trans hf
  rw [← heq, bind_ok (show getErrno t = .ok t.errno t from rfl), hzero, if_neg (by decide)] at hrun
  obtain ⟨cluster, t₁, hfree, hchecked⟩ := bind_eq_ok.mp hrun
  obtain ⟨ht₁, hfound, hfirst⟩ := fatTableGetNextFreeCluster_ok hfree
  rw [ht₁] at hchecked
  obtain ⟨used, t₂, hused, hgoes⟩ := bind_eq_ok.mp hchecked
  obtain ⟨ht₂, hlt, hunused⟩ := fatTableIsClusterUsed_ok hused
  rw [ht₂] at hgoes
  rw [hst.table] at hfound hlt hunused
  rw [ite_run] at hgoes
  split at hgoes
  -- The scan fell on a cluster in use: the volume is full.
  · next hinUse =>
      left
      obtain ⟨⟨⟩, t₃, herror, hgoes⟩ := bind_eq_ok.mp hgoes
      cases herror
      obtain ⟨⟨⟩, t₄, hdestroy, hnone⟩ := bind_eq_ok.mp hgoes
      obtain ⟨hr, hu⟩ := EStateM.Result.ok.inj hnone
      have ht₃ : Untouched s { t with errno := enospc } :=
        ⟨hst.fileTree, hst.nodes, hst.files, hst.table, hst.byte⟩
      obtain ⟨huntouched, hkept⟩ := ht₃.fatFileDestroy hdestroy
      rw [← hu, ← hr, hfound]
      refine ⟨.inl (hunused.mp hinUse), rfl, ?_, huntouched⟩
      rw [hkept]
      show enospc ≠ 0
      decide
  -- The cluster is free, and `fat_file_init` goes on to mark it.
  next hnotUsed =>
  have hfree : s.table.fatMap s.table.nextFree = fatClusterFree := by
    rw [hfound]
    exact not_not.mp fun hne => hnotUsed (hunused.mpr hne)
  obtain ⟨entry, t₃, hentry, hmarked⟩ := bind_eq_ok.mp hgoes
  have hstate := fatFileInitDirentry_state hentry
  have hcell₃ : t₃.files.cell s.files.next = some (emptyFile path) := by
    rw [hstate]
    exact hcell
  rw [bind_ok (updateFile_run hcell₃ _)] at hmarked
  generalize hv : t₃.updated s.files.next _ = v at hmarked
  -- Up to the mark only the cell of the new file has changed.
  have hsv : Untouched s v := by
    rw [← hv]
    refine ⟨?_, ?_, fun a f hf => ?_, ?_, fun i => ?_⟩
    · show t₃.fileTree = s.fileTree
      rw [hstate]
      exact hst.fileTree
    · show t₃.nodes = s.nodes
      rw [hstate]
      exact hst.nodes
    · rw [State.cell_updated_ne (Nat.ne_of_lt (Heap.lt_next hf)), hstate]
      exact hst.files a f hf
    · show t₃.table = s.table
      rw [hstate]
      exact hst.table
    · show t₃.dev.byte i = s.dev.byte i
      rw [hstate]
      exact hst.byte i
  have hvzero : v.errno = 0 := by rw [← hv, ← hzero, hstate]; rfl
  have hvio : v.nextCount 4 = s.nextCount 4 := by
    rw [← hv, State.nextCount, State.nextCount, show s.io = t.io by rw [heq], hstate]
    rfl
  -- Whether the mark reaches the device decides the rest.
  by_cases hk : s.nextCount 4 = 0
  · left
    rw [bind_ok (fatTableSetNextCluster_unwritten (hvio.trans hk))] at hmarked
    generalize hw : ({ v.tableWritten cluster fatClusterEndOfChain with errno := eio } : State) = w
      at hmarked
    have hwerrno : w.errno = eio := by rw [← hw]
    rw [bind_ok (show getErrno w = .ok w.errno w from rfl), hwerrno, if_pos (by decide)] at hmarked
    obtain ⟨⟨⟩, w', hdestroy, hnone⟩ := bind_eq_ok.mp hmarked
    obtain ⟨hr, hu⟩ := EStateM.Result.ok.inj hnone
    -- Nothing was stored, neither in the mapped table nor on the device.
    have hsw : Untouched s w := by
      rw [← hw]
      refine ⟨hsv.fileTree, hsv.nodes, hsv.files, hsv.table, fun i => ?_⟩
      exact (byte_tableWritten_of_unwritten (hvio.trans hk) i).trans (hsv.byte i)
    obtain ⟨huntouched, hkept⟩ := hsw.fatFileDestroy hdestroy
    rw [← hu, ← hr]
    refine ⟨.inr hk, rfl, ?_, huntouched⟩
    rw [hkept, hwerrno]
    decide
  · right
    rw [← hvio] at hk
    rw [bind_ok (fatTableSetNextCluster_written hk (by rwa [hsv.table]))] at hmarked
    generalize hw : ({ v.tableWritten cluster fatClusterEndOfChain with
      table := v.table.setEntry cluster fatClusterEndOfChain } : State) = w at hmarked
    have hwzero : w.errno = 0 := by
      rw [← hw]
      exact hvzero
    rw [bind_ok (show getErrno w = .ok w.errno w from rfl), hwzero, if_neg (by decide)] at hmarked
    obtain ⟨hr, hu⟩ := EStateM.Result.ok.inj hmarked
    rw [← hu, ← hr]
    exact ⟨hfree, hvio ▸ hk, hwzero, _, rfl⟩

end Init

/-! ## The table behind the insertion -/

/-- The table in memory is the same. -/
def SameTable (s t : State) : Prop := t.table = s.table

instance : Std.Refl SameTable := ⟨fun _ => rfl⟩

instance : IsTrans State SameTable := ⟨fun _ _ _ hst htu => htu.trans hst⟩

section SameTable

/-- A change that keeps the FAT. -/
theorem sameTable_modify {f : State → State} (h : ∀ s, (f s).table = s.table) :
    Within SameTable (modify f : M PUnit) := within_modify h

/-- Changing a file keeps the FAT. -/
theorem sameTable_updateFile (file : Nat) (f : FatFile → FatFile) :
    Within SameTable (updateFile file f) :=
  (within_readFile file).bind fun _ => sameTable_modify fun _ => rfl

/-- Changing an entry keeps the FAT. -/
theorem sameTable_updateDentry (file : Nat) (f : DirEntry → DirEntry) :
    Within SameTable (updateDentry file f) :=
  (within_readDentry file).bind fun _ => sameTable_updateFile file _

/-- A device call keeps the FAT in memory. -/
theorem sameTable_pwrite (data : List UInt8) (offset : Nat) :
    Within SameTable (pwrite data offset) := by
  have hnext : Within SameTable nextIoResult := by
    refine within_get_bind fun s => ?_
    cases s.io with
    | nil => exact Std.Refl.refl s
    | cons r rest => exact rfl
  have hwrite (written : List UInt8) : Within SameTable (modify fun s : State =>
      { s with dev := s.dev.write offset data.length written }) := sameTable_modify fun _ => rfl
  refine hnext.bind fun r => ?_
  cases r with
  | full => exact (hwrite _).bind fun _ => within_pure _
  | short k => exact (hwrite _).bind fun _ => within_pure _
  | fail e =>
      refine (hwrite _).bind fun _ => ?_
      exact Within.bind (sameTable_modify fun _ => rfl) fun _ => within_pure _

/-- `write_dir_entry` keeps the FAT in memory. -/
theorem sameTable_writeDirEntry (parent : Ptr) (entry : DirEntry) (nentry : Nat) :
    Within SameTable (writeDirEntry parent entry nentry) := by
  refine (within_nonNull parent).bind fun p => (within_readFile p).bind fun y => ?_
  refine within_get.bind fun s => within_ite (fun _ => sameTable_modify fun _ => rfl) fun _ => ?_
  exact (sameTable_pwrite _ _).bind fun _ => within_when fun _ => sameTable_modify fun _ => rfl

/-- Adding a child to a directory keeps the FAT in memory. -/
theorem sameTable_fatFileDentryAddChild (parent child : Ptr) :
    Within SameTable (fatFileDentryAddChild parent child) := by
  refine (within_nonNull parent).bind fun p => (within_readFile p).bind fun y => ?_
  refine (within_nonNull child).bind fun c => (within_readFile c).bind fun x => ?_
  refine (within_when fun _ => sameTable_updateDentry c _).bind fun _ => ?_
  refine (within_readDentry c).bind fun d => (sameTable_writeDirEntry _ _ _).bind fun _ => ?_
  refine within_getErrno.bind fun errno => within_when fun _ => ?_
  refine (sameTable_updateFile c _).bind fun _ => (within_nonNull parent).bind fun p => ?_
  exact sameTable_updateFile p _

end SameTable

/-! ## Failed creations -/

section Create

variable {s u : State} {env : Env} {isDir : Bool} {path : CString} {r : Int}

/-- A creation either finds no directory and only sets the error number, or goes on to
`fat_file_init`. -/
theorem createFile_split {GivesUp : Int → Prop} [DecidablePred GivesUp] (hwf : s.TreeWf)
    (hrun : createFile env isDir GivesUp path s = .ok r u) :
    (¬ DirectoryAt s (dirname path) ∧ ∃ e, u = { s with errno := e }) ∨
      ∃ q d newFile t, s.treeEntry q = some d ∧ d.path = dirname path ∧ d.isDir = true ∧
        fatFileInit env isDir path { s with errno := 0 } = .ok newFile t ∧
        (if GivesUp t.errno then returnErrno
          else do
            fatTreeInsert (some q) newFile
            fatFileDentryAddChild (some d.file) newFile
            returnErrno) t = .ok r u := by
  have hk : KeepsEntries s { s with errno := 0 } := keepsEntries_of_eq rfl rfl rfl
  obtain ⟨p, tr, hok⟩ := hk.treeWf hwf
  unfold createFile at hrun
  rw [bind_ok (show setErrno 0 s = .ok ⟨⟩ { s with errno := 0 } from rfl)] at hrun
  obtain ⟨node, s₁, hsearch, hfound⟩ := bind_eq_ok.mp hrun
  obtain ⟨rfl, hsome, hnone⟩ := fatTreeNodeSearch_ok hok hsearch
  cases node with
  | none =>
      left
      refine ⟨fun ⟨q, d, hd, hpath, _⟩ => hnone.mp rfl ⟨q, d, hd, hpath⟩, enoent, ?_⟩
      obtain ⟨⟨⟩, s₂, hset, hret⟩ := bind_eq_ok.mp hfound
      cases hset
      cases hret
      rfl
  | some q =>
      obtain ⟨d, hd, hpath⟩ := (hsome q).mp rfl
      simp only [bind_ok (fatTreeGetFile_run hd), bind_ok (fatFileIsDirectory_entry hd), ite_run]
        at hfound
      split at hfound
      · next hnot =>
          left
          refine ⟨?_, enotdir, ?_⟩
          · -- a path has one node
            rintro ⟨q', d', hd', hpath', hdir⟩
            have heq : some q = some q' := (hsome q').mpr ⟨d', hd', hpath'⟩
            cases heq
            rw [show s.treeEntry q = some d from hd] at hd'
            cases hd'
            rw [hdir] at hnot
            exact absurd hnot (by decide)
          · obtain ⟨⟨⟩, s₂, hset, hret⟩ := bind_eq_ok.mp hfound
            cases hset
            cases hret
            rfl
      · next hdir =>
          right
          obtain ⟨newFile, t, hinit, hrest⟩ := bind_eq_ok.mp hfound
          exact ⟨q, d, newFile, t, hd, hpath, by simpa using hdir, hinit, hrest⟩

/-- A creation leaves the volume untouched just if it came to nothing before its first write. -/
theorem createFile_untouched_iff {GivesUp : Int → Prop} [DecidablePred GivesUp]
    (hgives : ¬ GivesUp 0) (hwf : s.TreeWf)
    (hrun : createFile env isDir GivesUp path s = .ok r u) :
    Untouched s u ↔ NothingDone s path := by
  obtain ⟨hmissing, e, rfl⟩ | ⟨q, d, newFile, t, hd, hpath, hdir, hinit, hrest⟩ :=
    createFile_split hwf hrun
  · exact iff_of_true ⟨rfl, rfl, fun _ _ hf => hf, rfl, fun _ => rfl⟩ (.inl hmissing)
  have hat : DirectoryAt s (dirname path) := ⟨q, d, hd, hpath, hdir⟩
  obtain ⟨hk, rfl, herrno, huntouched⟩ | ⟨hfree, hk, herrno, c, rfl⟩ :=
    fatFileInit_cases (s := { s with errno := 0 }) rfl hinit
  · refine iff_of_true ?_ (.inr hk)
    split at hrest
    · obtain ⟨-, rfl⟩ := EStateM.Result.ok.inj hrest
      exact ⟨huntouched.fileTree, huntouched.nodes, huntouched.files, huntouched.table,
        huntouched.byte⟩
    · -- without a file, the null pointer is read
      obtain ⟨⟨⟩, v, -, hadd⟩ := bind_eq_ok.mp hrest
      obtain ⟨⟨⟩, w, hchild, -⟩ := bind_eq_ok.mp hadd
      obtain ⟨y, -, hchild⟩ := nonNull_bind_eq_ok hchild
      obtain ⟨x, -, hchild⟩ := readFile_bind_eq_ok hchild
      obtain ⟨c, hc, -⟩ := nonNull_bind_eq_ok hchild
      cases hc
  · refine iff_of_false (fun h => ?_) (not_or.mpr ⟨not_not.mpr hat, not_or.mpr ⟨not_not.mpr hfree, hk⟩⟩)
    rw [herrno, if_neg hgives] at hrest
    -- the cluster of the new file is in use
    have hk₀ : KeepsEntries s { s with errno := 0 } := keepsEntries_of_eq rfl rfl rfl
    obtain ⟨cluster, entry, hinitial⟩ := fatFileInit_run (s := { s with errno := 0 }) hinit
    obtain ⟨hkeeps, hnew⟩ := fatFileInit_ok hinit
    have hw := (hnew c rfl).waiting hkeeps (hk₀.treeWf hwf)
    obtain ⟨p, tr, hok⟩ := (hk₀.trans hkeeps).treeWf hwf
    obtain ⟨⟨⟩, v, hinsert, hadd⟩ := bind_eq_ok.mp hrest
    obtain ⟨⟨⟩, w, hchild, hret⟩ := bind_eq_ok.mp hadd
    obtain ⟨-, rfl⟩ := EStateM.Result.ok.inj hret
    obtain ⟨⟨nodes, root, hv⟩, -⟩ := fatTreeInsert_ok hok hinitial.cell rfl hw.outside hinsert
    have hsame : s.table.setEntry cluster fatClusterEndOfChain = s.table := by
      calc s.table.setEntry cluster fatClusterEndOfChain
        _ = t.table := hinitial.table.symm
        _ = v.table := by rw [hv]
        _ = w.table := ((sameTable_fatFileDentryAddChild _ _).ok hchild).symm
        _ = s.table := h.table
    have hfree := hinitial.free
    rw [← hsame, FatTable.fatMap_setEntry, if_pos rfl] at hfree
    exact absurd hfree (by decide)

/-- **Failed creations.** A creation that fails changes nothing that lasts, and leaves the volume with its
tree, if and only if it stopped before the file was put into the tree. -/
theorem failedCreation_untouched_iff (hwf : s.TreeWf)
    (hrun : fatFuseMkdir env path s = .ok r u ∨ fatFuseMknod env path s = .ok r u) (_ : r < 0) :
    (Untouched s u ∧ u.fileTree.isSome = true) ↔ NothingDone s path := by
  have hiff : Untouched s u ↔ NothingDone s path := by
    rcases hrun with hmkdir | hmknod
    · rw [fatFuseMkdir_eq] at hmkdir
      exact createFile_untouched_iff (by decide) hwf hmkdir
    · rw [fatFuseMknod_eq] at hmknod
      exact createFile_untouched_iff (by decide) hwf hmknod
  rw [← hiff]
  refine ⟨And.left, fun h => ⟨h, ?_⟩⟩
  obtain ⟨p, t, hok⟩ := hwf
  rw [h.fileTree, hok.root]
  rfl

end Create

/-- The small volume just mounted, with these results of the device calls to come. -/
def freshVolumeWith (io : List IoResult) : State := { freshVolume with io := io }

/-- The fresh volume has a well-formed tree, whatever the device will answer. -/
theorem freshVolumeWith_treeWf (io : List IoResult) : (freshVolumeWith io).TreeWf := by
  have hk : KeepsEntries freshVolume (freshVolumeWith io) := keepsEntries_of_eq rfl rfl rfl
  exact hk.treeWf freshSession_mounted.treeWf

/-- The entry of the table cannot be written. -/
theorem failedCreation_untouched_iff_freshVolume :
    ∃ u, fatFuseMkdir quietEnv dirPath (freshVolumeWith [.fail 4]) = .ok (-5) u ∧
      ((Untouched (freshVolumeWith [.fail 4]) u ∧ u.fileTree.isSome = true) ↔
        NothingDone (freshVolumeWith [.fail 4]) dirPath) := by
  obtain ⟨u, hrun⟩ := ret?_eq_some (by decide +kernel :
    ret? (fatFuseMkdir quietEnv dirPath (freshVolumeWith [.fail 4])) = some (-5))
  exact ⟨u, hrun, failedCreation_untouched_iff (freshVolumeWith_treeWf _) (.inl hrun) (by decide)⟩

/-- The entry of the directory cannot be written: the new file stays in the tree, and its cluster in
use. -/
theorem not_forall_failedCreation_untouched :
    ¬ ∀ (s u : State) (env : Env) (path : CString) (r : Int), s.TreeWf →
      (fatFuseMkdir env path s = .ok r u ∨ fatFuseMknod env path s = .ok r u) → r < 0 →
      Untouched s u ∧ u.fileTree.isSome = true := by
  intro hall
  have hends : ret? (fatFuseMknod quietEnv dirPath (freshVolumeWith [.full, .fail 4])) = some (-5) ∧
      (final (fatFuseMknod quietEnv dirPath (freshVolumeWith [.full, .fail 4]))).table.fatMap 4 =
        fatClusterEndOfChain := by decide +kernel
  obtain ⟨hret, hused⟩ := hends
  obtain ⟨u, hrun⟩ := ret?_eq_some hret
  obtain ⟨huntouched, -⟩ := hall _ u quietEnv dirPath (-5) (freshVolumeWith_treeWf _) (.inr hrun)
    (by decide)
  rw [hrun] at hused
  have hsame : u.table = smallTable := huntouched.table
  rw [show final (.ok (-5) u : EStateM.Result Fault State Int) = u from rfl, hsame] at hused
  exact absurd hused (by decide)

end OsLabs.Fat
