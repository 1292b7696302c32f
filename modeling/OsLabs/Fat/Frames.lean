import OsLabs.Fat.LookupSpec

/-! # Frames of the file commands

A `DataFrame` is a relation between states that the commands on files, on the table and on the device
stay within: it permits device calls, changes of the error number, of table entries and of files,
and new files. The path, the open count and the directory flag of a file are the exception: no such
command changes them. -/

namespace OsLabs.Fat

open Cmd

/-- A file before and after an update that keeps its path and its open count, and its directory entry
with its directory flag, if it has one. -/
structure KeepsFile (x y : FatFile) : Prop where
  filepath : y.filepath = x.filepath
  opened : y.numTimesOpened = x.numTimesOpened
  dentry : x.dentry.isSome = true → y.dentry.isSome = true ∧ y.isDir = x.isDir

/-- A frame of the commands on files. -/
class DataFrame (R : State → State → Prop) : Prop extends Std.Refl R, IsTrans State R where
  lookedUp : ∀ s u, LookedUp s u → R s u
  io : ∀ s rest, R s { s with io := rest }
  write : ∀ s offset count data, R s { s with dev := s.dev.write offset count data }
  entry : ∀ s c v, R s { s with table := s.table.setEntry c v }
  file : ∀ s file x f, s.files.cell file = some x → KeepsFile x (f x) → R s (s.updated file f)
  alloc : ∀ s f, R s { s with store := s.files.alloc f }

/-- A frame of the commands that only read the device: it permits device calls, and changes of the
error number. -/
class ReadFrame (R : State → State → Prop) : Prop extends Std.Refl R, IsTrans State R where
  lookedUp : ∀ s u, LookedUp s u → R s u
  io : ∀ s rest, R s { s with io := rest }

instance (R : State → State → Prop) [DataFrame R] : ReadFrame R where
  lookedUp := DataFrame.lookedUp
  io := DataFrame.io

/-! ## Device calls -/

section Reads

variable {R : State → State → Prop} [ReadFrame R]

/-- Lookups stay within every frame. -/
theorem lookup_within {γ : Type} {m : M γ} (h : Within LookedUp m) : Within R m :=
  h.mono ReadFrame.lookedUp

/-- Every frame of this module allows another error number. -/
theorem setErrno_within (e : Int) : Within R (setErrno e) := lookup_within (within_setErrno e)

/-- Every frame of this module allows the clock to go on. -/
theorem ask_within {γ : Type} (answer : Nat → γ) : Within R (ask answer) :=
  lookup_within (within_ask answer)

/-- Each call of the device takes one result off the list. -/
theorem within_nextIoResult : Within R nextIoResult := by
  refine within_get_bind fun s => ?_
  cases s.io with
  | nil => exact Std.Refl.refl s
  | cons r rest => exact ReadFrame.io s rest

/-- `pread` takes one result, and may set the error number. -/
theorem within_pread (count offset : Nat) : Within R (pread count offset) := by
  refine within_nextIoResult.bind fun r => ?_
  cases r with
  | full => exact within_get.bind fun _ => within_pure _
  | short k => exact within_get.bind fun _ => within_pure _
  | fail e => exact (setErrno_within _).bind fun _ => within_pure _

/-- At a negative offset `pread` only sets the error number. -/
theorem within_preadAt (count : Nat) (offset : Int) : Within R (preadAt count offset) :=
  within_ite (fun _ => (setErrno_within _).bind fun _ => within_pure _) fun _ => within_pread _ _

/-- Every round of `full_pread` is one call, so the frame passes through the loop by induction. -/
theorem within_fullPreadLoop (fuel : Nat) (mem : Int → UInt8) (n pos offset : Int) :
    Within R (fullPreadLoop fuel mem n pos offset) := by
  induction fuel generalizing mem n pos offset with
  | zero => exact within_throw _
  | succ fuel ih =>
      refine within_ite (fun _ => within_pure _) fun _ => (within_preadAt _ _).bind fun r => ?_
      cases r with
      | none =>
          refine within_getErrno.bind fun errno => within_ite (fun _ => ih _ _ _ _) fun _ => ?_
          exact within_pure _
      | some data =>
          refine within_ite (fun _ => ?_) fun _ => ih _ _ _ _
          exact (setErrno_within _).bind fun _ => within_pure _

/-- `full_pread` only takes results and sets the error number. -/
theorem within_fullPread (mem : Int → UInt8) (count : Nat) (offset : Int) :
    Within R (fullPread mem count offset) :=
  within_get_bind fun s => ((within_fullPreadLoop _ mem _ _ _).bind fun _ => within_pure _) s

end Reads

section Commands

variable {R : State → State → Prop} [DataFrame R]

/-- `pwrite` changes the device and takes one result. -/
theorem within_pwrite (data : List UInt8) (offset : Nat) : Within R (pwrite data offset) := by
  refine within_nextIoResult.bind fun r => ?_
  cases r with
  | full => exact (within_modify fun s => DataFrame.write s _ _ _).bind fun _ => within_pure _
  | short k => exact (within_modify fun s => DataFrame.write s _ _ _).bind fun _ => within_pure _
  | fail e =>
      refine (within_modify fun s => DataFrame.write s _ _ _).bind fun _ => ?_
      exact (setErrno_within _).bind fun _ => within_pure _

/-- At a negative offset `pwrite` only sets the error number. -/
theorem within_pwriteAt (data : List UInt8) (offset : Int) : Within R (pwriteAt data offset) :=
  within_ite (fun _ => (setErrno_within _).bind fun _ => within_pure _) fun _ => within_pwrite _ _

/-- Every round of `full_pwrite` is one call, so the frame passes through the loop by induction. -/
theorem within_fullPwriteLoop (mem : Int → UInt8) (fuel : Nat) (n pos offset : Int) :
    Within R (fullPwriteLoop mem fuel n pos offset) := by
  induction fuel generalizing n pos offset with
  | zero => exact within_throw _
  | succ fuel ih =>
      refine within_ite (fun _ => within_pure _) fun _ => ?_
      refine (within_pwriteAt _ _).bind fun r => within_ite (fun _ => ?_) fun _ => ?_
      · exact (setErrno_within _).bind fun _ => within_pure _
      · refine within_ite (fun _ => within_getErrno.bind fun errno => ?_) fun _ => ih _ _ _
        exact within_ite (fun _ => ih _ _ _) fun _ => within_pure _

/-- `full_pwrite` changes no more than its calls do. -/
theorem within_fullPwrite (mem : Int → UInt8) (count : Nat) (offset : Int) :
    Within R (fullPwrite mem count offset) :=
  within_get_bind fun s => ((within_fullPwriteLoop mem _ _ _ _).bind fun _ => within_pure _) s

/-! ## The table -/

/-- Reading an entry of the FAT changes nothing. -/
theorem within_readEntry (c : Nat) : Within R (readEntry c) :=
  within_get_bind fun s => (within_ite (fun _ => within_pure _) fun _ => within_throw _) s

/-- `fat_table_get_next_cluster` reads one entry. -/
theorem within_fatTableGetNextCluster (c : Nat) : Within R (fatTableGetNextCluster c) :=
  (within_readEntry c).bind fun _ => within_get.bind fun _ => within_pure _

/-- The search for a free cluster only reads entries. -/
theorem within_fatTableGetNextFreeCluster : Within R fatTableGetNextFreeCluster := by
  refine within_get_bind fun s => ?_
  cases scanFree s.table (s.table.fatLen - 2) 2 with
  | error e => exact Std.Refl.refl s
  | ok c => exact within_ite (fun _ => within_pure _) (fun _ => within_pure _) s

/-- `fat_table_is_cluster_used` reads one entry. -/
theorem within_fatTableIsClusterUsed (c : Nat) : Within R (fatTableIsClusterUsed c) :=
  (within_readEntry c).bind fun _ => within_pure _

/-- `fat_table_set_next_cluster` writes an entry on the device and in memory, which the frame
allows. -/
theorem within_fatTableSetNextCluster (c d : Nat) : Within R (fatTableSetNextCluster c d) := by
  refine within_get.bind fun s => (within_pwrite _ _).bind fun written => ?_
  refine within_ite (fun _ => setErrno_within _) fun _ => (within_readEntry _).bind fun _ => ?_
  exact within_modify fun s => DataFrame.entry s c d

/-- The rounds of `fat_table_seek_cluster` read entries and set the error number. -/
theorem within_seekFrom (n c : Nat) : Within R (seekFrom n c) := by
  induction n generalizing c with
  | zero => exact within_pure _
  | succ n ih =>
      refine within_ite (fun _ => (setErrno_within _).bind fun _ => within_pure _) fun _ => ?_
      exact (within_fatTableGetNextCluster c).bind fun d => ih d

/-- `fat_table_seek_cluster` changes nothing but the error number. -/
theorem within_fatTableSeekCluster (c offset : Nat) : Within R (fatTableSeekCluster c offset) :=
  within_get_bind fun s => within_seekFrom _ c s

/-- Each round of giving back a chain reads an entry and sets it. -/
theorem within_freeChainFrom (fuel c : Nat) : Within R (freeChainFrom fuel c) := by
  induction fuel generalizing c with
  | zero => exact within_throw _
  | succ fuel ih =>
      refine within_ite (fun _ => within_pure _) fun _ => ?_
      refine (within_fatTableGetNextCluster c).bind fun next => ?_
      exact (within_fatTableSetNextCluster c _).bind fun _ => ih next

/-- Giving back a chain changes only the FAT and the device. -/
theorem within_freeChain (c : Nat) : Within R (freeChain c) :=
  within_get_bind fun s => within_freeChainFrom _ c s

/-! ## Files -/

/-- A file may be changed in what the frame does not look at. -/
theorem within_updateFile (file : Nat) {f : FatFile → FatFile} (hf : ∀ x, KeepsFile x (f x)) :
    Within R (updateFile file f) := by
  intro s
  cases hx : s.files.cell file with
  | none =>
      unfold updateFile
      rw [bind_error (readFile_error hx)]
      exact Std.Refl.refl s
  | some x =>
      rw [updateFile_run hx]
      exact DataFrame.file s file x f hx (hf x)

/-- An entry with other attributes may be a directory no longer. -/
theorem keepsFile_dentry {x : FatFile} {d d' : DirEntry} (hd : x.dentry = some d)
    (hattr : d'.attribs = d.attribs) : KeepsFile x { x with dentry := some d' } := by
  refine ⟨rfl, rfl, fun _ => ⟨rfl, ?_⟩⟩
  rw [FatFile.isDir_eq hd, FatFile.isDir_eq rfl, decide_eq_decide, DirEntry.IsDirectory,
    DirEntry.IsDirectory, hattr]

/-- The entry of a file may be changed as long as its attributes stay. -/
theorem within_updateDentry (file : Nat) {g : DirEntry → DirEntry} (hg : ∀ d, (g d).attribs = d.attribs) :
    Within R (updateDentry file g) := by
  intro s
  cases hd : readDentry file s with
  | error e t =>
      have hread := within_readDentry (R := R) file s
      unfold updateDentry
      rw [hd] at hread
      rw [bind_error hd]
      exact hread
  | ok d t =>
      obtain ⟨rfl, x, hx, hxd⟩ := readDentry_eq_ok hd
      rw [updateDentry_run hx hxd]
      exact DataFrame.file _ file x _ hx (keepsFile_dentry hxd (hg d))

/-- Stamping the time keeps the attributes, so the frame allows it. -/
theorem within_fillDentryTimeNow (env : Env) (file : Nat) (fillCreate fillModified : Bool) :
    Within R (fillDentryTimeNow env file fillCreate fillModified) :=
  (ask_within _).bind fun _ => within_updateDentry _ fun _ => DirEntry.attribs_fillDentryTime _ _ _ _

/-- `write_dir_entry` writes one slot of a directory on the device. -/
theorem within_writeDirEntry (parent : Ptr) (entry : DirEntry) (n : Nat) :
    Within R (writeDirEntry parent entry n) := by
  refine (within_nonNull parent).bind fun _ => (within_readFile _).bind fun y =>
    within_get.bind fun s => within_ite (fun _ => setErrno_within _) fun _ => ?_
  exact (within_pwrite _ _).bind fun _ => within_when fun _ => setErrno_within _

/-- Rewriting the entry of a file in its directory. -/
theorem within_rewriteEntry (file : Nat) (parent : Ptr) : Within R (do
    let f ← readFile file
    let entry ← readDentry file
    writeDirEntry parent entry f.posInParent) :=
  (within_readFile file).bind fun _ => (within_readDentry file).bind fun _ =>
    within_writeDirEntry _ _ _

/-- `fat_utime` changes the dates of an entry and writes it. -/
theorem within_fatUtime (file : Nat) (parent : Ptr) (actime modtime : Int) :
    Within R (fatUtime file parent actime modtime) :=
  (within_updateDentry _ fun _ => by
    simp [DirEntry.attribs, DirEntry.setLastAccessDate, DirEntry.setLastModifiedDate,
      DirEntry.setLastModifiedTime]).bind fun _ => within_rewriteEntry file parent

/-- Marking an entry as deleted rewrites its name and its attributes stay. -/
theorem within_fatFileDentryRemoveChild (parent : Ptr) (child : Nat) :
    Within R (fatFileDentryRemoveChild parent child) :=
  (within_updateDentry _ fun _ => by simp [DirEntry.attribs, DirEntry.setBaseName0]).bind fun _ =>
    within_rewriteEntry child parent

/-- A file that keeps its path, its open count and its entry. -/
theorem within_updateFile_of_eq (file : Nat) {f : FatFile → FatFile}
    (hf : ∀ x, (f x).filepath = x.filepath ∧ (f x).numTimesOpened = x.numTimesOpened ∧
      (f x).dentry = x.dentry) : Within R (updateFile file f) := by
  refine within_updateFile file fun x => ?_
  obtain ⟨hpath, hopened, hd⟩ := hf x
  exact ⟨hpath, hopened, fun h => ⟨by rw [hd, h], by rw [FatFile.isDir, FatFile.isDir, hd]⟩⟩

/-- What `fat_file_dentry_add_child` does once the entry of the child is final. -/
theorem within_storeChild (parent : Ptr) (child nentries : Nat) : Within R (do
    let entry ← readDentry child
    writeDirEntry parent entry nentries
    let errno ← getErrno
    Cmd.when (errno = 0) (do
      updateFile child fun f => { f with posInParent := nentries }
      let p ← nonNull parent
      updateFile p fun f => { f with nentries := (f.nentries + 1) % 2 ^ 32 })) := by
  refine (within_readDentry child).bind fun d => (within_writeDirEntry _ _ _).bind fun _ => ?_
  refine within_getErrno.bind fun errno => within_when fun _ => ?_
  refine Within.bind (R := R) (within_updateFile_of_eq child fun _ => ⟨rfl, rfl, rfl⟩) fun _ => ?_
  exact (within_nonNull _).bind fun _ => within_updateFile_of_eq _ fun _ => ⟨rfl, rfl, rfl⟩

/-- The attributes that `getattr` reports are read, never written. -/
theorem within_fatFileToStbuf (env : Env) (file : Ptr) : Within R (fatFileToStbuf env file) :=
  (within_fatFileIsDirectory file).bind fun _ => (within_nonNull file).bind fun r =>
    (within_readDentry r).bind fun _ => within_get.bind fun _ => within_pure _

/-! ## Contents -/

/-- Every round of reading goes through `full_pread` and the FAT, by induction on the rounds. -/
theorem within_preadLoop (fuel : Nat) (mem : Int → UInt8) (pos n offset c : Nat) :
    Within R (preadLoop fuel mem pos n offset c) := by
  induction fuel generalizing mem pos n offset c with
  | zero => exact within_throw _
  | succ fuel ih =>
      refine within_ite (fun _ => within_pure _) fun _ => within_ite (fun _ => within_pure _) fun _ => ?_
      refine within_get.bind fun s => (within_fullPread _ _ _).bind fun r => ?_
      refine within_ite (fun _ => within_pure _) fun _ => ?_
      exact (within_fatTableGetNextCluster c).bind fun next => ih _ _ _ _ _

/-- `fat_file_pread` reads and stamps the time of the access. -/
theorem within_fatFilePread (env : Env) (file : Nat) (mem : Int → UInt8) (size offset : Nat)
    (parent : Ptr) : Within R (fatFilePread env file mem size offset parent) := by
  refine (within_readDentry file).bind fun d => within_ite (fun _ => ?_) fun _ => ?_
  · exact (setErrno_within _).bind fun _ => within_pure _
  · refine within_ite (fun _ => within_pure _) fun _ => (within_readFile file).bind fun x => ?_
    refine (within_fatTableSeekCluster _ _).bind fun c => within_getErrno.bind fun errno => ?_
    refine within_ite (fun _ => within_pure _) fun _ => (within_preadLoop _ _ _ _ _ _).bind fun r => ?_
    refine (within_fillDentryTimeNow _ _ _ _).bind fun _ => (within_readFile file).bind fun y => ?_
    exact (within_readDentry file).bind fun _ => (within_writeDirEntry _ _ _).bind fun _ =>
      within_pure _

/-- Every round of writing goes through `full_pwrite` and the FAT, by induction on the rounds. -/
theorem within_pwriteLoop (mem : Int → UInt8) (fuel pos n offset c : Nat) :
    Within R (pwriteLoop mem fuel pos n offset c) := by
  induction fuel generalizing pos n offset c with
  | zero => exact within_throw _
  | succ fuel ih =>
      refine within_ite (fun _ => within_pure _) fun _ => within_get.bind fun s => ?_
      refine (within_fullPwrite _ _ _).bind fun r => within_ite (fun _ => within_pure _) fun _ => ?_
      refine within_ite (fun _ => within_pure _) fun _ => ?_
      refine (within_fatTableGetNextCluster _).bind fun next => within_ite (fun _ => ?_) fun _ => ?_
      · refine within_fatTableGetNextFreeCluster.bind fun free =>
          (within_fatTableSetNextCluster _ _).bind fun _ => within_getErrno.bind fun errno => ?_
        exact within_ite (fun _ => within_pure _) fun _ => ih _ _ _ _
      · refine within_getErrno.bind fun errno => ?_
        exact within_ite (fun _ => within_pure _) fun _ => ih _ _ _ _

/-- The cluster allocated ahead costs two entries of the FAT. -/
theorem within_allocAfterLast (c : Nat) : Within R (allocAfterLast c) := by
  refine (within_fatTableGetNextCluster c).bind fun next => within_when fun _ => ?_
  exact within_fatTableGetNextFreeCluster.bind fun free =>
    (within_fatTableSetNextCluster _ _).bind fun _ => within_fatTableSetNextCluster _ _

/-- What `fat_file_pwrite` does after its loop. -/
theorem within_pwriteEnd (env : Env) (file : Nat) (parent : Ptr) (p : Prop) [Decidable p]
    {g : DirEntry → DirEntry} (hg : ∀ d, (g d).attribs = d.attribs) (ret : Int) : Within R (do
      Cmd.when p (updateDentry file g)
      fillDentryTimeNow env file false true
      let f ← readFile file
      let entry ← readDentry file
      writeDirEntry parent entry f.posInParent
      pure ret) := by
  refine Within.bind (R := R) (within_when fun _ => within_updateDentry _ hg) fun _ => ?_
  refine (within_fillDentryTimeNow _ _ _ _).bind fun _ => (within_readFile file).bind fun y => ?_
  exact (within_readDentry file).bind fun _ => (within_writeDirEntry _ _ _).bind fun _ => within_pure _

/-- `fat_file_pwrite` changes the FAT, the device and the size and dates of the file. -/
theorem within_fatFilePwrite (env : Env) (file : Nat) (buf : List UInt8) (offset : Nat)
    (parent : Ptr) : Within R (fatFilePwrite env file buf offset parent) := by
  refine (within_readDentry file).bind fun d => within_ite (fun _ => ?_) fun _ => ?_
  · exact (setErrno_within _).bind fun _ => within_pure _
  · refine (within_readFile file).bind fun x => (within_fatTableSeekCluster _ _).bind fun c => ?_
    refine within_getErrno.bind fun errno => within_ite (fun _ => within_pure _) fun _ => ?_
    refine (within_allocAfterLast c).bind fun _ => (within_pwriteLoop _ _ _ _ _ _).bind fun r => ?_
    exact within_pwriteEnd _ _ _ _ (fun _ => DirEntry.attribs_setFileSize _ _) _

/-- `fat_file_truncate` changes the FAT, the device and the size and dates of the file. -/
theorem within_fatFileTruncate (env : Env) (file offset : Nat) (parent : Ptr) :
    Within R (fatFileTruncate env file offset parent) := by
  refine (within_readDentry file).bind fun d => within_get.bind fun s => ?_
  refine within_ite (fun _ => within_pure _) fun _ => (within_readFile file).bind fun x => ?_
  refine (within_fatTableSeekCluster _ _).bind fun last => within_getErrno.bind fun errno => ?_
  refine within_ite (fun _ => within_pure _) fun _ => ?_
  refine (within_fatTableGetNextCluster _).bind fun next => ?_
  refine (within_fatTableSetNextCluster _ _).bind fun _ => within_getErrno.bind fun errno => ?_
  refine within_ite (fun _ => within_pure _) fun _ => (within_freeChain _).bind fun _ => ?_
  refine (within_updateDentry _ fun _ => DirEntry.attribs_setFileSize _ _).bind fun _ => ?_
  exact (within_fillDentryTimeNow _ _ _ _).bind fun _ => within_rewriteEntry file parent

/-! ## Names -/

/-- Building the fields of a new entry asks the clock and changes nothing. -/
theorem within_fatFileInitDirentry (env : Env) (isDir : Bool) (filepath : CString) (c : Nat) :
    Within R (fatFileInitDirentry env isDir filepath c) :=
  lookup_within (within_initDirentry env isDir filepath c)

/-! ## Operations on data and attributes -/

/-- `-errno` is only read. -/
theorem within_returnErrno : Within R returnErrno := within_getErrno.bind fun _ => within_pure _

/-- Logging changes what a write to the log changes. -/
theorem within_fatFuseLogActivity (env : Env) (operationType : CString) (target : Ptr) :
    Within R (fatFuseLogActivity env operationType target) := by
  refine (ask_within _).bind fun now => (within_nonNull target).bind fun r =>
    (within_readFile r).bind fun x => within_ite (fun _ => within_throw _) fun _ => ?_
  refine (lookup_within (within_fatTreeNodeSearch _)).bind fun node => ?_
  refine (lookup_within (within_fatTreeGetFile node)).bind fun file => ?_
  refine (lookup_within (within_fatTreeGetParent node)).bind fun parent => ?_
  refine (within_nonNull file).bind fun log => (within_readDentry log).bind fun d => ?_
  exact (within_fatFilePwrite _ _ _ _ _).bind fun _ => within_pure _

/-- `fat_tree_search` is a lookup. -/
theorem within_fatTreeSearch (key : CString) : Within R (fatTreeSearch key) := by
  refine within_get_bind fun s => ?_
  cases s.fileTree with
  | none => exact Std.Refl.refl s
  | some root =>
      cases root with
      | none => exact Std.Refl.refl s
      | some r =>
          exact ((lookup_within (within_fatTreeNodeSearch key)).bind fun node =>
            lookup_within (within_fatTreeGetFile node) : Within R _) s

/-- `fat_fuse_getattr` is a lookup and a reading of attributes. -/
theorem within_fatFuseGetattr (env : Env) (path : CString) : Within R (fatFuseGetattr env path) := by
  refine (within_fatTreeSearch path).bind fun file => ?_
  cases file with
  | none => exact (setErrno_within _).bind fun _ => within_returnErrno.bind fun _ => within_pure _
  | some r => exact (within_fatFileToStbuf _ _).bind fun _ => within_pure _

/-- `fat_fuse_fgetattr` reads the attributes of the file behind the handle. -/
theorem within_fatFuseFgetattr (env : Env) (fh : Ptr) : Within R (fatFuseFgetattr env fh) :=
  (lookup_within (within_fatTreeGetFile fh)).bind fun _ =>
    (within_fatFileToStbuf _ _).bind fun _ => within_pure _

/-- `fat_fuse_read` reads the file and then writes a line to the log. -/
theorem within_fatFuseRead (env : Env) (fh : Ptr) (mem : Int → UInt8) (size offset : Nat) :
    Within R (fatFuseRead env fh mem size offset) := by
  refine (setErrno_within 0).bind fun _ => (lookup_within (within_fatTreeGetFile fh)).bind fun file => ?_
  refine (lookup_within (within_fatTreeGetParent fh)).bind fun parent => ?_
  refine (within_nonNull file).bind fun r => (within_fatFilePread _ _ _ _ _ _).bind fun p => ?_
  refine within_getErrno.bind fun errno => within_ite (fun _ => ?_) fun _ => ?_
  · exact within_returnErrno.bind fun _ => within_pure _
  · exact (within_fatFuseLogActivity _ _ _).bind fun _ => within_pure _

/-- `fat_fuse_write` writes a line to the log and then the file. -/
theorem within_fatFuseWrite (env : Env) (fh : Ptr) (buf : List UInt8) (offset : Nat) :
    Within R (fatFuseWrite env fh buf offset) := by
  refine (lookup_within (within_fatTreeGetFile fh)).bind fun file => ?_
  refine (lookup_within (within_fatTreeGetParent fh)).bind fun parent => ?_
  refine within_ite (fun _ => within_pure _) fun _ => (within_nonNull file).bind fun r => ?_
  refine (within_readDentry r).bind fun d => within_ite (fun _ => within_pure _) fun _ => ?_
  refine (within_fatFuseLogActivity _ _ _).bind fun _ => ?_
  exact (within_fatFilePwrite _ _ _ _ _).bind fun _ => within_pure _

/-- `fat_fuse_utime` is a lookup and a `fat_utime`. -/
theorem within_fatFuseUtime (path : CString) (actime modtime : Int) :
    Within R (fatFuseUtime path actime modtime) := by
  refine (setErrno_within 0).bind fun _ => (lookup_within (within_fatTreeNodeSearch path)).bind fun node => ?_
  refine within_getErrno.bind fun errno => within_ite (fun _ => ?_) fun _ => ?_
  · exact (setErrno_within _).bind fun _ => within_returnErrno
  · refine (lookup_within (within_fatTreeGetParent node)).bind fun parent => ?_
    refine within_getErrno.bind fun errno => within_ite (fun _ => within_pure _) fun _ => ?_
    refine (lookup_within (within_fatTreeGetFile node)).bind fun file => ?_
    refine (within_nonNull file).bind fun r => (within_fatUtime _ _ _ _).bind fun _ => ?_
    exact within_returnErrno

end Commands

end OsLabs.Fat
