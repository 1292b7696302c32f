import OsLabs.Fat.FilenameUtil
import OsLabs.Fat.Table

/-! # Files and directories (`fat_file.c`)

The `fat_file`s live on the heap `State.files`. A function of the source that takes a `fat_file`
takes its address here; where the source may be handed `NULL` (a parent), it takes a pointer. -/

namespace OsLabs.Fat

/-- Use a pointer that must not be `NULL`. -/
def nonNull : Ptr → M Nat
  | some r => pure r
  | none => throw .nullPointer

/-! ## Directory entry metadata -/

/-- The assignments of `fill_dentry_time_now` for a given current time. -/
def fillDentryTime (now : Int) (fillCreate fillModified : Bool) (entry : DirEntry) : DirEntry :=
  if fillCreate && !fillModified then entry
  else
    let entry :=
      if fillModified then
        ((entry.setLastModifiedDate (fillTimeDate now)).setLastModifiedTime
          (fillTimeTime now)).setLastAccessDate (fillTimeDate now)
      else entry.setLastAccessDate (fillTimeDate now)
    if fillCreate then
      (entry.setCreateDate entry.lastModifiedDate).setCreateTime entry.lastModifiedTime
    else entry

/-- `set_first_cluster`. -/
def setFirstCluster (entry : DirEntry) (cluster : Nat) : DirEntry :=
  (entry.setU16 26 cluster).setU16 20 (cluster / 2 ^ 16)

/-- `file_start_cluster`. -/
def fileStartCluster (entry : DirEntry) : Nat :=
  entry.startClusterLow ||| entry.fat32StartClusterHigh <<< 16

/-- Whether an entry is marked as a directory. -/
def DirEntry.IsDirectory (entry : DirEntry) : Prop :=
  entry.attribs &&& fileAttributeDirectory ≠ 0

instance (entry : DirEntry) : Decidable entry.IsDirectory :=
  inferInstanceAs (Decidable (_ ≠ _))

/-- `fill_dentry_time_now` on the entry of a file. -/
def fillDentryTimeNow (env : Env) (file : Nat) (fillCreate fillModified : Bool) : M PUnit := do
  let now ← ask env.time
  updateDentry file (fillDentryTime now fillCreate fillModified)

/-- `write_dir_entry`. The result of `pwrite` is compared as an unsigned number, so `-1` is not
seen here as a short write; `errno` is set all the same. -/
def writeDirEntry (parent : Ptr) (childDiskEntry : DirEntry) (nentry : Nat) : M PUnit := do
  let parent ← readFile (← nonNull parent)
  let s ← get
  if s.table.bytesPerCluster ≤ nentry * 32 then setErrno enospc
  else do
    let entryOffset := nentry * 32 + s.table.clusterOffset parent.startCluster
    let writtenBytes ← pwrite childDiskEntry.toList entryOffset
    Cmd.when (0 ≤ writtenBytes ∧ writtenBytes < 32) (setErrno eio)

/-! ## Initializers -/

/-- `fat_file_init_direntry`. -/
def fatFileInitDirentry (env : Env) (isDir : Bool) (filepath : CString) (startCluster : Nat) :
    M DirEntry := do
  let afterString ← ask env.afterString
  match filenameFromPath (basename filepath) afterString DirEntry.zero with
  | .error e => throw e
  | .ok entry => do
      let entry := entry.setAttribs
        (if isDir then fileAttributeDirectory else fileAttributeArchive)
      let entry := (entry.setByte 12 0).setByte 13 0
      let now ← ask env.time
      let entry := fillDentryTime now true true entry
      pure ((setFirstCluster entry startCluster).setFileSize 0)

/-- The file `init_file_from_dentry` makes of an entry of a directory. -/
def fileFromDentry (dentry : DirEntry) (parent : FatFile) : FatFile :=
  let name := buildFilename dentry.baseName dentry.extension
  { dentry := some dentry
    name := name
    filepath := filepathFromName parent.filepath (cstr name)
    startCluster := fileStartCluster dentry
    nentries := 0
    posInParent := parent.nentries
    numTimesOpened := 0
    childrenRead := false }

/-- `init_file_from_dentry`. -/
def initFileFromDentry (dentry : DirEntry) (parent : Nat) : M Nat := do
  let parent ← readFile parent
  allocFile (fileFromDentry dentry parent)

/-- `fat_file_init_empty`. -/
def fatFileInitEmpty (filepath : CString) : M Nat :=
  allocFile
    { dentry := none
      name := []
      filepath := filepath
      startCluster := 0
      nentries := 0
      posInParent := 0
      numTimesOpened := 0
      childrenRead := false }

/-- `fat_file_destroy`, as the `data_modify_fn` of the file tree. -/
def destroyFile : DataModifyFn Nat (Heap FatFile) := fun file files =>
  match files.cell file with
  | some _ => .ok (files.free file)
  | none => .error .doubleFree

/-- `fat_file_destroy`. -/
def fatFileDestroy (file : Nat) : M PUnit := liftTree (modifyData destroyFile file)

/-- `fat_file_init`; the result `none` is `NULL`. -/
def fatFileInit (env : Env) (isDir : Bool) (filepath : CString) : M Ptr := do
  let newFile ← fatFileInitEmpty filepath
  let errno ← getErrno
  if errno < 0 then do
    fatFileDestroy newFile
    pure none
  else do
    let startCluster ← fatTableGetNextFreeCluster
    let used ← fatTableIsClusterUsed startCluster
    if used then do
      setErrno enospc
      fatFileDestroy newFile
      pure none
    else do
      let entry ← fatFileInitDirentry env isDir filepath startCluster
      updateFile newFile fun f =>
        { f with
          dentry := some entry
          name := buildFilename entry.baseName entry.extension
          startCluster := fileStartCluster entry }
      fatTableSetNextCluster startCluster fatClusterEndOfChain
      let errno ← getErrno
      if errno ≠ 0 then do
        fatFileDestroy newFile
        pure none
      else pure (some newFile)

/-! ## File metadata -/

/-- `fat_file_is_directory`; the root file has no entry when it is made. -/
def fatFileIsDirectory (file : Ptr) : M Bool := do
  let f ← readFile (← nonNull file)
  match f.dentry with
  | none => pure true
  | some entry => pure entry.IsDirectory

/-- `fat_file_inc_num_times_opened`; the counter has 31 bits. -/
def incNumTimesOpened : DataModifyFn Nat (Heap FatFile) := fun file files =>
  match files.cell file with
  | some _ => .ok (files.modify file fun f =>
      { f with numTimesOpened := (f.numTimesOpened + 1) % 2 ^ 31 })
  | none => .error .danglingPointer

/-- `fat_file_dec_num_times_opened`. -/
def decNumTimesOpened : DataModifyFn Nat (Heap FatFile) := fun file files =>
  match files.cell file with
  | some _ => .ok (files.modify file fun f =>
      { f with numTimesOpened := (f.numTimesOpened + 2 ^ 31 - 1) % 2 ^ 31 })
  | none => .error .danglingPointer

/-- `struct stat`, as far as it is filled. -/
structure Stat where
  isDir : Bool
  permissions : Nat
  nlink : Nat
  size : Nat
  blocks : Nat
  blksize : Nat
  ctime : Int
  atime : Int
  mtime : Int
  deriving DecidableEq

/-- `fat_file_to_stbuf`. -/
def fatFileToStbuf (env : Env) (file : Ptr) : M Stat := do
  let isDir ← fatFileIsDirectory file
  let entry ← readDentry (← nonNull file)
  let s ← get
  pure
    { isDir := isDir
      permissions := if entry.attribs &&& fileAttributeReadonly ≠ 0 then 0o555 else 0o777
      nlink := 1
      size := entry.fileSize
      blocks := s.table.clustersForSize entry.fileSize
      blksize := s.table.bytesPerCluster
      ctime := timeToUnixTime env.mktime entry.createDate entry.createTime
      atime := timeToUnixTime env.mktime entry.lastAccessDate 0
      mtime := timeToUnixTime env.mktime entry.lastModifiedDate entry.lastModifiedTime }

/-- `fat_utime`. -/
def fatUtime (file : Nat) (parent : Ptr) (actime modtime : Int) : M PUnit := do
  updateDentry file fun entry =>
    ((entry.setLastAccessDate (fillTimeDate actime)).setLastModifiedDate
      (fillTimeDate modtime)).setLastModifiedTime (fillTimeTime modtime)
  let f ← readFile file
  let entry ← readDentry file
  writeDirEntry parent entry f.posInParent

/-! ## Directory functions -/

/-- The mark of a deleted entry, and of the hidden log. -/
def deletedMark : UInt8 := 0xe5

/-- `fat_file_dentry_remove_child`. -/
def fatFileDentryRemoveChild (parent : Ptr) (child : Nat) : M PUnit := do
  updateDentry child fun entry => entry.setBaseName0 deletedMark
  let f ← readFile child
  let entry ← readDentry child
  writeDirEntry parent entry f.posInParent

/-- `fat_file_dentry_add_child`. -/
def fatFileDentryAddChild (parent child : Ptr) : M PUnit := do
  let parentFile ← readFile (← nonNull parent)
  let nentries := parentFile.nentries
  let c ← nonNull child
  let f ← readFile c
  Cmd.when (cstr f.name = fsLogName) (updateDentry c fun entry =>
    (entry.setBaseName0 deletedMark).setAttribs fileAttributeSystem)
  let entry ← readDentry c
  writeDirEntry parent entry nentries
  let errno ← getErrno
  Cmd.when (errno = 0) (do
    updateFile c fun f => { f with posInParent := nentries }
    let p ← nonNull parent
    updateFile p fun f => { f with nentries := (f.nentries + 1) % 2 ^ 32 })

/-- `is_end_of_directory`. -/
def DirEntry.IsEndOfDirectory (entry : DirEntry) : Prop := entry.byte 0 = 0

instance (entry : DirEntry) : Decidable entry.IsEndOfDirectory :=
  inferInstanceAs (Decidable (_ = _))

/-- `ignore_dentry`. -/
def DirEntry.Ignored (entry : DirEntry) : Prop :=
  entry.attribs &&& fileAttributeVolume ≠ 0 ∨ fileBasenameValid entry.baseName = false ∨
    fileExtensionValid entry.extension = false

instance (entry : DirEntry) : Decidable entry.Ignored :=
  inferInstanceAs (Decidable (_ ∨ _ ∨ _))

/-- The entries that may be a hidden log: marked as deleted, with the system attribute. -/
def DirEntry.MarkedSystem (entry : DirEntry) : Prop :=
  entry.byte 0 = deletedMark ∧ entry.attribs &&& fileAttributeSystem ≠ 0

instance (entry : DirEntry) : Decidable entry.MarkedSystem :=
  inferInstanceAs (Decidable (_ ∧ _))

/-- The `i`-th entry of a cluster read into memory. -/
def entryAt (buffer : Int → UInt8) (i : Nat) : DirEntry :=
  Vector.ofFn fun k : Fin 32 => buffer (32 * i + k : Nat)

/-- The body of the loop of `read_cluster_dir_entries` for an entry that does not end the directory:
the list of the child it appends, if any. -/
def readDirEntry (entry : DirEntry) (dir : Nat) : M (List Nat) :=
  if entry.Ignored then
    if entry.MarkedSystem then do
      -- the name is rebuilt from the entry with its first byte `'f'` restored, then hidden again
      let isFsLog ← initFileFromDentry (entry.setBaseName0 102) dir
      updateDentry isFsLog fun entry => entry.setBaseName0 deletedMark
      let f ← readFile isFsLog
      if cstr f.name ≠ fsLogName then do
        fatFileDestroy isFsLog
        pure []
      else pure [isFsLog]
    else pure []
  else do
    let child ← initFileFromDentry entry dir
    pure [child]

/-- The loop of `read_cluster_dir_entries`, with `left` entries of the cluster left, at index
`dirEntriesProcessed`. -/
def readEntriesFrom (buffer : Int → UInt8) (dir : Nat) : Nat → Nat → List Nat → M (List Nat)
  | 0, dirEntriesProcessed, elems => do
      updateFile dir fun f => { f with nentries := dirEntriesProcessed }
      pure elems
  | left + 1, dirEntriesProcessed, elems => do
      updateFile dir fun f => { f with nentries := dirEntriesProcessed }
      if (entryAt buffer dirEntriesProcessed).IsEndOfDirectory then do
        updateFile dir fun f => { f with childrenRead := true }
        updateFile dir fun f => { f with nentries := dirEntriesProcessed }
        pure elems
      else do
        let child ← readDirEntry (entryAt buffer dirEntriesProcessed) dir
        readEntriesFrom buffer dir left (dirEntriesProcessed + 1) (elems ++ child)

/-- `read_cluster_dir_entries` of a cluster of `bytesPerCluster` bytes. -/
def readClusterDirEntries (buffer : Int → UInt8) (bytesPerCluster dir : Nat) (elems : List Nat) :
    M (List Nat) :=
  readEntriesFrom buffer dir (bytesPerCluster / 32) 0 elems

/-- The loop of `fat_file_read_children`; the result `none` is the list returned on a failed read,
`NULL`. -/
def readChildrenFrom (env : Env) (dir : Nat) : Nat → Nat → List Nat → M (Option (List Nat))
  | 0, _, _ => throw .diverges
  | fuel + 1, curCluster, entryList =>
      if FatTableIsEoc curCluster then pure (some entryList)
      else do
        let s ← get
        let bytesPerCluster := s.table.bytesPerCluster
        let (bytesRead, buf) ←
          fullPread env.aroundBuffer bytesPerCluster (s.table.clusterOffset curCluster)
        if bytesRead ≠ bytesPerCluster then do
          setErrno eio
          pure none
        else do
          let entryList ← readClusterDirEntries buf bytesPerCluster dir entryList
          let next ← fatTableGetNextCluster curCluster
          readChildrenFrom env dir fuel next entryList

/-- `fat_file_read_children`. Every round of its loop uses up one of the listed device results, if there are any
left; a chain that has not ended after as many clusters more as the table has entries has revisited one. -/
def fatFileReadChildren (env : Env) (dir : Nat) : M (List Nat) := do
  let f ← readFile dir
  let s ← get
  if ¬ s.table.IsValidClusterNumber f.startCluster then do
    setErrno eio
    pure []
  else do
    match ← readChildrenFrom env dir (s.table.fatLen + s.io.length + 2) f.startCluster [] with
    | none => pure []
    | some entryList => do
        updateFile dir fun f => { f with childrenRead := true }
        pure entryList

/-! ## Read and write operations -/

/-- The loop of `fat_file_pread`: memory read into, buffer position, bytes remaining, offset and
cluster. Returns the bytes remaining and the memory. -/
def preadLoop : Nat → (Int → UInt8) → Nat → Nat → Nat → Nat → M (Nat × (Int → UInt8))
  | 0, _, _, _, _, _ => throw .diverges
  | fuel + 1, mem, pos, bytesRemaining, offset, cluster =>
      if bytesRemaining = 0 then pure (bytesRemaining, mem)
      else if cluster = fatClusterEndOfChain then pure (bytesRemaining, mem)
      else do
        let s ← get
        let bytesToRead := s.table.clusterRemainingBytes bytesRemaining offset
        let clusterOff := s.table.clusterOffset cluster + s.table.maskOffset offset
        let (bytesRead, chunk) ← fullPread (fun i => mem (pos + i)) bytesToRead clusterOff
        let mem := fun i => chunk (i - pos)
        if bytesRead ≠ bytesToRead then pure (bytesRemaining, mem)
        else do
          let next ← fatTableGetNextCluster cluster
          preadLoop fuel mem (pos + bytesToRead) (bytesRemaining - bytesToRead)
            (offset + bytesToRead) next

/-- `fat_file_pread` into a buffer with memory `mem`: the number of bytes read, and the memory. -/
def fatFilePread (env : Env) (file : Nat) (mem : Int → UInt8) (size offset : Nat) (parent : Ptr) :
    M (Int × (Int → UInt8)) := do
  let entry ← readDentry file
  if offset > entry.fileSize then do
    setErrno eoverflow
    pure (0, mem)
  else
    let size := min size (entry.fileSize - offset)
    if size = 0 then pure (0, mem)
    else do
      let f ← readFile file
      let cluster ← fatTableSeekCluster f.startCluster offset
      let errno ← getErrno
      if errno ≠ 0 then pure (0, mem)
      else do
        let (bytesRemaining, mem) ← preadLoop (size + 1) mem 0 size offset cluster
        fillDentryTimeNow env file false false
        let f ← readFile file
        let entry ← readDentry file
        writeDirEntry parent entry f.posInParent
        pure ((size : Int) - bytesRemaining, mem)

/-- The loop that frees a chain in `fat_file_truncate`, `fat_fuse_unlink` and `fat_fuse_rmdir`. -/
def freeChainFrom : Nat → Nat → M PUnit
  | 0, _ => throw .diverges
  | fuel + 1, cluster =>
      if FatTableIsEoc cluster then pure ⟨⟩
      else do
        let next ← fatTableGetNextCluster cluster
        fatTableSetNextCluster cluster fatClusterFree
        freeChainFrom fuel next

/-- The freeing loop. Without a failing device call it visits every cluster at most once, and every
failing call uses up one of the listed device results. -/
def freeChain (cluster : Nat) : M PUnit := do
  let s ← get
  freeChainFrom ((s.io.length + 1) * (s.table.fatLen + 2)) cluster

/-- `fat_file_truncate`. -/
def fatFileTruncate (env : Env) (file offset : Nat) (parent : Ptr) : M PUnit := do
  let entry ← readDentry file
  let s ← get
  let currentNumClusters := max 1 (s.table.clustersForSize entry.fileSize)
  let newNumClusters := max 1 (s.table.clustersForSize offset)
  if offset > entry.fileSize ∨ newNumClusters ≥ currentNumClusters then pure ⟨⟩
  else do
    let f ← readFile file
    let lastCluster ← fatTableSeekCluster f.startCluster offset
    let errno ← getErrno
    if errno ≠ 0 then pure ⟨⟩
    else do
      let nextCluster ← fatTableGetNextCluster lastCluster
      fatTableSetNextCluster lastCluster fatClusterEndOfChain
      let errno ← getErrno
      if errno ≠ 0 then pure ⟨⟩
      else do
        freeChain nextCluster
        updateDentry file fun entry => entry.setFileSize offset
        fillDentryTimeNow env file false true
        let f ← readFile file
        let entry ← readDentry file
        writeDirEntry parent entry f.posInParent

/-- The loop of `fat_file_pwrite` on a buffer in memory `mem`: buffer position, bytes remaining,
offset and cluster. Returns the bytes remaining and the offset it ends with. -/
def pwriteLoop (mem : Int → UInt8) : Nat → Nat → Nat → Nat → Nat → M (Int × Nat)
  | 0, _, _, _, _ => throw .diverges
  | fuel + 1, pos, bytesRemaining, offset, cluster =>
      if bytesRemaining = 0 then pure (bytesRemaining, offset)
      else do
        let s ← get
        let bytesToWrite := s.table.clusterRemainingBytes bytesRemaining offset
        let clusterOff := s.table.clusterOffset cluster + s.table.maskOffset offset
        let bytesWritten ← fullPwrite (fun i => mem (pos + i)) bytesToWrite clusterOff
        if bytesWritten ≠ bytesToWrite then pure ((bytesRemaining : Int) - bytesWritten, offset)
        else if bytesRemaining - bytesToWrite = 0 then pure (0, offset + bytesToWrite)
        else do
          let nextCluster ← fatTableGetNextCluster cluster
          if FatTableIsEoc nextCluster then do
            -- the new cluster is linked, but `cluster` stays where it is
            let nextCluster ← fatTableGetNextFreeCluster
            fatTableSetNextCluster cluster nextCluster
            let errno ← getErrno
            if errno ≠ 0 then
              pure (((bytesRemaining - bytesToWrite : Nat) : Int), offset + bytesToWrite)
            else
              pwriteLoop mem fuel (pos + bytesToWrite) (bytesRemaining - bytesToWrite)
                (offset + bytesToWrite) cluster
          else do
            let errno ← getErrno
            if errno ≠ 0 then
              pure (((bytesRemaining - bytesToWrite : Nat) : Int), offset + bytesToWrite)
            else
              pwriteLoop mem fuel (pos + bytesToWrite) (bytesRemaining - bytesToWrite)
                (offset + bytesToWrite) nextCluster

/-- The allocation before the loop of `fat_file_pwrite`: when `cluster` is the last of its chain, a
new cluster is linked behind it and marked as the end. -/
def allocAfterLast (cluster : Nat) : M PUnit := do
  let nextCluster ← fatTableGetNextCluster cluster
  Cmd.when (FatTableIsEoc nextCluster) (do
    let nextCluster ← fatTableGetNextFreeCluster
    fatTableSetNextCluster cluster nextCluster
    fatTableSetNextCluster nextCluster fatClusterEndOfChain)

/-- `fat_file_pwrite`. The comparison with the old size is made in 64 bits without sign, and the
size is stored in 32 bits. -/
def fatFilePwrite (env : Env) (file : Nat) (buf : List UInt8) (offset : Nat) (parent : Ptr) :
    M Int := do
  let size := buf.length
  let entry ← readDentry file
  if offset > entry.fileSize then do
    setErrno eoverflow
    pure 0
  else do
    let f ← readFile file
    let cluster ← fatTableSeekCluster f.startCluster offset
    let errno ← getErrno
    if errno ≠ 0 then pure 0
    else do
      allocAfterLast cluster
      let (bytesRemaining, lastOffset) ←
        pwriteLoop (bufferMem env.aroundBuffer buf) (size + 1) 0 size offset cluster
      Cmd.when (((offset : Int) + size - bytesRemaining) % 2 ^ 64 > entry.fileSize)
        (updateDentry file fun entry =>
          entry.setFileSize (((lastOffset : Int) - bytesRemaining) % 2 ^ 32).toNat)
      fillDentryTimeNow env file false true
      let f ← readFile file
      let entry ← readDentry file
      writeDirEntry parent entry f.posInParent
      pure ((size : Int) - bytesRemaining)

end OsLabs.Fat
