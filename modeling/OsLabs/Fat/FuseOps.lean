import OsLabs.Fat.Volume

/-! # The file-system operations (`fat_fuse_ops.c`)

The operations are given without the arguments they do not read: the path beside a file handle,
modes and device numbers. A handle `fi->fh` is a pointer to a node of the file tree. -/

namespace OsLabs.Fat

/-- Conversion to `int`. -/
def toInt32 (v : Int) : Int := v.bmod (2 ^ 32)

/-- `return -errno;` -/
def returnErrno : M Int := do
  pure (-(← getErrno))

/-! ## The log -/

/-- `LOG_MESSAGE_SIZE`. -/
def logMessageSize : Nat := 100

/-- `'\t'`. -/
def tab : UInt8 := 9

/-- `'\n'`. -/
def newline : UInt8 := 10

/-- `"INIT"`. -/
def initText : CString := [73, 78, 73, 84]

/-- `"read"`. -/
def readText : CString := [114, 101, 97, 100]

/-- `"write"`. -/
def writeText : CString := [119, 114, 105, 116, 101]

/-- The message `fat_fuse_log_activity` assembles. -/
def logMessage (now login filepath operationType : CString) : CString :=
  now ++ tab :: login ++ tab :: filepath ++ tab :: operationType ++ [newline]

/-- `fat_fuse_log_activity`. The message is assembled in an array of `LOG_MESSAGE_SIZE` bytes. -/
def fatFuseLogActivity (env : Env) (operationType : CString) (targetFile : Ptr) : M PUnit := do
  let now ← ask env.nowStr
  let target ← readFile (← nonNull targetFile)
  let buf := logMessage now env.login target.filepath operationType
  if logMessageSize < buf.length + 1 then throw .outOfBounds
  else do
    let logNode ← fatTreeNodeSearch fsLogPath
    let fsLog ← fatTreeGetFile logNode
    let parent ← fatTreeGetParent logNode
    let log ← nonNull fsLog
    let entry ← readDentry log
    let _ ← fatFilePwrite env log buf entry.fileSize parent
    pure ⟨⟩

/-! ## Creation -/

/-- `fat_fuse_mkdir`. -/
def fatFuseMkdir (env : Env) (path : CString) : M Int := do
  setErrno 0
  let parentNode ← fatTreeNodeSearch (dirname path)
  match parentNode with
  | none => do
      setErrno enoent
      returnErrno
  | some _ => do
      let parent ← fatTreeGetFile parentNode
      let isDir ← fatFileIsDirectory parent
      if !isDir then do
        setErrno enotdir
        returnErrno
      else do
        let newFile ← fatFileInit env true path
        let errno ← getErrno
        if errno ≠ 0 then returnErrno
        else do
          fatTreeInsert parentNode newFile
          fatFileDentryAddChild parent newFile
          returnErrno

/-- `fat_fuse_mknod`; as in the source, the result of `fat_file_init` is given up only for a
negative `errno`. -/
def fatFuseMknod (env : Env) (path : CString) : M Int := do
  setErrno 0
  let parentNode ← fatTreeNodeSearch (dirname path)
  match parentNode with
  | none => do
      setErrno enoent
      returnErrno
  | some _ => do
      let parent ← fatTreeGetFile parentNode
      let isDir ← fatFileIsDirectory parent
      if !isDir then do
        setErrno enotdir
        returnErrno
      else do
        let newFile ← fatFileInit env false path
        let errno ← getErrno
        if errno < 0 then returnErrno
        else do
          fatTreeInsert parentNode newFile
          fatFileDentryAddChild parent newFile
          returnErrno

/-- `fat_fuse_log_init`. -/
def fatFuseLogInit (env : Env) : M PUnit := do
  let fsLog ← fatTreeSearch fsLogPath
  match fsLog with
  | some _ => pure ⟨⟩
  | none => do
      let ret ← fatFuseMknod env fsLogPath
      if ret ≠ 0 then pure ⟨⟩
      else do
        let fsLog ← fatTreeSearch fsLogPath
        fatFuseLogActivity env initText fsLog

/-! ## Attributes, opening and closing -/

/-- `fat_fuse_fgetattr`. -/
def fatFuseFgetattr (env : Env) (fh : Ptr) : M (Int × Stat) := do
  let file ← fatTreeGetFile fh
  let stat ← fatFileToStbuf env file
  pure (0, stat)

/-- `fat_fuse_getattr`. -/
def fatFuseGetattr (env : Env) (path : CString) : M (Int × Option Stat) := do
  let file ← fatTreeSearch path
  match file with
  | none => do
      setErrno enoent
      let ret ← returnErrno
      pure (ret, none)
  | some _ => do
      let stat ← fatFileToStbuf env file
      pure (0, some stat)

/-- `fat_fuse_open`: the result, and the handle when one is stored. -/
def fatFuseOpen (path : CString) : M (Int × Ptr) := do
  let fileNode ← fatTreeNodeSearch path
  match fileNode with
  | none => do
      let ret ← returnErrno
      pure (ret, none)
  | some _ => do
      let file ← fatTreeGetFile fileNode
      let isDir ← fatFileIsDirectory file
      if isDir then pure (-eisdir, none)
      else do
        fatTreeIncNumTimesOpened fileNode
        pure (0, fileNode)

/-- `fat_fuse_opendir`. -/
def fatFuseOpendir (path : CString) : M (Int × Ptr) := do
  let fileNode ← fatTreeNodeSearch path
  match fileNode with
  | none => do
      let ret ← returnErrno
      pure (ret, none)
  | some _ => do
      let file ← fatTreeGetFile fileNode
      let isDir ← fatFileIsDirectory file
      if !isDir then pure (-enotdir, none)
      else do
        fatTreeIncNumTimesOpened fileNode
        pure (0, fileNode)

/-- `fat_fuse_release`. -/
def fatFuseRelease (fh : Ptr) : M Int := do
  fatTreeDecNumTimesOpened fh
  pure 0

/-- `fat_fuse_releasedir`. -/
def fatFuseReleasedir (fh : Ptr) : M Int := do
  fatTreeDecNumTimesOpened fh
  pure 0

/-! ## Directories -/

/-- The loop of `fat_fuse_read_children`. -/
def insertChildren (dirNode : Ptr) : List Nat → M PUnit
  | [] => pure ⟨⟩
  | child :: rest => do
      fatTreeInsert dirNode (some child)
      insertChildren dirNode rest

/-- `fat_fuse_read_children`. -/
def fatFuseReadChildren (env : Env) (dirNode : Ptr) : M PUnit := do
  let dir ← nonNull (← fatTreeGetFile dirNode)
  let childrenList ← fatFileReadChildren env dir
  insertChildren dirNode childrenList

/-- The loop of `fat_fuse_readdir` over the array of children; the filler takes the names passed so
far and the next one, and says whether it is full. Returns the names passed, and whether the filler
took them all. -/
def fillNames (filler : List CString → CString → Bool) :
    List Nat → List CString → M (List CString × Bool)
  | [], names => pure (names, true)
  | child :: rest, names => do
      let f ← readFile child
      let name := cstr f.name
      if name = fsLogName then fillNames filler rest names
      else if filler names name then pure (names, false)
      else fillNames filler rest (names ++ [name])

/-- `fat_fuse_readdir`: the result and the names passed to the filler. -/
def fatFuseReaddir (env : Env) (fh : Ptr) (filler : List CString → CString → Bool) :
    M (Int × List CString) := do
  setErrno 0
  let dir ← fatTreeGetFile fh
  if filler [] [dot] then do
    let ret ← returnErrno
    pure (ret, [])
  else if filler [[dot]] [dot, dot] then do
    let ret ← returnErrno
    pure (ret, [[dot]])
  else do
    let names := [[dot], [dot, dot]]
    let isDir ← fatFileIsDirectory dir
    if !isDir then do
      setErrno enotdir
      let ret ← returnErrno
      pure (ret, names)
    else do
      let dirFile ← readFile (← nonNull dir)
      Cmd.when (dirFile.childrenRead = false) (fatFuseReadChildren env fh)
      let errno ← getErrno
      if dirFile.childrenRead = false ∧ errno < 0 then do
        let ret ← returnErrno
        pure (ret, names)
      else do
        match ← fatTreeFlattenHChildren fh with
        | none => throw .nullPointer
        | some children => do
            let (names, complete) ← fillNames filler children names
            if !complete then do
              let ret ← returnErrno
              pure (ret, names)
            else do
              fatFuseLogInit env
              pure (0, names)

/-! ## Data -/

/-- `fat_fuse_read` into a buffer with memory `mem`. -/
def fatFuseRead (env : Env) (fh : Ptr) (mem : Int → UInt8) (size offset : Nat) :
    M (Int × (Int → UInt8)) := do
  setErrno 0
  let file ← fatTreeGetFile fh
  let parent ← fatTreeGetParent fh
  let (bytesRead, mem) ← fatFilePread env (← nonNull file) mem size offset parent
  let errno ← getErrno
  if errno ≠ 0 then do
    let ret ← returnErrno
    pure (ret, mem)
  else do
    fatFuseLogActivity env readText file
    pure (toInt32 bytesRead, mem)

/-- `fat_fuse_write`. -/
def fatFuseWrite (env : Env) (fh : Ptr) (buf : List UInt8) (offset : Nat) : M Int := do
  let file ← fatTreeGetFile fh
  let parent ← fatTreeGetParent fh
  if buf.length = 0 then pure 0
  else do
    let f ← nonNull file
    let entry ← readDentry f
    if offset > entry.fileSize then pure (-eoverflow)
    else do
      fatFuseLogActivity env writeText file
      let ret ← fatFilePwrite env f buf offset parent
      pure (toInt32 ret)

/-! ## Deletion -/

/-- The common end of `fat_fuse_unlink` and `fat_fuse_rmdir`: free the chain, rewrite the entry in
the parent and drop the file from the tree. -/
def removeFile (path : CString) (file : Nat) (parent : Ptr) : M Int := do
  let f ← readFile file
  freeChain f.startCluster
  updateDentry file fun entry => entry.setFileSize 0
  fatFileDentryRemoveChild parent file
  fatTreeDelete path
  returnErrno

/-- `fat_fuse_unlink`. -/
def fatFuseUnlink (path : CString) : M Int := do
  setErrno 0
  let fileNode ← fatTreeNodeSearch path
  let errno ← getErrno
  if fileNode = none ∨ errno ≠ 0 then do
    setErrno enoent
    returnErrno
  else do
    let file ← fatTreeGetFile fileNode
    let isDir ← fatFileIsDirectory file
    if isDir then pure (-eisdir)
    else do
      let parent ← fatTreeGetParent fileNode
      let parentIsDir ← fatFileIsDirectory parent
      if !parentIsDir then do
        setErrno enotdir
        returnErrno
      else removeFile path (← nonNull file) parent

/-- `fat_fuse_rmdir`. -/
def fatFuseRmdir (env : Env) (path : CString) : M Int := do
  setErrno 0
  let fileNode ← fatTreeNodeSearch path
  let errno ← getErrno
  if fileNode = none ∨ errno ≠ 0 then do
    setErrno enoent
    returnErrno
  else do
    let file ← fatTreeGetFile fileNode
    let isDir ← fatFileIsDirectory file
    if !isDir then pure (-enotdir)
    else do
      let parent ← fatTreeGetParent fileNode
      let parentIsDir ← fatFileIsDirectory parent
      if !parentIsDir then do
        setErrno enotdir
        returnErrno
      else do
        let f ← nonNull file
        let childrenList ← fatFileReadChildren env f
        if childrenList.length > 0 then do
          setErrno enotempty
          returnErrno
        else removeFile path f parent

/-! ## Times and sizes -/

/-- `fat_fuse_utime`. -/
def fatFuseUtime (path : CString) (actime modtime : Int) : M Int := do
  setErrno 0
  let fileNode ← fatTreeNodeSearch path
  let errno ← getErrno
  if fileNode = none ∨ errno ≠ 0 then do
    setErrno enoent
    returnErrno
  else do
    let parent ← fatTreeGetParent fileNode
    let errno ← getErrno
    if parent = none ∨ errno ≠ 0 then pure 0
    else do
      let file ← fatTreeGetFile fileNode
      fatUtime (← nonNull file) parent actime modtime
      returnErrno

/-- `fat_fuse_truncate`. -/
def fatFuseTruncate (env : Env) (path : CString) (offset : Nat) : M Int := do
  setErrno 0
  let fileNode ← fatTreeNodeSearch path
  let errno ← getErrno
  if fileNode = none ∨ errno ≠ 0 then do
    setErrno enoent
    returnErrno
  else do
    let file ← fatTreeGetFile fileNode
    let isDir ← fatFileIsDirectory file
    if isDir then pure (-eisdir)
    else do
      let parent ← fatTreeGetParent fileNode
      fatTreeIncNumTimesOpened fileNode
      fatFileTruncate env (← nonNull file) offset parent
      returnErrno

/-! ## All operations as steps -/

/-- A call of a file-system operation, with its arguments. -/
inductive Op
  | getattr (path : CString)
  | fgetattr (fh : Ptr)
  | open (path : CString)
  | opendir (path : CString)
  | readdir (fh : Ptr) (filler : List CString → CString → Bool)
  | read (fh : Ptr) (mem : Int → UInt8) (size offset : Nat)
  | write (fh : Ptr) (buf : List UInt8) (offset : Nat)
  | release (fh : Ptr)
  | releasedir (fh : Ptr)
  | mkdir (path : CString)
  | mknod (path : CString)
  | unlink (path : CString)
  | rmdir (path : CString)
  | utime (path : CString) (actime modtime : Int)
  | truncate (path : CString) (offset : Nat)

/-- What an operation gives back: its result, and what it stores through its arguments. -/
structure Reply where
  ret : Int
  fh : Ptr := none
  stat : Option Stat := none
  names : List CString := []
  mem : Int → UInt8 := fun _ => 0

/-- Run an operation. -/
def step (env : Env) : Op → M Reply
  | .getattr path => do
      let (ret, stat) ← fatFuseGetattr env path
      pure { ret := ret, stat := stat }
  | .fgetattr fh => do
      let (ret, stat) ← fatFuseFgetattr env fh
      pure { ret := ret, stat := some stat }
  | .open path => do
      let (ret, fh) ← fatFuseOpen path
      pure { ret := ret, fh := fh }
  | .opendir path => do
      let (ret, fh) ← fatFuseOpendir path
      pure { ret := ret, fh := fh }
  | .readdir fh filler => do
      let (ret, names) ← fatFuseReaddir env fh filler
      pure { ret := ret, names := names }
  | .read fh mem size offset => do
      let (ret, mem) ← fatFuseRead env fh mem size offset
      pure { ret := ret, mem := mem }
  | .write fh buf offset => do
      let ret ← fatFuseWrite env fh buf offset
      pure { ret := ret }
  | .release fh => do
      let ret ← fatFuseRelease fh
      pure { ret := ret }
  | .releasedir fh => do
      let ret ← fatFuseReleasedir fh
      pure { ret := ret }
  | .mkdir path => do
      let ret ← fatFuseMkdir env path
      pure { ret := ret }
  | .mknod path => do
      let ret ← fatFuseMknod env path
      pure { ret := ret }
  | .unlink path => do
      let ret ← fatFuseUnlink path
      pure { ret := ret }
  | .rmdir path => do
      let ret ← fatFuseRmdir env path
      pure { ret := ret }
  | .utime path actime modtime => do
      let ret ← fatFuseUtime path actime modtime
      pure { ret := ret }
  | .truncate path offset => do
      let ret ← fatFuseTruncate env path offset
      pure { ret := ret }

end OsLabs.Fat
