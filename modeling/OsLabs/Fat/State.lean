import OsLabs.Fat.DirEntry
import OsLabs.Fat.HierarchyTree

/-! # The state of a mounted volume

The memory of the file-system process (`struct fat_volume_s` with its table, the `fat_file`s and the
nodes of the file tree), the device it is mounted on and the results the next device calls will
have. Every operation of the program is a command on this state. -/

namespace OsLabs.Fat

/-! ## The device -/

/-- One call of `pwrite`: where it was aimed, how many bytes it was asked to write, and the bytes it
did write. -/
structure DevWrite where
  offset : Nat
  count : Nat
  data : List UInt8

/-- A device: its bytes before the program wrote anything, and the calls of `pwrite` issued so far,
the last one first. -/
structure Device where
  image : Nat → UInt8
  writes : List DevWrite

/-- The byte at a device position after some writes: that of the last write that covers it. -/
def byteAfter (image : Nat → UInt8) : List DevWrite → Nat → UInt8
  | [], i => image i
  | w :: ws, i =>
      if w.offset ≤ i ∧ i < w.offset + w.data.length then w.data.getD (i - w.offset) 0
      else byteAfter image ws i

/-- The byte now stored at a device position. -/
def Device.byte (d : Device) (i : Nat) : UInt8 := byteAfter d.image d.writes i

/-- The device after a call that was asked for `count` bytes at `offset` and wrote `data`. -/
def Device.write (d : Device) (offset count : Nat) (data : List UInt8) : Device :=
  { d with writes := ⟨offset, count, data⟩ :: d.writes }

/-- What a `pread` or `pwrite` does: everything it was asked for, at most `k` bytes, or a failure
with the (positive) error number `e + 1`. -/
inductive IoResult
  | full
  | short (k : Nat)
  | fail (e : Nat)
  deriving DecidableEq, Repr

/-! ## Files and the file allocation table -/

/-- A C string, without its terminating `NUL`. -/
abbrev CString := List UInt8

/-- `struct fat_file_s`. The union is the single field `nentries`: its other member is only ever set
to `0`. There is one table, so the field `table` is left out. -/
structure FatFile where
  dentry : Option DirEntry
  name : List UInt8
  filepath : CString
  startCluster : Nat
  nentries : Nat
  posInParent : Nat
  numTimesOpened : Nat
  childrenRead : Bool

/-- `struct fat_table_s`. `fatMap` are the entries mapped into memory; the mapping has `fatLen` of
them. -/
structure FatTable where
  fatMap : Nat → Nat
  fatLen : Nat
  fatOffset : Nat
  numDataClusters : Nat
  dataStartOffset : Nat
  clusterOrder : Nat

/-! ## The state and its commands -/

/-- The state of the process and of its device. `io` lists the results of the next device calls;
past its end every call is carried out whole. `tick` counts the questions put to the environment.
`fileTree` is `vol->file_tree`: `none` when that pointer is `NULL`, otherwise the root pointer. -/
structure State extends HMem Nat (Heap FatFile) where
  dev : Device
  io : List IoResult
  tick : Nat
  table : FatTable
  fileTree : Option Ptr

/-- The broken-down time of `struct tm`. -/
structure Tm where
  sec : Int
  min : Int
  hour : Int
  mday : Int
  mon : Int
  year : Int
  deriving DecidableEq

/-- What the program asks its environment for; the first argument is the number of the question. -/
structure Env where
  /-- `time(NULL)`. -/
  time : Nat → Int
  /-- The bytes in memory after the `NUL` of a copied string. -/
  afterString : Nat → Nat → UInt8
  /-- The text of the current local time, as `strftime` formats it. -/
  nowStr : Nat → CString
  /-- `getlogin()`. -/
  login : CString
  /-- `mktime`. -/
  mktime : Tm → Int
  /-- The bytes around a buffer handed to `full_pwrite`. -/
  aroundBuffer : Int → UInt8

/-- Commands of the file system. -/
abbrev M := EStateM Fault State

/-- The memory behind the data pointers of the tree: the `fat_file`s. -/
def State.files (s : State) : Heap FatFile := s.store

/-- Run a tree command on the tree memory of the state. -/
def liftTree {γ : Type} (m : HM Nat (Heap FatFile) γ) : M γ := fun s =>
  match m s.toHMem with
  | .ok a h => .ok a { s with toHMem := h }
  | .error e h => .error e { s with toHMem := h }

/-- Assign `errno`. -/
def setErrno (e : Int) : M PUnit := modify fun s => { s with errno := e }

/-- Read `errno`. -/
def getErrno : M Int := do
  pure (← get).errno

/-- The next question put to the environment. -/
def ask {γ : Type} (answer : Nat → γ) : M γ := do
  let s ← get
  set { s with tick := s.tick + 1 }
  pure (answer s.tick)

/-- Read a `fat_file` through a non-null pointer. -/
def readFile (file : Nat) : M FatFile := do
  match (← get).files.cell file with
  | some f => pure f
  | none => throw .danglingPointer

/-- Update a `fat_file` through a non-null pointer. -/
def updateFile (file : Nat) (f : FatFile → FatFile) : M PUnit := do
  let _ ← readFile file
  modify fun s => { s with store := s.files.modify file f }

/-- `calloc` of a `fat_file`, with its initial fields. -/
def allocFile (f : FatFile) : M Nat := do
  let s ← get
  set { s with store := s.files.alloc f }
  pure s.files.next

/-- Read `file->dentry`, which must not be null. -/
def readDentry (file : Nat) : M DirEntry := do
  match (← readFile file).dentry with
  | some d => pure d
  | none => throw .nullPointer

/-- Update `*file->dentry`, which must not be null. -/
def updateDentry (file : Nat) (f : DirEntry → DirEntry) : M PUnit := do
  let d ← readDentry file
  updateFile file fun x => { x with dentry := some (f d) }

/-! ## Device calls -/

/-- The result of the next device call. -/
def nextIoResult : M IoResult := do
  let s ← get
  match s.io with
  | [] => pure .full
  | r :: rest => do
      set { s with io := rest }
      pure r

/-- `pwrite` of `data` at `offset`: the number of bytes written, or `-1` with `errno` set. -/
def pwrite (data : List UInt8) (offset : Nat) : M Int := do
  match ← nextIoResult with
  | .full => do
      modify fun s => { s with dev := s.dev.write offset data.length data }
      pure data.length
  | .short k => do
      modify fun s => { s with dev := s.dev.write offset data.length (data.take k) }
      pure (data.take k).length
  | .fail e => do
      modify fun s => { s with dev := s.dev.write offset data.length [] }
      setErrno (e + 1)
      pure (-1)

/-- `pread` of `count` bytes at `offset`: the bytes read, or `none` (a result of `-1`) with `errno`
set. -/
def pread (count offset : Nat) : M (Option (List UInt8)) := do
  match ← nextIoResult with
  | .full => do
      let s ← get
      pure (some ((List.range count).map fun i => s.dev.byte (offset + i)))
  | .short k => do
      let s ← get
      pure (some ((List.range (min k count)).map fun i => s.dev.byte (offset + i)))
  | .fail e => do
      setErrno (e + 1)
      pure none

end OsLabs.Fat
