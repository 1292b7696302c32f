import OsLabs.Fat.Disk
import OsLabs.Fat.File

/-! # Runs of the primitives on files

How reading and updating a `fat_file`, stamping its entry and writing the entry to its directory run,
and which bytes of an entry the time stamps touch. -/

namespace OsLabs.Fat

/-! ## Files in memory -/

/-- The state after an update of a file. -/
def State.updated (s : State) (file : Nat) (f : FatFile → FatFile) : State :=
  { s with store := s.files.modify file f }

/-- The state after one question to the environment. -/
def State.ticked (s : State) : State := { s with tick := s.tick + 1 }

/-- Changing a file in memory leaves the device as good as it was. -/
theorem State.IoOk.updated {s : State} (h : s.IoOk) (file : Nat) (f : FatFile → FatFile) :
    (s.updated file f).IoOk := h

/-- The clock has no effect on the device. -/
theorem State.IoOk.ticked {s : State} (h : s.IoOk) : s.ticked.IoOk := h

section Files

variable {s : State} {file : Nat} {x : FatFile} {d : DirEntry}

/-- A changed file holds the result of the change. -/
theorem State.cell_updated_self (hx : s.files.cell file = some x) (f : FatFile → FatFile) :
    (s.updated file f).files.cell file = some (f x) := Heap.cell_modify_self hx f

/-- Another file is not touched. -/
theorem State.cell_updated_ne {g : Nat} (hne : g ≠ file) (f : FatFile → FatFile) :
    (s.updated file f).files.cell g = s.files.cell g := Heap.cell_modify_ne hne f

/-- Two changes of one file are one change. -/
theorem State.updated_updated (s : State) (file : Nat) (f g : FatFile → FatFile) :
    (s.updated file f).updated file g = s.updated file fun x => g (f x) := by
  unfold State.updated
  congr 2
  exact Heap.modify_modify _ _ _ _

/-- Past the test, a pointer that is not `NULL` is what it points to. -/
theorem nonNull_run (r : Nat) (s : State) : nonNull (some r) s = .ok r s := rfl

/-- `errno` is read from the state. -/
theorem getErrno_run (s : State) : getErrno s = .ok s.errno s := rfl

/-- Setting `errno` sets it and nothing else. -/
theorem setErrno_run (e : Int) (s : State) : setErrno e s = .ok ⟨⟩ { s with errno := e } := rfl

/-- The environment answers for the current tick, and the tick is used up. -/
theorem ask_run {γ : Type} (answer : Nat → γ) (s : State) :
    ask answer s = .ok (answer s.tick) s.ticked := rfl

/-- A live file can be read. -/
theorem readFile_run (hx : s.files.cell file = some x) : readFile file s = .ok x s := by
  unfold readFile
  rw [Cmd.get_bind, hx]
  rfl

/-- Reading a file that was freed is a fault. -/
theorem readFile_error (hx : s.files.cell file = none) :
    readFile file s = .error .danglingPointer s := by
  unfold readFile
  rw [Cmd.get_bind, hx]
  rfl

/-- A live file can be changed in place. -/
theorem updateFile_run (hx : s.files.cell file = some x) (f : FatFile → FatFile) :
    updateFile file f s = .ok ⟨⟩ (s.updated file f) := by
  unfold updateFile
  rw [Cmd.bind_ok (readFile_run hx)]
  rfl

/-- The entry of a live file can be read. -/
theorem readDentry_run (hx : s.files.cell file = some x) (hd : x.dentry = some d) :
    readDentry file s = .ok d s := by
  unfold readDentry
  rw [Cmd.bind_ok (readFile_run hx), hd]
  rfl

/-- The entry of a live file can be changed in place. -/
theorem updateDentry_run (hx : s.files.cell file = some x) (hd : x.dentry = some d)
    (f : DirEntry → DirEntry) :
    updateDentry file f s = .ok ⟨⟩ (s.updated file fun x => { x with dentry := some (f d) }) := by
  unfold updateDentry
  rw [Cmd.bind_ok (readDentry_run hx hd), updateFile_run hx]

/-- Stamping the time asks the clock once and changes the entry of the file. -/
theorem fillDentryTimeNow_run (env : Env) (hx : s.files.cell file = some x) (hd : x.dentry = some d)
    (fillCreate fillModified : Bool) :
    fillDentryTimeNow env file fillCreate fillModified s =
      .ok ⟨⟩ (s.ticked.updated file fun x =>
        { x with dentry := some (fillDentryTime (env.time s.tick) fillCreate fillModified d) }) := by
  unfold fillDentryTimeNow
  rw [Cmd.bind_ok (ask_run _ _)]
  exact updateDentry_run (s := s.ticked) hx hd _

end Files

/-! ## Bytes of an entry -/

namespace DirEntry

/-- Storing two bytes leaves the others alone. -/
theorem byte_setU16_ne (e : DirEntry) (v : Nat) {i j : Nat} (h : j ≠ i ∧ j ≠ i + 1) :
    (e.setU16 i v).byte j = e.byte j := by
  rw [byte_setU16, if_neg fun h' => h.1 h'.2, if_neg fun h' => h.2 h'.2]

/-- The time stamps are the bytes 14 to 19 and 22 to 25. -/
theorem byte_fillDentryTime (now : Int) (fillCreate fillModified : Bool) (e : DirEntry) {i : Nat}
    (hi : i < 14 ∨ 20 ≤ i ∧ i < 22 ∨ 26 ≤ i) :
    (fillDentryTime now fillCreate fillModified e).byte i = e.byte i := by
  have hdate (e : DirEntry) (v : Nat) : (e.setLastModifiedDate v).byte i = e.byte i :=
    byte_setU16_ne e v (by omega)
  have htime (e : DirEntry) (v : Nat) : (e.setLastModifiedTime v).byte i = e.byte i :=
    byte_setU16_ne e v (by omega)
  have haccess (e : DirEntry) (v : Nat) : (e.setLastAccessDate v).byte i = e.byte i :=
    byte_setU16_ne e v (by omega)
  have hcdate (e : DirEntry) (v : Nat) : (e.setCreateDate v).byte i = e.byte i :=
    byte_setU16_ne e v (by omega)
  have hctime (e : DirEntry) (v : Nat) : (e.setCreateTime v).byte i = e.byte i :=
    byte_setU16_ne e v (by omega)
  cases fillCreate <;> cases fillModified
  · exact haccess _ _
  · exact (haccess _ _).trans ((htime _ _).trans (hdate _ _))
  · rfl
  · exact (hctime _ _).trans ((hcdate _ _).trans
      ((haccess _ _).trans ((htime _ _).trans (hdate _ _))))

/-- A time stamp does not touch the size. -/
@[simp] theorem fileSize_fillDentryTime (now : Int) (fillCreate fillModified : Bool) (e : DirEntry) :
    (fillDentryTime now fillCreate fillModified e).fileSize = e.fileSize := by
  unfold fileSize
  congr 1
  funext i
  exact byte_fillDentryTime _ _ _ _ (by omega)

/-- A time stamp does not touch the attributes. -/
@[simp] theorem attribs_fillDentryTime (now : Int) (fillCreate fillModified : Bool) (e : DirEntry) :
    (fillDentryTime now fillCreate fillModified e).attribs = e.attribs := by
  unfold attribs
  rw [byte_fillDentryTime _ _ _ _ (by omega)]

/-- A new size does not touch the attributes. -/
@[simp] theorem attribs_setFileSize (e : DirEntry) (v : Nat) :
    (e.setFileSize v).attribs = e.attribs := by
  simp [attribs, setFileSize]

end DirEntry

/-! ## Writing an entry to its directory -/

/-- The state after `write_dir_entry` to the directory that starts at `startCluster`. -/
def State.entryWritten (s : State) (startCluster nentry : Nat) (entry : DirEntry) : State :=
  if s.table.bytesPerCluster ≤ nentry * 32 then { s with errno := enospc }
  else s.wrote (nentry * 32 + s.table.clusterOffset startCluster) entry.toList

section WriteDirEntry

variable {s : State} {p : Nat} {y : FatFile}

/-- `write_dir_entry` on a device that fails no call: the slot is written, and that is all. -/
theorem writeDirEntry_run (hio : s.IoOk) (hy : s.files.cell p = some y) (entry : DirEntry)
    (nentry : Nat) :
    writeDirEntry (some p) entry nentry s =
      .ok ⟨⟩ (s.entryWritten y.startCluster nentry entry) := by
  unfold writeDirEntry State.entryWritten
  rw [Cmd.bind_ok (nonNull_run p s), Cmd.bind_ok (readFile_run hy), Cmd.get_bind, Cmd.ite_run]
  split
  · rfl
  · rw [Cmd.bind_ok (pwrite_run hio _ _), Cmd.when_neg]
    · rfl
    · rw [Vector.length_toList]
      omega

/-- An update that keeps the start cluster of its file keeps that of every file. -/
theorem State.startCluster_updated (hy : s.files.cell p = some y) (file : Nat) {f : FatFile → FatFile}
    (hf : ∀ x, (f x).startCluster = x.startCluster) :
    ∃ y', (s.updated file f).files.cell p = some y' ∧ y'.startCluster = y.startCluster := by
  by_cases hp : p = file
  · subst hp
    exact ⟨f y, State.cell_updated_self hy f, hf y⟩
  · exact ⟨y, (State.cell_updated_ne hp f).trans hy, rfl⟩

/-- Stamping an entry and writing it to its directory, as the operations on data end. -/
theorem stampAndWrite_run (env : Env) {file : Nat} {x : FatFile} {d : DirEntry} {α : Type}
    (hx : s.files.cell file = some x) (hd : x.dentry = some d) (hy : s.files.cell p = some y)
    (hio : s.IoOk) (fillCreate fillModified : Bool) (a : α) :
    (do
      fillDentryTimeNow env file fillCreate fillModified
      let f ← readFile file
      let entry ← readDentry file
      writeDirEntry (some p) entry f.posInParent
      pure a : M α) s =
      .ok a ((s.ticked.updated file fun x =>
          { x with
            dentry := some (fillDentryTime (env.time s.tick) fillCreate fillModified d) }).entryWritten
        y.startCluster x.posInParent
        (fillDentryTime (env.time s.tick) fillCreate fillModified d)) := by
  have hx' := State.cell_updated_self (s := s.ticked) hx fun x =>
    { x with dentry := some (fillDentryTime (env.time s.tick) fillCreate fillModified d) }
  obtain ⟨y', hy', hstart⟩ := State.startCluster_updated (s := s.ticked) hy file (f := fun x =>
    { x with dentry := some (fillDentryTime (env.time s.tick) fillCreate fillModified d) })
    fun _ => rfl
  rw [Cmd.bind_ok (fillDentryTimeNow_run env hx hd _ _), Cmd.bind_ok (readFile_run hx'),
    Cmd.bind_ok (readDentry_run hx' rfl), Cmd.bind_ok (writeDirEntry_run (hio.ticked.updated file _) hy' _ _),
    hstart]
  rfl

/-- Writing an entry leaves the FAT in memory alone. -/
@[simp] theorem State.table_entryWritten (s : State) (c n : Nat) (e : DirEntry) :
    (s.entryWritten c n e).table = s.table := by
  unfold State.entryWritten
  split <;> rfl

/-- Writing an entry changes no file in memory. -/
@[simp] theorem State.files_entryWritten (s : State) (c n : Nat) (e : DirEntry) :
    (s.entryWritten c n e).files = s.files := by
  unfold State.entryWritten
  split <;> rfl

/-- Writing an entry changes no node. -/
@[simp] theorem State.nodes_entryWritten (s : State) (c n : Nat) (e : DirEntry) :
    (s.entryWritten c n e).nodes = s.nodes := by
  unfold State.entryWritten
  split <;> rfl

/-- Writing an entry leaves the file tree where it is. -/
@[simp] theorem State.fileTree_entryWritten (s : State) (c n : Nat) (e : DirEntry) :
    (s.entryWritten c n e).fileTree = s.fileTree := by
  unfold State.entryWritten
  split <;> rfl

/-- The calls that come after the writing of an entry are carried out whole too. -/
theorem State.IoOk.entryWritten (hio : s.IoOk) (c n : Nat) (e : DirEntry) :
    (s.entryWritten c n e).IoOk := by
  unfold State.entryWritten
  split
  · exact hio
  · exact hio.wrote _ _

/-- Only the first cluster of the directory is written. -/
theorem State.byte_entryWritten (hord : 5 ≤ s.table.clusterOrder) {c n i : Nat} (e : DirEntry)
    (hi : ¬ (s.table.clusterOffset c ≤ i ∧ i < s.table.clusterOffset c + s.table.bytesPerCluster)) :
    (s.entryWritten c n e).dev.byte i = s.dev.byte i := by
  unfold State.entryWritten
  split
  · rfl
  · rename_i hlt
    obtain ⟨m, hm⟩ := FatTable.thirty_two_dvd_bytesPerCluster hord
    refine State.byte_wrote_of_notMem fun ⟨hle, hle'⟩ => hi ⟨by omega, ?_⟩
    rw [Vector.length_toList] at hle'
    omega

end WriteDirEntry

end OsLabs.Fat
