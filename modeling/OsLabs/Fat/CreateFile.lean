import OsLabs.Fat.OpSpec
import OsLabs.Fat.ShortNames

/-! # What a successful creation leaves behind

`fat_fuse_mkdir` and `fat_fuse_mknod` for all results of the device calls. When they return 0, the
first free cluster is marked as the end of a chain, the slot of the directory that its counter names
holds the entry of the new file, the counter is one higher, and no other byte of the data area and no
other file has changed (`Created`, `createFile_created`). -/

namespace OsLabs.Fat

open Cmd

/-! ## Device writes -/

section Writes

variable {s t : State}

/-- What a call of `pwrite` does: it writes a beginning of the data, or it fails with an error
number. -/
structure WriteRun (offset : Nat) (data : List UInt8) (s : State) (n : Int) (t : State) : Prop where
  frame : t = { s with dev := t.dev, io := t.io, errno := t.errno }
  outcome : ∃ k ≤ data.length, t.dev = s.dev.write offset data.length (data.take k) ∧
    ((n = k ∧ t.errno = s.errno) ∨ (n = -1 ∧ t.errno ≠ 0))

/-- What a device call that answers has done. -/
theorem pwrite_ok {data : List UInt8} {offset : Nat} {n : Int}
    (hrun : pwrite data offset s = .ok n t) : WriteRun offset data s n t := by
  unfold pwrite at hrun
  cases hio : s.io with
  | nil =>
      rw [bind_ok (nextIoResult_nil hio)] at hrun
      cases hrun
      refine ⟨rfl, data.length, le_rfl, ?_, .inl ⟨rfl, rfl⟩⟩
      rw [List.take_length]
  | cons r rest =>
      rw [bind_ok (nextIoResult_cons hio)] at hrun
      cases r with
      | full =>
          cases hrun
          refine ⟨rfl, data.length, le_rfl, ?_, .inl ⟨rfl, rfl⟩⟩
          rw [List.take_length]
      | short k =>
          cases hrun
          refine ⟨rfl, (data.take k).length, List.length_take_le' k data, ?_, .inl ⟨rfl, rfl⟩⟩
          rw [List.length_take, ← List.take_eq_take_min]
      | fail e =>
          cases hrun
          refine ⟨rfl, 0, Nat.zero_le _, rfl, .inr ⟨rfl, ?_⟩⟩
          exact ne_of_gt (Int.natCast_succ_pos e)

/-- A write changes the bytes of its range only, whatever part of its data it stores. -/
theorem Device.byte_write_of_notMem (d : Device) {offset k i : Nat} {data : List UInt8}
    (hi : ¬ (offset ≤ i ∧ i < offset + data.length)) :
    (d.write offset data.length (data.take k)).byte i = d.byte i := by
  apply if_neg
  rintro ⟨hle, hlt⟩
  have hlen : (data.take k).length ≤ data.length := List.length_take_le' k data
  exact hi ⟨hle, Nat.lt_of_lt_of_le hlt (Nat.add_le_add_left hlen offset)⟩

/-- An entry of the table was stored without an error. -/
theorem fatTableSetNextCluster_stored {c v : Nat}
    (hrun : fatTableSetNextCluster c v s = .ok ⟨⟩ t) (herrno : t.errno = 0) :
    s.errno = 0 ∧ c < s.table.fatLen ∧ t = { s with dev := t.dev, io := t.io, table := s.table.setEntry c v } ∧
      ∀ i, ¬ (c * 4 % 2 ^ 32 + s.table.fatOffset ≤ i ∧ i < c * 4 % 2 ^ 32 + s.table.fatOffset + 4) →
        t.dev.byte i = s.dev.byte i := by
  unfold fatTableSetNextCluster at hrun
  rw [get_bind] at hrun
  obtain ⟨n, t₁, hwrite, hchecked⟩ := bind_eq_ok.mp hrun
  obtain ⟨hframe, k, hk, hdev, hresult⟩ := pwrite_ok hwrite
  have htable : t₁.table = s.table := by rw [hframe]
  rw [ite_run] at hchecked
  split at hchecked
  · cases hchecked
    exact absurd (show eio = 0 from herrno) (by decide)
  · next hpos =>
      obtain ⟨entry, t₂, hread, hset⟩ := bind_eq_ok.mp hchecked
      obtain ⟨rfl, -, hlt⟩ := readEntry_eq_ok hread
      cases hset
      have hsame : t₂.errno = s.errno := by
        rcases hresult with ⟨-, hsame⟩ | ⟨rfl, -⟩
        · exact hsame
        · exact absurd (by decide) hpos
      rw [htable] at hlt
      refine ⟨hsame.symm.trans herrno, hlt, ?_, fun i hi => ?_⟩
      · rw [hframe, hsame]
      · show t₂.dev.byte i = s.dev.byte i
        rw [hdev]
        exact Device.byte_write_of_notMem _ (by rwa [length_le32Bytes])

/-- The entry of a number in the table lies before the data. -/
theorem FatTable.BeforeData.entry_le {t : FatTable} (h : t.BeforeData) {c : Nat} (hc : c < t.fatLen) :
    c * 4 % 2 ^ 32 + t.fatOffset + 4 ≤ t.dataStartOffset := by
  unfold FatTable.BeforeData at h
  omega

/-- The entry of a cluster lies before the data, also where its position is computed modulo `2 ^
32`. -/
theorem FatTable.LaidOut.entry_le_mod {t : FatTable} (h : t.LaidOut) {c : Nat} (hc : t.IsCluster c) :
    c * 4 % 2 ^ 32 + t.fatOffset + 4 ≤ t.dataStartOffset := by
  have hle := h.entry_le hc
  omega

end Writes

/-! ## The new entry -/

/-- The entry that `fat_file_init_direntry` makes for a path, but for the time stamps: its names are
those of the last component of the path, with the bytes `after` behind it in memory, and it starts at
`cluster`. -/
structure NamedEntry (after : Nat → UInt8) (isDir : Bool) (path : CString) (cluster : Nat)
    (entry : DirEntry) : Prop where
  names : ∃ fields, filenameFromPath (basename path) after DirEntry.zero = .ok fields ∧
    ∀ k < 11, entry.byte k = fields.byte k
  attribs : entry.attribs = if isDir then fileAttributeDirectory else fileAttributeArchive
  startCluster : fileStartCluster entry = cluster

section Entry

variable {s t : State} {env : Env} {isDir : Bool} {path : CString} {cluster : Nat} {entry : DirEntry}

/-- The bytes of an entry that neither the start cluster nor the size occupies. -/
theorem byte_setFirstCluster (e : DirEntry) (c : Nat) {k : Nat} (hk : k < 20) :
    ((setFirstCluster e c).setFileSize 0).byte k = e.byte k := by
  unfold setFirstCluster DirEntry.setFileSize
  rw [DirEntry.byte_setU32, if_neg (by omega), if_neg (by omega), if_neg (by omega), if_neg (by omega),
    DirEntry.byte_setU16_ne _ _ (by omega), DirEntry.byte_setU16_ne _ _ (by omega)]

/-- The first cluster of an entry is the one that was stored. -/
theorem fileStartCluster_setFirstCluster (e : DirEntry) (hc : cluster < 2 ^ 32) :
    fileStartCluster ((setFirstCluster e cluster).setFileSize 0) = cluster := by
  have hlow : ((setFirstCluster e cluster).setFileSize 0).startClusterLow = cluster % 2 ^ 16 := by
    simp [DirEntry.startClusterLow, setFirstCluster, DirEntry.setFileSize, le16OfBytes]
    omega
  have hhigh : ((setFirstCluster e cluster).setFileSize 0).fat32StartClusterHigh = cluster / 2 ^ 16 := by
    simp [DirEntry.fat32StartClusterHigh, setFirstCluster, DirEntry.setFileSize, le16OfBytes]
    omega
  rw [fileStartCluster, hlow, hhigh, Nat.lor_comm, ← Nat.shiftLeft_add_eq_or_of_lt (by omega), Nat.shiftLeft_eq]
  omega

/-- The entry built has the names of the path and the cluster that it was given. -/
theorem fatFileInitDirentry_ok (hc : cluster < 2 ^ 32)
    (hrun : fatFileInitDirentry env isDir path cluster s = .ok entry t) :
    NamedEntry (env.afterString s.tick) isDir path cluster entry := by
  obtain ⟨after, t₁, hask, hrun⟩ := bind_eq_ok.mp hrun
  have hafter : after = env.afterString s.tick := by
    cases hask
    rfl
  rw [← hafter]
  cases hname : filenameFromPath (basename path) after DirEntry.zero with
  | error e =>
      rw [hname] at hrun
      cases hrun
  | ok fields =>
      rw [hname] at hrun
      obtain ⟨now, t₂, htime, hrun⟩ := bind_eq_ok.mp hrun
      obtain ⟨rfl, -⟩ := EStateM.Result.ok.inj hrun
      refine ⟨⟨fields, hname, fun k hk => ?_⟩, ?_, fileStartCluster_setFirstCluster _ hc⟩
      · rw [byte_setFirstCluster _ _ (by omega), DirEntry.byte_fillDentryTime _ _ _ _ (by omega),
          DirEntry.byte_setByte, if_neg (by omega), DirEntry.byte_setByte, if_neg (by omega),
          DirEntry.setAttribs, DirEntry.byte_setByte, if_neg (by omega)]
      · rw [DirEntry.attribs, byte_setFirstCluster _ _ (by omega),
          DirEntry.byte_fillDentryTime _ _ _ _ (by omega), DirEntry.byte_setByte, if_neg (by omega),
          DirEntry.byte_setByte, if_neg (by omega), DirEntry.setAttribs, DirEntry.byte_setByte,
          if_pos (by omega)]
        cases isDir
        · decide
        · decide

end Entry

/-! ## The new file -/

/-- A free cluster below which all entries are in use. -/
theorem freeClusters_head {t : FatTable} {c : Nat} (hc : t.IsValidClusterNumber c) (hlt : c < t.fatLen)
    (hfree : t.fatMap c = fatClusterFree)
    (hmin : ∀ d, 2 ≤ d → d < c → t.fatMap d ≠ fatClusterFree) :
    t.freeClusters.head? = some c := by
  unfold FatTable.freeClusters
  rw [List.head?_filter, List.find?_range_eq_some]
  refine ⟨by simpa using ⟨hc, hfree⟩, List.mem_range.mpr hlt, fun d hdc => ?_⟩
  have hd : ¬ (t.IsValidClusterNumber d ∧ t.fatMap d = fatClusterFree) := fun ⟨hv, h0⟩ => hmin d hv.1 hdc h0
  rw [Bool.not_eq_true', decide_eq_false_iff_not]
  exact hd

/-- The number is the first free cluster, or the end mark that the search returns when the first free entry
of the table is none of a cluster. -/
def FatTable.FirstFree (t : FatTable) (cluster : Nat) : Prop :=
  cluster = fatClusterEndOfChain ∨ t.IsValidClusterNumber cluster ∧ t.freeClusters.head? = some cluster

/-- What `fat_file_init` has done when it returns the file `c`: the file has the entry `entry`, and the
cluster `cluster` that the search found is the end of a chain. -/
structure InitRun (env : Env) (isDir : Bool) (path : CString) (s : State) (c cluster : Nat)
    (entry : DirEntry) (t : State) : Prop where
  address : c = s.files.next
  found : s.table.nextFree = cluster
  first : s.table.FirstFree cluster
  lt_fatLen : cluster < s.table.fatLen
  free : s.table.fatMap cluster = fatClusterFree
  named : NamedEntry (env.afterString s.tick) isDir path cluster entry
  table : t.table = s.table.setEntry cluster fatClusterEndOfChain
  cell : t.files.cell c = some { emptyFile path with
    dentry := some entry
    name := buildFilename entry.baseName entry.extension
    startCluster := cluster }
  kept : ∀ a, a ≠ c → t.files.cell a = s.files.cell a
  byte : ∀ i, ¬ (cluster * 4 % 2 ^ 32 + s.table.fatOffset ≤ i ∧ i < cluster * 4 % 2 ^ 32 + s.table.fatOffset + 4) →
    t.dev.byte i = s.dev.byte i

section Init

variable {s t : State} {env : Env} {isDir : Bool} {path : CString} {c : Nat}

/-- What the search returns. -/
theorem fatTableGetNextFreeCluster_ok {cluster : Nat} (hrun : fatTableGetNextFreeCluster s = .ok cluster t) :
    t = s ∧ s.table.nextFree = cluster ∧ s.table.FirstFree cluster := by
  obtain ⟨heq, hnext⟩ := fatTableGetNextFreeCluster_eq_ok hrun
  refine ⟨heq, hnext.symm, ?_⟩
  unfold fatTableGetNextFreeCluster at hrun
  rw [get_bind] at hrun
  cases hscan : scanFree s.table (s.table.fatLen - 2) 2 with
  | error e =>
      rw [hscan] at hrun
      cases hrun
  | ok d =>
      rw [hscan] at hrun
      obtain ⟨hle, hlt, hfree, hmin⟩ := scanFree_ok hscan
      dsimp only at hrun
      rw [ite_run] at hrun
      split at hrun
      · next hvalid =>
          cases hrun
          exact .inr ⟨hvalid, freeClusters_head hvalid (by omega) hfree hmin⟩
      · cases hrun
        exact .inl rfl

/-- A cluster number is a `u32`. -/
theorem FatTable.FirstFree.lt {cluster : Nat} (h : s.table.FirstFree cluster) : cluster < 2 ^ 32 := by
  rcases h with rfl | ⟨hv, -⟩
  · decide
  · exact Nat.lt_trans hv.2 (Nat.mod_lt _ (Nat.two_pow_pos 32))

/-- With no entry for an end mark, an entry found is that of the first free cluster. -/
theorem FatTable.FirstFree.isCluster {t : FatTable} {cluster : Nat} (h : t.FirstFree cluster) (ht : t.Wf)
    (hlt : cluster < t.fatLen) : t.IsCluster cluster ∧ t.freeClusters.head? = some cluster := by
  rcases h with rfl | ⟨hv, hhead⟩
  · exact absurd hlt (Nat.not_lt_of_le ht.fatLen_le_eoc)
  · exact ⟨(ht.isCluster_iff cluster).mpr ⟨hv, hlt⟩, hhead⟩

/-- A question about the use of a number that has an entry. -/
theorem fatTableIsClusterUsed_ok {cluster : Nat} {used : Bool}
    (hrun : fatTableIsClusterUsed cluster s = .ok used t) :
    t = s ∧ cluster < s.table.fatLen ∧ (used = true ↔ s.table.fatMap cluster ≠ fatClusterFree) := by
  obtain ⟨entry, t₁, hread, hrun⟩ := bind_eq_ok.mp hrun
  obtain ⟨rfl, rfl, hlt⟩ := readEntry_eq_ok hread
  cases hrun
  exact ⟨rfl, hlt, decide_eq_true_iff⟩

/-- What the allocation of a new file has done when it answers with a file. -/
theorem fatFileInit_run (hrun : fatFileInit env isDir path s = .ok (some c) t) :
    ∃ cluster entry, InitRun env isDir path s c cluster entry t := by
  -- a file that is destroyed again is not returned
  have hgivesUp {a : Nat} {v : State} (h : (do fatFileDestroy a; pure none : M Ptr) v =
      .ok (some c) t) : False := by
    obtain ⟨⟨⟩, v', -, hrest⟩ := bind_eq_ok.mp h
    cases hrest
  unfold fatFileInit at hrun
  rw [bind_ok (fatFileInitEmpty_run path s)] at hrun
  obtain ⟨t₁, ht₁⟩ : ∃ t₁ : State, t₁ = { s with store := s.files.alloc (emptyFile path) } := ⟨_, rfl⟩
  have hcell : t₁.files.cell s.files.next = some (emptyFile path) := by
    rw [ht₁]
    exact Heap.cell_alloc_next _ _
  have hkept (a : Nat) (ha : a ≠ s.files.next) : t₁.files.cell a = s.files.cell a := by
    rw [ht₁]
    exact Heap.cell_alloc_ne ha _
  have htable : t₁.table = s.table := by rw [ht₁]
  have hdev : t₁.dev = s.dev := by rw [ht₁]
  rw [← ht₁] at hrun
  obtain ⟨errno, t₂, herrno, hrun⟩ := bind_eq_ok.mp hrun
  cases herrno
  rw [ite_run] at hrun
  split at hrun
  · exact (hgivesUp hrun).elim
  obtain ⟨cluster, t₃, hfree, hrun⟩ := bind_eq_ok.mp hrun
  obtain ⟨heq₃, hfound, hfirst⟩ := fatTableGetNextFreeCluster_ok hfree
  obtain ⟨used, t₄, hused, hrun⟩ := bind_eq_ok.mp hrun
  obtain ⟨heq₄, hlt, hunused⟩ := fatTableIsClusterUsed_ok hused
  rw [heq₄, heq₃] at hrun
  rw [htable] at hfound hfirst
  rw [heq₃, htable] at hlt hunused
  rw [ite_run] at hrun
  split at hrun
  · obtain ⟨⟨⟩, t₅, -, hrun⟩ := bind_eq_ok.mp hrun
    exact (hgivesUp hrun).elim
  next hfalse =>
  have hfree : s.table.fatMap cluster = fatClusterFree := not_not.mp fun hne => hfalse (hunused.mpr hne)
  obtain ⟨entry, t₅, hentry, hrun⟩ := bind_eq_ok.mp hrun
  have hlook := (within_initDirentry env isDir path cluster).ok hentry
  have hnamed := fatFileInitDirentry_ok hfirst.lt hentry
  have htick : t₁.tick = s.tick := by rw [ht₁]
  rw [htick] at hnamed
  have htable₅ : t₅.table = s.table := hlook.table.trans htable
  have hcell₅ : t₅.files.cell s.files.next = some (emptyFile path) := by
    rw [hlook.files]
    exact hcell
  rw [bind_ok (updateFile_run hcell₅ _)] at hrun
  obtain ⟨⟨⟩, t₆, hmark, hrun⟩ := bind_eq_ok.mp hrun
  obtain ⟨errno, t₇, herrno, hrun⟩ := bind_eq_ok.mp hrun
  cases herrno
  rw [ite_run] at hrun
  split at hrun
  · exact (hgivesUp hrun).elim
  next hzero =>
  cases hrun
  have hzero : t.errno = 0 := not_not.mp hzero
  generalize hv : t₅.updated s.files.next _ = v at hmark
  obtain ⟨-, -, hframe₆, hbyte₆⟩ := fatTableSetNextCluster_stored hmark hzero
  have htable₆ : t.table = v.table.setEntry cluster fatClusterEndOfChain := by rw [hframe₆]
  have hfiles₆ : t.files = v.files := by
    rw [hframe₆]
    rfl
  subst hv
  refine ⟨cluster, entry, rfl, hfound, hfirst, hlt, hfree, hnamed, ?_, ?_, fun a ha => ?_, fun i hi => ?_⟩
  · rw [htable₆]
    exact congrArg (FatTable.setEntry · cluster fatClusterEndOfChain) htable₅
  · rw [hfiles₆, State.cell_updated_self hcell₅, hnamed.startCluster]
  · rw [hfiles₆, State.cell_updated_ne ha, hlook.files]
    exact hkept a ha
  · rw [hbyte₆ i (by rw [← htable₅] at hi; exact hi)]
    show t₅.dev.byte i = s.dev.byte i
    rw [hlook.dev, hdev]

end Init

/-! ## The entry in the directory -/

/-- The entry that `fat_file_dentry_add_child` stores for a file with this name: the log is hidden. -/
def storedEntry (name : List UInt8) (entry : DirEntry) : DirEntry :=
  if cstr name = fsLogName then (entry.setBaseName0 deletedMark).setAttribs fileAttributeSystem
  else entry

/-- Entry `nentry` of the directory `y` was written without an error, and nothing else. -/
structure EntryStored (y : FatFile) (entry : DirEntry) (nentry : Nat) (s t : State) : Prop where
  fits : nentry * 32 < s.table.bytesPerCluster
  frame : t = { s with dev := t.dev, io := t.io }
  dev : t.dev = s.dev.write (nentry * 32 + s.table.clusterOffset y.startCluster) 32 entry.toList

section AddChild

variable {s t u : State} {p c nentry : Nat} {x y : FatFile} {entry : DirEntry}

/-- An entry written with no error number behind it was stored. -/
theorem writeDirEntry_stored (hy : s.files.cell p = some y)
    (hrun : writeDirEntry (some p) entry nentry s = .ok ⟨⟩ t) (hzero : t.errno = 0) :
    EntryStored y entry nentry s t ∧ s.errno = 0 := by
  unfold writeDirEntry at hrun
  rw [bind_ok (nonNull_run p s), bind_ok (readFile_run hy), get_bind, ite_run] at hrun
  split at hrun
  · cases hrun
    exact absurd (show enospc = 0 from hzero) (by decide)
  next hfits =>
    obtain ⟨n, t₁, hwrite, hrun⟩ := bind_eq_ok.mp hrun
    obtain ⟨hframe, k, hk, hdev, hresult⟩ := pwrite_ok hwrite
    by_cases hshort : 0 ≤ n ∧ n < 32
    · rw [when_pos hshort] at hrun
      cases hrun
      exact absurd (show eio = 0 from hzero) (by decide)
    · rw [when_neg hshort] at hrun
      cases hrun
      rw [Vector.length_toList] at hk hdev
      obtain ⟨rfl, herrno⟩ := hresult.resolve_right fun h => h.2 hzero
      obtain rfl : k = 32 := by omega
      have hall : entry.toList.take 32 = entry.toList :=
        List.take_of_length_le (by rw [Vector.length_toList])
      rw [hall] at hdev
      refine ⟨⟨Nat.lt_of_not_le hfits, ?_, hdev⟩, herrno.symm.trans hzero⟩
      rw [hframe, herrno]

/-- What `fat_file_dentry_add_child` has done when `errno` is 0 at the end. -/
structure ChildAdded (p c : Nat) (x y : FatFile) (entry : DirEntry) (s u : State) : Prop where
  fits : y.nentries * 32 < s.table.bytesPerCluster
  table : u.table = s.table
  dev : u.dev = s.dev.write (y.nentries * 32 + s.table.clusterOffset y.startCluster) 32
    (storedEntry x.name entry).toList
  child : u.files.cell c =
    some { x with dentry := some (storedEntry x.name entry), posInParent := y.nentries }
  parent : u.files.cell p = some { y with nentries := (y.nentries + 1) % 2 ^ 32 }
  kept : ∀ a, a ≠ p → a ≠ c → u.files.cell a = s.files.cell a

/-- A child added with no error number behind it is in its slot, and is counted. -/
theorem fatFileDentryAddChild_added (hne : p ≠ c) (hx : s.files.cell c = some x)
    (hd : x.dentry = some entry) (hy : s.files.cell p = some y)
    (hrun : fatFileDentryAddChild (some p) (some c) s = .ok ⟨⟩ u) (hzero : u.errno = 0) :
    ChildAdded p c x y entry s u := by
  unfold fatFileDentryAddChild at hrun
  rw [bind_ok (nonNull_run p s), bind_ok (readFile_run hy), bind_ok (nonNull_run c s),
    bind_ok (readFile_run hx)] at hrun
  obtain ⟨⟨⟩, v, hhide, hrun⟩ := bind_eq_ok.mp hrun
  -- the log is hidden first
  have hv : v.files.cell c = some { x with dentry := some (storedEntry x.name entry) } ∧
      (∀ a, a ≠ c → v.files.cell a = s.files.cell a) ∧ v.table = s.table ∧ v.dev = s.dev := by
    unfold storedEntry
    split_ifs with hlog
    · rw [when_pos hlog, updateDentry_run hx hd] at hhide
      cases hhide
      exact ⟨State.cell_updated_self hx _, fun a ha => State.cell_updated_ne ha _, rfl, rfl⟩
    · rw [when_neg hlog] at hhide
      cases hhide
      refine ⟨?_, fun _ _ => rfl, rfl, rfl⟩
      rw [hx, ← hd]
  obtain ⟨hvc, hva, hvtable, hvdev⟩ := hv
  have hvp : v.files.cell p = some y := (hva p hne).trans hy
  rw [bind_ok (readDentry_run hvc rfl)] at hrun
  obtain ⟨⟨⟩, w, hwrite, hrun⟩ := bind_eq_ok.mp hrun
  obtain ⟨errno, w', herrno, hrun⟩ := bind_eq_ok.mp hrun
  cases herrno
  by_cases hw : w.errno = 0
  · rw [when_pos hw] at hrun
    obtain ⟨hstored, -⟩ := writeDirEntry_stored hvp hwrite hw
    have hfiles : w.files = v.files := by
      rw [hstored.frame]
      rfl
    have htable : w.table = v.table := by rw [hstored.frame]
    rw [← hfiles] at hvc hvp
    rw [bind_ok (updateFile_run hvc _)] at hrun
    have hwp := (State.cell_updated_ne (s := w) hne fun f => { f with posInParent := y.nentries }).trans hvp
    rw [bind_ok (nonNull_run p _), updateFile_run hwp] at hrun
    cases hrun
    have hfits := hstored.fits
    have hdev := hstored.dev
    rw [hvtable] at hfits
    rw [hvdev, hvtable] at hdev
    refine ⟨hfits, htable.trans hvtable, hdev, ?_, State.cell_updated_self hwp _, fun a hap hac => ?_⟩
    · rw [State.cell_updated_ne (Ne.symm hne), State.cell_updated_self hvc]
    · rw [State.cell_updated_ne hap, State.cell_updated_ne hac, hfiles, hva a hac]
  · rw [when_neg hw] at hrun
    cases hrun
    exact absurd hzero hw

end AddChild

/-! ## The whole creation -/

/-- The device position of the slot of the directory `y` that is written next. -/
def nextSlot (t : FatTable) (y : FatFile) : Nat := y.nentries * 32 + t.clusterOffset y.startCluster

/-- What a creation that returned 0 has done: `c` is the new file, `d` the entry of the directory and
`y` its file. -/
structure Created (env : Env) (isDir : Bool) (path : CString) (s : State) (d : TreeEntry) (y : FatFile)
    (c cluster : Nat) (entry : DirEntry) (u : State) : Prop where
  directory : ∃ q, s.treeEntry q = some d
  path_eq : d.path = dirname path
  isDirectory : d.isDir = true
  dirFile : s.files.cell d.file = some y
  fresh : s.files.next ≤ c
  found : s.table.nextFree = cluster
  first : s.table.FirstFree cluster
  lt_fatLen : cluster < s.table.fatLen
  free : s.table.fatMap cluster = fatClusterFree
  named : NamedEntry (env.afterString s.tick) isDir path cluster entry
  fits : y.nentries * 32 < s.table.bytesPerCluster
  table : u.table = s.table.setEntry cluster fatClusterEndOfChain
  byte : ∀ i, ¬ (cluster * 4 % 2 ^ 32 + s.table.fatOffset ≤ i ∧ i < cluster * 4 % 2 ^ 32 + s.table.fatOffset + 4) →
    u.dev.byte i = if nextSlot s.table y ≤ i ∧ i < nextSlot s.table y + 32 then
      (storedEntry (buildFilename entry.baseName entry.extension) entry).byte (i - nextSlot s.table y)
    else s.dev.byte i
  child : u.files.cell c = some { emptyFile path with
    dentry := some (storedEntry (buildFilename entry.baseName entry.extension) entry)
    name := buildFilename entry.baseName entry.extension
    startCluster := cluster
    posInParent := y.nentries }
  parent : u.files.cell d.file = some { y with nentries := (y.nentries + 1) % 2 ^ 32 }
  kept : ∀ a, a < s.files.next → a ≠ d.file → u.files.cell a = s.files.cell a
  node : ¬ HasPath s.treeEntry path → ∃ a e, u.treeEntry a = some e ∧ e.path = path ∧ e.file = c

section Create

variable {s u : State} {env : Env} {isDir : Bool} {path : CString}

/-- A creation that returns 0. -/
theorem createFile_created {GivesUp : Int → Prop} [DecidablePred GivesUp] (hgives : ¬ GivesUp 0)
    (hwf : s.TreeWf) (hrun : createFile env isDir GivesUp path s = .ok 0 u) :
    ∃ d y c cluster entry, Created env isDir path s d y c cluster entry u := by
  cases createFile_run hwf hrun with
  | refused e error _ result =>
      rcases error with rfl | rfl
      · exact absurd result (by decide)
      · exact absurd result (by decide)
  | givenUp newFile _ gives result =>
      have herrno : u.errno = 0 := by omega
      rw [herrno] at gives
      exact absurd gives hgives
  | created q c d t v hd hpath hdir init _ insert add result =>
      have hk₀ : KeepsEntries s { s with errno := 0 } := keepsEntries_of_eq rfl rfl rfl
      obtain ⟨cluster, entry, hinit⟩ := fatFileInit_run (s := { s with errno := 0 }) init
      obtain ⟨hk, hnew⟩ := fatFileInit_ok init
      have hw := (hnew c rfl).waiting hk (hk₀.treeWf hwf)
      obtain ⟨p, tr, hok⟩ := (hk₀.trans hk).treeWf hwf
      obtain ⟨⟨nodes, root, hv⟩, hinserted⟩ :=
        fatTreeInsert_ok hok hinit.cell rfl hw.outside insert
      have hvfiles : v.files = t.files := by rw [hv]; rfl
      have hvtable : v.table = t.table := by rw [hv]
      have hvdev : v.dev = t.dev := by rw [hv]
      -- the directory is older than the new file
      obtain ⟨node, y, -, hy, rfl⟩ := treeEntry_eq_some hd
      have hlt : node.data < s.files.next := Heap.lt_next hy
      have hne : node.data ≠ c := by
        rw [hinit.address]
        exact Nat.ne_of_lt hlt
      have hyt : v.files.cell node.data = some y := by
        rw [hvfiles, hinit.kept _ hne]
        exact hy
      have hct := hinit.cell
      rw [← hvfiles] at hct
      have hadd := fatFileDentryAddChild_added hne hct rfl hyt add (by omega)
      have hsame : FatTable.SameVolume s.table v.table := by
        rw [hvtable, hinit.table]
        exact .setEntry _ _ _
      have hfits := hadd.fits
      have hdev := hadd.dev
      have hparent := hadd.parent
      rw [hsame.bytesPerCluster] at hfits
      rw [hvdev, hsame.clusterOffset] at hdev
      refine ⟨_, y, c, cluster, entry, ⟨q, hd⟩, hpath, hdir, hy, ?_, hinit.found, hinit.first,
        hinit.lt_fatLen, hinit.free, hinit.named, hfits, ?_, fun i hi => ?_, hadd.child, hparent, fun a ha hne' => ?_,
        fun hno => ?_⟩
      · exact Nat.le_of_eq hinit.address.symm
      · rw [hadd.table, hvtable, hinit.table]
      · have hlen : (storedEntry (buildFilename entry.baseName entry.extension) entry).toList.length =
            32 := Vector.length_toList
        rw [hdev, ← hinit.byte i hi]
        show (if nextSlot s.table y ≤ i ∧ i < nextSlot s.table y + List.length _ then _ else _) = _
        rw [hlen]
        rfl
      · have hac : a ≠ c := by
          rw [hinit.address]
          exact Nat.ne_of_lt ha
        rw [hadd.kept a hne' hac, hvfiles, hinit.kept a hac]
        rfl
      · obtain ⟨hhas, -⟩ | ⟨-, -, hvwf, htable⟩ := hinserted
        · rw [(hk₀.trans hk).treeEntry_eq hwf] at hhas
          exact absurd hhas hno
        · have hnode : ∃ e, v.treeEntry t.nodes.next = some e ∧ e.path = path ∧ e.file = c := by
            rw [htable, insertedEntry, Function.update_self]
            exact ⟨_, rfl, rfl, rfl⟩
          obtain ⟨e, he, hepath, hefile⟩ := hnode
          obtain ⟨-, -, hself⟩ := fatFileDentryAddChild_treeEntry hvwf add
          obtain ⟨b, hb⟩ := hself _ e he hefile
          exact ⟨_, _, hb, hepath, hefile⟩

end Create

end OsLabs.Fat
