import OsLabs.Fat.CreatedEntry
import OsLabs.Fat.FuseStore
import OsLabs.Fat.TableCopies
import OsLabs.Fat.Unmount

/-! # Unmounting and mounting again

What the program has in memory is gone when it ends; the next mount starts from the bytes of the device.
`remount_finds` says that nothing is lost in between: after any run of reads and writes through handles, each within
its limits, the volume can be unmounted and mounted again, and reading the root directory then finds every file that
a listing of it found before the run, with the entry it had in memory at the end and the content it was left with. -/

namespace OsLabs.Fat

open Cmd Transition

/-! ## The boot sector -/

section Boot

variable {buf buf' : Nat → UInt8}

/-- Two bytes give the same number. -/
theorem le16OfBytes_congr (h : ∀ i < 2, buf' i = buf i) : le16OfBytes buf' = le16OfBytes buf := by
  unfold le16OfBytes
  rw [h 0 (by decide), h 1 (by decide)]

/-- A field of two bytes depends on the boot sector. -/
theorem bootU16_congr (h : ∀ i < 128, buf' i = buf i) {i : Nat} (hi : i + 1 < 128) :
    bootU16 buf' i = bootU16 buf i := by
  unfold bootU16
  exact le16OfBytes_congr fun k hk => h _ (by omega)

/-- A field of four bytes depends on the boot sector. -/
theorem bootU32_congr (h : ∀ i < 128, buf' i = buf i) {i : Nat} (hi : i + 3 < 128) :
    bootU32 buf' i = bootU32 buf i := by
  unfold bootU32
  exact le32OfBytes_congr fun k hk => h _ (by omega)

/-- `read_boot_sector` depends on the 128 bytes it reads. -/
theorem readBootSector_congr (h : ∀ i < 128, buf' i = buf i) : readBootSector buf' = readBootSector buf := by
  have hu8 (i : Nat) (hi : i < 128) : bootU8 buf' i = bootU8 buf i := congrArg UInt8.toNat (h i hi)
  have hdos : readDos20Bpb buf' = readDos20Bpb buf := by
    unfold readDos20Bpb
    rw [bootU16_congr h (by decide : 11 + 1 < 128), bootU16_congr h (by decide : 14 + 1 < 128),
      bootU16_congr h (by decide : 17 + 1 < 128), bootU16_congr h (by decide : 19 + 1 < 128),
      bootU16_congr h (by decide : 22 + 1 < 128), hu8 13 (by decide), hu8 16 (by decide)]
  have hebpb (vol : BootInfo) : readFat32Ebpb vol buf' = readFat32Ebpb vol buf := by
    unfold readFat32Ebpb
    rw [bootU32_congr h (by decide : 36 + 3 < 128), bootU16_congr h (by decide : 42 + 1 < 128),
      bootU32_congr h (by decide : 44 + 3 < 128), bootU16_congr h (by decide : 48 + 1 < 128)]
  simp only [readBootSector, hdos, hebpb]

end Boot

/-! ## Mounting -/

/-- The state of a volume that was mounted from a device with the boot sector `boot`: the root directory is there,
and nothing else. -/
structure FreshMount (boot : BootInfo) (image : Nat → UInt8) (io : List IoResult) (v : State) : Prop where
  dev : v.dev = ⟨image, []⟩
  table : v.table = tableOfBoot boot image
  io : v.io = io
  root : ∃ x, v.files.cell 0 = some x ∧ x.startCluster = boot.rootDirStartCluster ∧ x.filepath = rootPath

/-- The root directory gets an entry, whatever follows its empty name in memory. -/
theorem fatFileInitDirentry_root (env : Env) (c : Nat) (s : State) :
    ∃ e, fatFileInitDirentry env true rootPath c s = .ok e s.ticked.ticked := by
  -- the empty name of the root directory has no dot
  have hname (after : Nat → UInt8) : ∃ e, filenameFromPath (basename rootPath) after DirEntry.zero = .ok e := by
    have hdot : strrchr (basename rootPath) dot = none := by decide
    unfold filenameFromPath
    simp only [hdot, ne_eq, not_true_eq_false, false_and, if_false]
    split_ifs
    · exact ⟨_, rfl⟩
    · exact ⟨_, rfl⟩
  obtain ⟨e, he⟩ := hname (env.afterString s.tick)
  unfold fatFileInitDirentry
  rw [bind_ok (ask_run _ s)]
  simp only [he]
  rw [bind_ok (ask_run _ _)]
  exact ⟨_, rfl⟩

/-- A device with a boot sector that is accepted can be mounted. -/
theorem fatVolumeMount_run (env : Env) {image : Nat → UInt8} {boot : BootInfo} (io : List IoResult)
    (h : readBootSector image = some boot) :
    ∃ v, fatVolumeMount env image io = some v ∧ FreshMount boot image io v := by
  obtain ⟨e, he⟩ := fatFileInitDirentry_root env boot.rootDirStartCluster
    (bareState (tableOfBoot boot image) image io)
  have hinit : ∃ v, initFileTree env boot.rootDirStartCluster (bareState (tableOfBoot boot image) image io) =
      .ok ⟨⟩ v ∧ FreshMount boot image io v := by
    unfold initFileTree
    rw [bind_ok he]
    exact ⟨_, rfl, rfl, rfl, rfl, _, rfl, rfl, rfl⟩
  obtain ⟨v, hrun, hv⟩ := hinit
  refine ⟨v, ?_, hv⟩
  unfold fatVolumeMount
  rw [h, Option.bind_eq_bind, Option.bind_some, hrun]

/-! ## The same device, the same table -/

/-- The volume `v` was mounted from the device that `t` was left with. -/
structure SameDevice (t v : State) : Prop where
  byte : v.dev.byte = t.dev.byte
  sameVolume : t.table.SameVolume v.table
  fatMap : ∀ c, t.table.IsCluster c → v.table.fatMap c = t.table.fatMap c

section Same

variable {t v : State} {l : List Nat} {c i : Nat}

/-- A chain is one of the mounted volume. -/
theorem SameDevice.isChain (h : SameDevice t v) (hl : t.table.IsChain c l) : v.table.IsChain c l :=
  hl.congr h.sameVolume fun d hd => h.fatMap d (hl.isCluster d hd)

/-- The data of a chain are those of the mounted volume. -/
theorem SameDevice.chainBytes (h : SameDevice t v) (l : List Nat) : chainBytes v l = chainBytes t l :=
  chainBytes_congr h.sameVolume fun c _ i _ => by rw [h.byte]

/-- The entries of a cluster are those of the mounted volume. -/
theorem SameDevice.clusterEntry (h : SameDevice t v) (c i : Nat) : v.clusterEntry c i = t.clusterEntry c i := by
  unfold State.clusterEntry
  simp only [h.byte, h.sameVolume.clusterOffset]

/-- A listing returns the same entries. -/
theorem SameDevice.returned (h : SameDevice t v) (p : Nat × Nat) : v.returned p = t.returned p := by
  have hreached (c i : Nat) : v.Reached c i ↔ t.Reached c i := by
    unfold State.Reached
    simp only [h.clusterEntry]
  simp only [State.returned, hreached, h.clusterEntry]

/-- A table whose entries fit into 32 bits is read back from its copy on the device. -/
theorem State.Mirrored.sameDevice {boot : BootInfo} (hm : t.Mirrored) (hbound : ∀ c, t.table.fatMap c < 2 ^ 32)
    (htable : (tableOfBoot boot t.dev.byte).SameVolume t.table) {io : List IoResult}
    (hv : FreshMount boot t.dev.byte io v) : SameDevice t v := by
  refine ⟨?_, hv.table ▸ htable.symm, fun c hc => ?_⟩
  · rw [hv.dev]
    rfl
  · have hentry : ∀ k < 4, t.dev.byte (t.table.fatOffset + 4 * c + k) = le32Byte (t.table.fatMap c) k := by
      intro k hk
      have hdisk := congrArg (fun l => l.getD k 0) (hm c hc)
      simpa [State.diskEntry, le32Byte, hk] using hdisk
    rw [hv.table, ← le32OfBytes_le32Byte (hbound c)]
    show le32OfBytes (fun k => t.dev.byte ((tableOfBoot boot t.dev.byte).fatOffset + 4 * c + k)) = _
    rw [← htable.fatOffset]
    exact le32OfBytes_congr hentry

end Same

/-! ## Entries that are found again -/

section Entries

variable {e e' : DirEntry}

/-- Entries of one file have the same attributes. -/
theorem DirEntry.SameFile.attribs (h : e.SameFile e') : e.attribs = e'.attribs := by
  unfold DirEntry.attribs
  rw [h 11 (by decide)]

/-- Entries of one file have the same name. -/
theorem DirEntry.SameFile.name (h : e.SameFile e') : ∀ k < 11, e.byte k = e'.byte k := fun k hk => h k (by omega)

/-- The entries have children, or neither has one. -/
theorem DirEntry.SameFile.yields_iff (h : e.SameFile e') : e.Yields ↔ e'.Yields := by
  have hzero := h 0 (by decide)
  have hrestored : ∀ k < 11, (e.setBaseName0 102).byte k = (e'.setBaseName0 102).byte k := by
    intro k hk
    simp only [DirEntry.setBaseName0, DirEntry.byte_setByte, h k (by omega)]
  unfold DirEntry.Yields DirEntry.HiddenLog DirEntry.Ignored DirEntry.MarkedSystem
  rw [h.attribs, hzero, fileBasenameValid_congr h.name, fileExtensionValid_congr h.name,
    buildFilename_congr hrestored]

/-- Entries of one file have the same first cluster. -/
theorem DirEntry.SameFile.fileStartCluster (h : e.SameFile e') : fileStartCluster e = fileStartCluster e' := by
  have hlow : e.startClusterLow = e'.startClusterLow := le16OfBytes_congr fun i hi => h _ (by omega)
  have hhigh : e.fat32StartClusterHigh = e'.fat32StartClusterHigh :=
    le16OfBytes_congr fun i hi => h _ (by omega)
  unfold OsLabs.Fat.fileStartCluster
  rw [hlow, hhigh]

/-- The file that a listing makes starts where the entry says. -/
theorem startCluster_childOf (x : FatFile) (e : DirEntry) (i : Nat) :
    (e.childOf x i).startCluster = fileStartCluster e := by
  show fileStartCluster (if e.Ignored then e.setBaseName0 102 else e) = fileStartCluster e
  split_ifs
  · unfold fileStartCluster DirEntry.startClusterLow DirEntry.fat32StartClusterHigh le16OfBytes
    simp [DirEntry.setBaseName0]
  · rfl

end Entries

/-! ## Files that are found again -/

/-- A listing of the directory that starts with the cluster `c` returns for the file the entry that it has in memory,
and the entry leads to the data of the file. -/
def ListedFrom (s : State) (file c : Nat) : Prop :=
  ∃ x d, s.files.cell file = some x ∧ x.dentry = some d ∧ s.returned (c, x.posInParent) = some d ∧
    fileStartCluster d = x.startCluster

/-- The volume was mounted with the boot sector `boot`, which lies before the table, and `q` is the root directory. -/
structure MountedWith (boot : BootInfo) (live : Set Nat) (q : Nat) (s : State) : Prop where
  sector : readBootSector s.dev.byte = some boot
  table : (tableOfBoot boot s.dev.byte).SameVolume s.table
  behind : 128 ≤ s.table.fatOffset
  bounded : ∀ c, s.table.fatMap c < 2 ^ 32
  root_live : q ∈ live
  root : DirectoryStarts s q boot.rootDirStartCluster

section Found

variable {env : Env} {boot : BootInfo} {s t u v : State} {live unread : Set Nat} {file q c : Nat} {x y : FatFile}
  {d : DirEntry} {l : List Nat}

/-- A step that preserves the volume keeps what a mount needs. -/
theorem MountedWith.kept (h : MountedWith boot live q s) (hp : Preserves live s t) : MountedWith boot live q t where
  sector := by
    have hbehind := h.behind
    rw [readBootSector_congr fun i hi => hp.boot i (by omega), h.sector]
  table := by
    have hsame : (tableOfBoot boot t.dev.byte).SameVolume (tableOfBoot boot s.dev.byte) := rfl
    exact hsame.trans (h.table.trans hp.sameVolume)
  behind := by
    rw [hp.sameVolume.fatOffset]
    exact h.behind
  bounded := hp.bounded h.bounded
  root_live := h.root_live
  root := hp.directory q h.root_live _ h.root

/-- What a listing returned for a file, it still returns. -/
theorem ListedFrom.kept (h : ListedFrom s file c) (hp : Preserves live s t) (hq : q ∈ live)
    (hc : DirectoryStarts s q c) (ht : t.table.Wf) (hf : FileOnVolume t file q x y d l) :
    t.returned (c, x.posInParent) = some d ∧ fileStartCluster d = x.startCluster := by
  obtain ⟨x₀, d₀, hx₀, hd₀, hreturned, hstart₀⟩ := h
  obtain ⟨x', hx', hstart, hpos⟩ := hp.place file x₀ hx₀
  cases hf.cell.symm.trans hx'
  obtain ⟨hreached, hyields, hentry⟩ := returned_eq_some.mp hreturned
  obtain rfl : y.startCluster = c := by
    obtain ⟨w, e, hw, -, -, hwc⟩ := hp.directory q hq c hc
    cases hf.parent_cell.symm.trans hw
    exact hwc
  have hB := hp.sameVolume.bytesPerCluster
  obtain ⟨k, hk⟩ := ht.thirty_two_dvd
  have hslot := hf.slot
  have hname (j : Nat) (hj : j ≤ x.posInParent) :
      (t.clusterEntry y.startCluster j).SameFile (s.clusterEntry y.startCluster j) :=
    hp.slot q hq _ hc j (by omega)
  -- the entry on the device is the one in memory
  have hdisk : t.clusterEntry y.startCluster x.posInParent = d := by
    refine DirEntry.ext_byte fun i hi => ?_
    rw [byte_clusterEntry hi, ← hf.onDisk i hi]
    congr 1
    omega
  -- the slots before it are no end marks, and its own is still for the same file
  have hsame := hname x.posInParent le_rfl
  rw [← hpos] at hreached hyields hentry
  refine ⟨returned_eq_some.mpr ⟨fun j hj hend => hreached j hj ?_, hsame.yields_iff.mpr hyields, hdisk⟩, ?_⟩
  · exact (hname j (by omega) 0 (by decide)).symm.trans hend
  · rw [← hdisk, hsame.fileStartCluster, hentry, hstart₀, hstart]

/-- Reading the root directory of the new mount finds the file, with its entry and its content. -/
theorem SameDevice.finds (h : SameDevice t v) (ht : t.table.Wf) (hio : v.IoOk) {x₀ : FatFile}
    (hx₀ : v.files.cell 0 = some x₀) (hl : t.table.IsChain x₀.startCluster l) :
    ∃ cs w, fatFileReadChildren env 0 v = .ok cs w ∧
      ∀ file x y d m bytes, FileOnVolume t file q x y d m → y.startCluster = x₀.startCluster →
        t.returned (x₀.startCluster, x.posInParent) = some d → fileStartCluster d = x.startCluster →
        HasContent t file bytes → ∃ a ∈ cs, w.entry a = t.entry file ∧ HasContent w a bytes := by
  have hchain := h.isChain hl
  obtain ⟨cs, w, -, hrun, -, -, hlisted⟩ :=
    fatFileReadChildren_run env hio hx₀ hchain.start.isValid hchain.chain_cluster? hchain.lt_fatLen
  refine ⟨cs, w, hrun, fun file x y d m bytes hf hy hreturned hstart hbytes => ?_⟩
  have hslot := hf.slot
  obtain ⟨k, hk⟩ := ht.thirty_two_dvd
  have hB := h.sameVolume.bytesPerCluster
  -- the slot of the file is one of the directory, and the listing goes on to it
  have hmem : ((x₀.startCluster, x.posInParent), d) ∈ v.listing l := by
    refine mem_tagged.mpr ⟨mem_slots.mpr ⟨hchain.start_mem, ?_⟩, (h.returned _).trans hreturned⟩
    show x.posInParent < v.table.bytesPerCluster / 32
    omega
  have hchild : some (d.childOf x₀ x.posInParent) ∈ cs.map w.files.cell := by
    rw [hlisted.made, childrenOf_listing, List.map_map]
    exact List.mem_map_of_mem hmem
  -- the file that was made for it has its entry and starts where its chain does
  obtain ⟨a, ha, hcell⟩ := List.mem_map.mp hchild
  refine ⟨a, ha, ?_, _, d, hcell, rfl, m, ?_, ?_, ?_⟩
  · rw [State.entry, State.entry, hcell, hf.cell, Option.bind_some, Option.bind_some, hf.entry]
    rfl
  · rw [startCluster_childOf, hstart, hlisted.table]
    exact (h.isChain hf.chain).start.isValid
  · rw [startCluster_childOf, hstart, hlisted.table]
    exact (h.isChain hf.chain).chain
  · rw [hf.content_eq hbytes, ← h.chainBytes m]
    exact congrArg (List.take d.fileSize)
      (chainBytes_congr (by rw [hlisted.table]; exact .refl _) fun c _ i _ => by rw [hlisted.dev]).symm

/-- **What was written is found after the next mount.** Let the handles lead to files of a volume that stores `A` and
that was mounted with the boot sector `boot`. After any run of reads and writes through them, each within its limits,
the volume can be unmounted and its device mounted again. Reading the root directory then finds every file of it that a
listing returned before the run: with the directory entry that it had in memory when the volume was unmounted, and
with the content that the store with a log has for it. -/
theorem remount_finds {dir : Nat → Nat} {U : Nat → List UInt8} {H : Handles} {A : LogStore.Contents Nat}
    (h : LoggedVolume s live unread dir U H A) (hboot : MountedWith boot live q s) {calls : List FuseCall}
    (hnodes : ∀ call ∈ calls, call.handle ∈ H.nodes)
    (hfits : Meets (FuseCall.step env) (fun _ s call => FuseFits env H s call) [] s calls) (ret : Int) :
    ∃ evs t B u v cs w, exec (FuseCall.step env) [] s calls = some (evs, t) ∧
      Accepted (LogStore.Step H.file H.log (H.message env)) A evs B ∧ fatVolumeUnmount ret t = .ok ret u ∧
      fatVolumeMount env u.dev.byte u.io = some v ∧ fatFileReadChildren env 0 v = .ok cs w ∧
      ∀ file bytes, B.bytes file = some bytes → dir file = q → ListedFrom s file boot.rootDirStartCluster →
        ∃ a ∈ cs, w.entry a = t.entry file ∧ HasContent w a bytes := by
  obtain ⟨evs, t, B, hrun, hevs, ht, hp⟩ := h.run hnodes hfits
  have hbootT := hboot.kept hp
  obtain ⟨u, hunmount, hreleased⟩ := fatVolumeUnmount_run ht.treeWf ret
  have hdev : u.dev.byte = t.dev.byte := by rw [hreleased.device]
  obtain ⟨v, hmount, hfresh⟩ := fatVolumeMount_run env u.io (hdev ▸ hbootT.sector)
  rw [hdev] at hfresh
  have hsame := ht.stores.mirrored.sameDevice hbootT.bounded hbootT.table hfresh
  have hio : v.IoOk := by
    intro r hr
    rw [hfresh.io, hreleased.io] at hr
    exact ht.stores.ioOk r hr
  obtain ⟨x₀, hx₀, hstart₀, -⟩ := hfresh.root
  -- the root directory is read along the chain that it had
  obtain ⟨y₀, e₀, hy₀, -, -, hstart⟩ := hbootT.root
  obtain ⟨l, hl⟩ := ht.stores.volume.chains.exists_isChain _ (.inl ⟨q, hbootT.root_live, y₀, hy₀, rfl⟩)
  rw [hstart, ← hstart₀] at hl
  obtain ⟨cs, w, hread, hfinds⟩ := hsame.finds (q := q) ht.stores.volume.table hio hx₀ hl
  refine ⟨evs, t, B, u, v, cs, w, hrun, hevs, hunmount, hmount, hread, fun file bytes hbytes hdir hlisted => ?_⟩
  obtain ⟨x, y, d, m, hf⟩ := ht.stores.file file (by rw [hbytes]; rfl)
  rw [hdir] at hf
  obtain ⟨hreturned, hfirst⟩ := hlisted.kept hp hboot.root_live hboot.root ht.stores.volume.table hf
  cases hf.parent_cell.symm.trans hy₀
  exact hfinds file x y₀ d m bytes hf (hstart.trans hstart₀.symm) (hstart₀ ▸ hreturned) hfirst
    (ht.stores.content file bytes hbytes)

end Found

/-! ## The volume with two files -/

/-- What `read_boot_sector` reads from the header. -/
def twoFilesBoot : BootInfo where
  bytesPerSector := 32
  sectorOrder := 5
  sectorsPerCluster := 2
  sectorsPerClusterOrder := 1
  clusterOrder := 6
  reservedSectors := 4
  numTables := 1
  maxRootEntries := 0
  totalSectors := 16
  sectorsPerFat := 1
  version := 0
  rootDirStartCluster := 2
  fsInfoSector := 0
  numDataClusters := 6

/-- The volume with two files was mounted from its boot sector. -/
theorem twoFiles_mountedWith : MountedWith twoFilesBoot {0, 1, 2} 0 twoFiles where
  sector := by decide +kernel
  table := rfl
  behind := Nat.le_refl _
  bounded c := by
    show (if c = 2 ∨ c = 3 ∨ c = 4 then fatClusterEndOfChain else fatClusterFree) < 2 ^ 32
    split_ifs <;> decide
  root_live := .inl rfl
  root := ⟨_, _, rfl, rfl, by decide, rfl⟩

/-- A listing of the root returns both files. -/
theorem twoFiles_listed {file : Nat} (h : file = 1 ∨ file = 2) : ListedFrom twoFiles file 2 := by
  rcases h with rfl | rfl
  · exact ⟨_, hiddenEntry, rfl, rfl, by decide +kernel, by decide +kernel⟩
  · exact ⟨_, secondEntry, rfl, rfl, by decide +kernel, by decide +kernel⟩

/-- A write to the second file is there after the next mount. -/
theorem remount_finds_twoFiles : ∃ evs t u v cs w,
    exec (FuseCall.step quietEnv) [] twoFiles [.write 2 [1, 2, 3] 0] = some (evs, t) ∧
      fatVolumeUnmount 0 t = .ok 0 u ∧ fatVolumeMount quietEnv u.dev.byte u.io = some v ∧
      fatFileReadChildren quietEnv 0 v = .ok cs w ∧
      ∃ a ∈ cs, w.entry a = t.entry 2 ∧ HasContent w a [1, 2, 3] := by
  have hfits : Meets (FuseCall.step quietEnv) (fun _ s call => FuseFits quietEnv twoHandles s call) [] twoFiles
      [.write 2 [1, 2, 3] 0] := by
    decide +kernel
  have hnodes : ∀ call ∈ [FuseCall.write 2 [1, 2, 3] 0], call.handle ∈ twoHandles.nodes := by
    simp [FuseCall.handle, twoHandles]
  have hevents : (exec (FuseCall.step quietEnv) [] twoFiles [.write 2 [1, 2, 3] 0]).map Prod.fst =
      some [.written 2 [1, 2, 3] 0 3] := by
    decide +kernel
  obtain ⟨evs, t, B, u, v, cs, w, hrun, hevs, hunmount, hmount, hread, hfinds⟩ :=
    remount_finds twoFiles_logged twoFiles_mountedWith hnodes hfits 0
  rw [hrun, Option.map_some, Option.some.injEq] at hevents
  -- the store with a log has the bytes, after its only step
  have hB : B.bytes 2 = some [1, 2, 3] := by
    rw [show evs = _ from hevents] at hevs
    cases hevs with
    | cons hstep hrest =>
        cases hrest
        generalize he : LogStore.Event.written 2 [1, 2, 3] 0 3 = e at hstep
        cases hstep with
        | read => cases he
        | nothing => cases he
        | behind => simp [eoverflow] at he
        | written hfile _ _ _ _ _ hlogged =>
            obtain ⟨rfl, rfl, rfl, -⟩ := LogStore.Event.written.inj he
            cases hlogged
            rfl
  exact ⟨evs, t, u, v, cs, w, hrun, hunmount, hmount, hread,
    hfinds 2 [1, 2, 3] hB rfl (twoFiles_listed (.inr rfl))⟩

end OsLabs.Fat
