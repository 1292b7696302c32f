import OsLabs.Fat.FileChange
import OsLabs.Fat.ReadDirectory
import OsLabs.Lib.Simulation

/-! # The files of a volume as a store of byte arrays

What reading, writing and truncating files is for: every file has an array of bytes of its own
(`FileStore.Step`). `fileCalls_refine` says that any run of `fat_file_pread`, `fat_file_pwrite` and
`fat_file_truncate` on the files of a volume, each call within its limits (`Fits`), returns what the store
returns, and that afterwards the files hold the contents of the store, in memory and on the device: the table and
the directory entries there are those in memory (`VolumeStores`). -/

namespace OsLabs.Fat

open Transition

/-! ## The store -/

namespace FileStore

variable {F : Type}

/-- What a call on a file reports. -/
inductive Event (F : Type)
  | read (file : F) (size offset : Nat) (bytes : List UInt8)
  | written (file : F) (buf : List UInt8) (offset : Nat) (count : Int)
  | truncated (file : F) (offset : Nat)
  deriving DecidableEq

/-- What may happen to the contents of the files. -/
inductive Step [DecidableEq F] (A : F → Option (List UInt8)) : Event F → (F → Option (List UInt8)) → Prop
  | read {file : F} {bytes : List UInt8} (h : A file = some bytes) (size offset : Nat) :
      Step A (.read file size offset ((bytes.drop offset).take size)) A
  | written {file : F} {bytes : List UInt8} (h : A file = some bytes) (buf : List UInt8) {offset : Nat}
      (hoff : offset ≤ bytes.length) : Step A (.written file buf offset buf.length)
        (Function.update A file (some (overwrite bytes offset buf)))
  | truncated {file : F} {bytes : List UInt8} (h : A file = some bytes) (offset : Nat) :
      Step A (.truncated file offset) (Function.update A file (some (bytes.take offset)))

end FileStore

/-! ## Calls -/

/-- A call on a file. -/
inductive FileCall
  | pread (file : Nat) (mem : Int → UInt8) (size offset : Nat)
  | pwrite (file : Nat) (buf : List UInt8) (offset : Nat)
  | truncate (file offset : Nat)

/-- The file of a call. -/
def FileCall.file : FileCall → Nat
  | .pread file _ _ _ | .pwrite file _ _ | .truncate file _ => file

/-- Make a call; `dir` has the directories of the files. -/
def FileCall.step (env : Env) (dir : Nat → Nat) (s : State) :
    FileCall → Option (State × List (FileStore.Event Nat))
  | .pread file mem size offset =>
      match fatFilePread env file mem size offset (some (dir file)) s with
      | .ok (r, mem') t => some (t, [.read file size offset (memBytes mem' 0 r.toNat)])
      | .error _ _ => none
  | .pwrite file buf offset =>
      match fatFilePwrite env file buf offset (some (dir file)) s with
      | .ok r t => some (t, [.written file buf offset r])
      | .error _ _ => none
  | .truncate file offset =>
      match fatFileTruncate env file offset (some (dir file)) s with
      | .ok _ t => some (t, [.truncated file offset])
      | .error _ _ => none

/-- The number of clusters in the chain of a start cluster. -/
def FatTable.chainLength (t : FatTable) (startCluster : Nat) : Nat :=
  (visited t.next t.fatLen (some startCluster)).length

/-- The limits of a call on a file with an entry: reads and writes start within the file, writes end within the
clusters the file has after one was allocated ahead, and truncations give back a cluster or do nothing. -/
def Fits.On (t : FatTable) (x : FatFile) (d : DirEntry) : FileCall → Prop
  | .pread _ _ _ offset => offset ≤ d.fileSize
  | .pwrite _ buf offset =>
      offset ≤ d.fileSize ∧ offset / t.bytesPerCluster < t.chainLength x.startCluster ∧
        (offset / t.bytesPerCluster + 1 < t.chainLength x.startCluster ∨ 0 < t.freeClusters.length) ∧
        (buf.length = 0 ∨ (offset + buf.length - 1) / t.bytesPerCluster <
          max (t.chainLength x.startCluster) (offset / t.bytesPerCluster + 2)) ∧
        offset + buf.length < 2 ^ 32
  | .truncate _ offset => d.fileSize ≤ offset ∨ t.clustersOf offset < t.clustersOf d.fileSize

instance (t : FatTable) (x : FatFile) (d : DirEntry) : (call : FileCall) → Decidable (Fits.On t x d call)
  | .pread _ _ _ _ => inferInstanceAs (Decidable (_ ≤ _))
  | .pwrite _ _ _ => inferInstanceAs (Decidable (_ ∧ _))
  | .truncate _ _ => inferInstanceAs (Decidable (_ ∨ _))

/-- A call is made within its limits. -/
def Fits (s : State) (call : FileCall) : Prop :=
  ∃ x ∈ s.files.cell call.file, ∃ d ∈ x.dentry, Fits.On s.table x d call

instance (s : State) (call : FileCall) : Decidable (Fits s call) :=
  inferInstanceAs (Decidable (∃ x ∈ s.files.cell call.file, ∃ d ∈ x.dentry, Fits.On s.table x d call))

/-! ## Files in memory and on the device -/

/-- The regular file `file`, with the chain `l`, in a directory `p` whose first cluster has its entry. -/
structure FileOnVolume (s : State) (file p : Nat) (x y : FatFile) (d : DirEntry) (l : List Nat) : Prop where
  cell : s.files.cell file = some x
  entry : x.dentry = some d
  regular : ¬ d.IsDirectory
  parent_cell : s.files.cell p = some y
  parent_directory : ∃ e, y.dentry = some e ∧ e.IsDirectory
  chain : s.table.IsChain x.startCluster l
  covers : s.table.clustersOf d.fileSize ≤ l.length
  slot : x.posInParent * 32 < s.table.bytesPerCluster
  onDisk : ∀ i < 32, s.dev.byte (x.posInParent * 32 + s.table.clusterOffset y.startCluster + i) = d.byte i

/-- The volume stores the contents `A`, and the data `U` in the chains of the files not read yet. -/
structure VolumeStores (s : State) (live unread : Set Nat) (dir : Nat → Nat) (U : Nat → List UInt8)
    (A : Nat → Option (List UInt8)) : Prop where
  volume : VolumeWf s live unread
  ioOk : s.IoOk
  errno : s.errno = 0
  mirrored : s.Mirrored
  isLive : ∀ file, (A file).isSome → file ∈ live ∧ dir file ∈ live
  file : ∀ file, (A file).isSome → ∃ x y d l, FileOnVolume s file (dir file) x y d l
  content : ∀ file bytes, A file = some bytes → HasContent s file bytes
  slots : ∀ file g, (A file).isSome → (A g).isSome → g ≠ file → dir g = dir file → ∀ x z,
    s.files.cell file = some x → s.files.cell g = some z → z.posInParent ≠ x.posInParent
  unreadData : ∀ c ∈ unread, ∀ l, s.table.IsChain c l → chainBytes s l = U c

/-- The same name, attributes and first cluster: the entries differ in times and size only. -/
def DirEntry.SameFile (e e' : DirEntry) : Prop :=
  ∀ i, i < 14 ∨ 20 ≤ i ∧ i < 22 ∨ 26 ≤ i ∧ i < 28 → e.byte i = e'.byte i

/-- A time stamp leaves the entry one of the same file. -/
theorem DirEntry.sameFile_fillDentryTime (now : Int) (fillCreate fillModified : Bool) (e : DirEntry) :
    (fillDentryTime now fillCreate fillModified e).SameFile e :=
  fun _ hi => byte_fillDentryTime _ _ _ _ (by omega)

/-- A new size leaves the entry one of the same file. -/
theorem DirEntry.sameFile_setFileSize (e : DirEntry) (v : Nat) : (e.setFileSize v).SameFile e := by
  intro i hi
  rw [setFileSize, byte_setU32, if_neg (by omega), if_neg (by omega), if_neg (by omega), if_neg (by omega)]

/-- The entry that `fat_file_pwrite` writes is one of the same file. -/
theorem sameFile_pwrittenEntry (now : Int) (d : DirEntry) (endOffset : Nat) :
    (pwrittenEntry now d endOffset).SameFile d := by
  intro i hi
  rw [pwrittenEntry, DirEntry.sameFile_fillDentryTime _ _ _ _ i hi]
  split_ifs
  · exact d.sameFile_setFileSize _ i hi
  · rfl

/-- A byte of a slot. -/
theorem byte_clusterEntry {s : State} {c i j : Nat} (hj : j < 32) :
    (s.clusterEntry c i).byte j = s.dev.byte (s.table.clusterOffset c + (32 * i + j)) := by
  simp [State.clusterEntry, DirEntry.byte, hj]

/-- The directory `q` has the first cluster `c`. -/
def DirectoryStarts (s : State) (q c : Nat) : Prop :=
  ∃ w e, s.files.cell q = some w ∧ w.dentry = some e ∧ e.IsDirectory ∧ w.startCluster = c

/-- The directory of a file. -/
theorem FileOnVolume.directoryStarts {s : State} {file p : Nat} {x y : FatFile} {d : DirEntry} {l : List Nat}
    (hf : FileOnVolume s file p x y d l) : DirectoryStarts s p y.startCluster := by
  obtain ⟨e, he, hdir⟩ := hf.parent_directory
  exact ⟨y, e, hf.parent_cell, he, hdir, rfl⟩

/-- What finds the files again after the volume was mounted anew stayed from `s` to `t`: the bytes before the table,
the directories, the places of the files, and what the slots of the first clusters of the directories are for. -/
structure Preserves (live : Set Nat) (s t : State) : Prop extends Intact s t where
  sameVolume : s.table.SameVolume t.table
  directory : ∀ q ∈ live, ∀ c, DirectoryStarts s q c → DirectoryStarts t q c
  place : ∀ file x, s.files.cell file = some x → ∃ x', t.files.cell file = some x' ∧
    x'.startCluster = x.startCluster ∧ x'.posInParent = x.posInParent
  slot : ∀ q ∈ live, ∀ c, DirectoryStarts s q c → ∀ i < s.table.bytesPerCluster / 32,
    (t.clusterEntry c i).SameFile (s.clusterEntry c i)

namespace Preserves

variable {live : Set Nat} {s t u : State}

/-- Doing nothing preserves everything. -/
theorem refl (live : Set Nat) (s : State) : Preserves live s s :=
  ⟨⟨fun _ _ => rfl, id⟩, .refl _, fun _ _ _ => id, fun _ x hx => ⟨x, hx, rfl, rfl⟩, fun _ _ _ _ _ _ _ _ => rfl⟩

/-- Asking for the time changes nothing on the volume. -/
theorem ticked (live : Set Nat) (s : State) : Preserves live s s.ticked :=
  ⟨⟨fun _ _ => rfl, id⟩, .refl _, fun _ _ _ => id, fun _ x hx => ⟨x, hx, rfl, rfl⟩, fun _ _ _ _ _ _ _ _ => rfl⟩

/-- What each of two steps preserves, both preserve. -/
theorem trans (h : Preserves live s t) (h' : Preserves live t u) : Preserves live s u := by
  refine ⟨⟨fun i hi => (h'.boot i (by rwa [h.sameVolume.fatOffset])).trans (h.boot i hi), h'.bounded ∘ h.bounded⟩,
    h.sameVolume.trans h'.sameVolume, fun q hq c hc => h'.directory q hq c (h.directory q hq c hc),
    fun file x hx => ?_, fun q hq c hc i hi j hj => ?_⟩
  · obtain ⟨x', hx', hstart, hpos⟩ := h.place file x hx
    obtain ⟨x'', hx'', hstart', hpos'⟩ := h'.place file x' hx'
    exact ⟨x'', hx'', hstart'.trans hstart, hpos'.trans hpos⟩
  · rw [h'.slot q hq c (h.directory q hq c hc) i (by rwa [h.sameVolume.bytesPerCluster]) j hj]
    exact h.slot q hq c hc i hi j hj

end Preserves

section Effects

variable {s s₁ : State} {live unread : Set Nat} {dir : Nat → Nat} {U : Nat → List UInt8}
  {A : Nat → Option (List UInt8)} {file p : Nat} {x y : FatFile} {d d' : DirEntry} {l l' : List Nat}

/-! ### Stamping an entry -/

/-- Stamping a file leaves the FAT alone. -/
theorem table_stamped (s : State) (file : Nat) (x y : FatFile) (d : DirEntry) :
    (s.stamped file x y d).table = s.table := State.table_entryWritten _ _ _ _

/-- The stamped file has its new entry. -/
theorem cell_stamped_self (hx : s.files.cell file = some x) (y : FatFile) (d : DirEntry) :
    (s.stamped file x y d).files.cell file = some { x with dentry := some d } := by
  unfold State.stamped
  rw [State.files_entryWritten]
  exact State.cell_updated_self (s := s.ticked) hx _

/-- The other files are not touched. -/
theorem cell_stamped_ne {g : Nat} (hg : g ≠ file) (x y : FatFile) (d : DirEntry) :
    (s.stamped file x y d).files.cell g = s.files.cell g := by
  unfold State.stamped
  rw [State.files_entryWritten]
  exact State.cell_updated_ne (s := s.ticked) hg _

/-- An entry with a slot in the first cluster of its directory is written. -/
theorem stamped_eq (hslot : x.posInParent * 32 < s.table.bytesPerCluster) (file : Nat) (y : FatFile)
    (d : DirEntry) : s.stamped file x y d = (s.ticked.updated file fun x => { x with dentry := some d }).wrote
      (x.posInParent * 32 + s.table.clusterOffset y.startCluster) d.toList := if_neg (Nat.not_le.mpr hslot)

/-- Stamping writes one slot inside the directory and sets no error number. -/
theorem errno_stamped (hslot : x.posInParent * 32 < s.table.bytesPerCluster) (file : Nat) (y : FatFile)
    (d : DirEntry) : (s.stamped file x y d).errno = s.errno := by
  rw [stamped_eq hslot]
  rfl

/-- Only the slot of the entry is written. -/
theorem byte_stamped (hslot : x.posInParent * 32 < s.table.bytesPerCluster) (file : Nat) (y : FatFile)
    (d : DirEntry) (i : Nat) : (s.stamped file x y d).dev.byte i =
      if x.posInParent * 32 + s.table.clusterOffset y.startCluster ≤ i ∧
          i < x.posInParent * 32 + s.table.clusterOffset y.startCluster + 32 then
        d.toList.getD (i - (x.posInParent * 32 + s.table.clusterOffset y.startCluster)) 0
      else s.dev.byte i := by
  have hlen : d.toList.length = 32 := Vector.length_toList
  rw [stamped_eq hslot]
  show (s.dev.write _ d.toList.length d.toList).byte i = _
  rw [Device.byte_write, hlen]

/-- The data outside the first cluster of the directory is not. -/
theorem byte_stamped_ne (hord : 5 ≤ s.table.clusterOrder) (file : Nat) (x : FatFile) (d : DirEntry) {c i : Nat}
    (hc : s.table.IsValidClusterNumber c) (hy : s.table.IsValidClusterNumber y.startCluster)
    (hcy : c ≠ y.startCluster) (hi : i < s.table.bytesPerCluster) :
    (s.stamped file x y d).dev.byte (s.table.clusterOffset c + i) = s.dev.byte (s.table.clusterOffset c + i) := by
  refine State.byte_entryWritten (s := s.ticked.updated file _) hord _ fun ⟨hle, hlt⟩ => hcy ?_
  change s.table.clusterOffset y.startCluster ≤ _ at hle
  change _ < s.table.clusterOffset y.startCluster + s.table.bytesPerCluster at hlt
  exact (FatTable.clusterOffset_disjoint hc hy hi
    (show s.table.clusterOffset c + i - s.table.clusterOffset y.startCluster < s.table.bytesPerCluster by omega)
    (by omega)).1

/-! ### One file changes -/

/-- Writing to the file at an offset it reaches. -/
theorem FileOnVolume.writeTarget (hf : FileOnVolume s file p x y d l) (hv : VolumeWf s live unread)
    (hfile : file ∈ live) (hp : p ∈ live) {offset : Nat} (hoff : offset ≤ d.fileSize)
    (hreaches : offset / s.table.bytesPerCluster + 1 ≤ l.length) :
    WriteTarget s live unread file p x y d l offset where
  volume := hv
  file_live := hfile
  parent_live := hp
  cell := hf.cell
  entry := hf.entry
  regular := hf.regular
  parent_cell := hf.parent_cell
  parent_directory := hf.parent_directory
  chain := hf.chain
  covers := (FatTable.clustersOf_le_iff _).mp hf.covers |>.2
  reaches := hreaches
  offset_le := hoff

/-- A change of one file and its chain, with the entry stamped. -/
structure FileChanged (s : State) (live unread : Set Nat) (file p : Nat) (x y : FatFile) (d d' : DirEntry)
    (l l' : List Nat) (s₁ : State) : Prop where
  target : WriteTarget s live unread file p x y d l 0
  at_file : FileOnVolume s file p x y d l
  changed : ChainChanged x.startCluster l l' s s₁
  attribs : d'.attribs = d.attribs
  covers : s.table.clustersOf d'.fileSize ≤ l'.length

namespace FileChanged

variable (h : FileChanged s live unread file p x y d d' l l' s₁)

include h

/-- The step in between changes no file in memory. -/
theorem files_eq : s₁.files = s.files := by
  rw [h.changed.frame]
  rfl

/-- The slot of the file still lies in the first cluster of its directory. -/
theorem slot : x.posInParent * 32 < s₁.table.bytesPerCluster := by
  rw [h.changed.sameVolume.bytesPerCluster]
  exact h.at_file.slot

/-- The file has the entry that was written for it. -/
theorem cell_self : (s₁.stamped file x y d').files.cell file = some { x with dentry := some d' } :=
  cell_stamped_self (by rw [h.files_eq, h.at_file.cell]) y d'

/-- The other files are as they were. -/
theorem cell_ne {g : Nat} (hg : g ≠ file) : (s₁.stamped file x y d').files.cell g = s.files.cell g := by
  rw [cell_stamped_ne hg, h.files_eq]

/-- Every file starts where it did. -/
theorem cell_start {g c : Nat} : (∃ f, (s₁.stamped file x y d').files.cell g = some f ∧ f.startCluster = c) ↔
    ∃ f, s.files.cell g = some f ∧ f.startCluster = c := by
  by_cases hg : g = file
  · subst hg
    rw [h.cell_self, h.at_file.cell]
    simp
  · rw [h.cell_ne hg]

/-- The chains begin where they began. -/
theorem starts_eq : (s₁.stamped file x y d').starts live = s.starts live := by
  ext c
  exact exists_congr fun g => and_congr_right fun _ => h.cell_start

/-- The directory keeps its first cluster. -/
theorem parent_start : s.table.IsValidClusterNumber y.startCluster ∧ y.startCluster ∉ l' := by
  obtain ⟨hvalid, hnot, hused⟩ := h.target.parent_start
  exact ⟨hvalid, fun hmem => hused (h.changed.free _ hmem hnot)⟩

/-- Outside the chain of the file and the first cluster of the directory, no data changes. -/
theorem byte_eq {c i : Nat} (hc : s.table.IsValidClusterNumber c) (hcl : c ∉ l') (hcy : c ≠ y.startCluster)
    (hi : i < s.table.bytesPerCluster) : (s₁.stamped file x y d').dev.byte (s.table.clusterOffset c + i) =
      s.dev.byte (s.table.clusterOffset c + i) := by
  have hv := h.changed.sameVolume
  have hstamped := byte_stamped_ne (hv.wf h.target.volume.table).order_ge file x d' ((hv.isValid_iff c).mpr hc)
    ((hv.isValid_iff _).mpr h.parent_start.1) hcy (by rwa [hv.bytesPerCluster])
  rw [hv.clusterOffset] at hstamped
  rw [hstamped, h.changed.byte c hc hcl i hi]

/-- The other chains stay, and so do their clusters. -/
theorem chain_kept {c : Nat} (hc : c ∈ s.starts live ∪ unread) (hcx : c ≠ x.startCluster) {m : List Nat}
    (hm : s.table.IsChain c m) : m.Disjoint l' ∧ (s₁.stamped file x y d').table.IsChain c m := by
  have hdisj := h.target.volume.chains.disjoint c hc _ h.target.start_mem hcx m l hm h.at_file.chain
  refine ⟨fun e hem hel => ?_, ?_⟩
  · exact hm.allocated e hem (h.changed.free e hel fun hel' => hdisj hem hel')
  · rw [table_stamped]
    exact hm.congr h.changed.sameVolume fun e he =>
      h.changed.fatMap e (fun hel => hdisj he hel) (hm.allocated e he)

/-- The data of the other chains stays, but for the directory. -/
theorem chainBytes_kept {c : Nat} (hc : c ∈ s.starts live ∪ unread) (hcx : c ≠ x.startCluster)
    (hcy : c ≠ y.startCluster) {m : List Nat} (hm : s.table.IsChain c m) :
    chainBytes (s₁.stamped file x y d') m = chainBytes s m := by
  have hdisj := (h.chain_kept hc hcx hm).1
  apply chainBytes_congr
  · rw [table_stamped]
    exact h.changed.sameVolume
  · intro e he i hi
    refine h.byte_eq (hm.isValid e he) (fun hel => hdisj he hel) ?_ hi
    rintro rfl
    obtain ⟨k, hk⟩ := h.target.volume.chains.exists_isChain _ h.target.parent_start_mem
    exact h.target.volume.chains.disjoint c hc _ h.target.parent_start_mem hcy m k hm hk he hk.start_mem

/-- The file is no directory. -/
theorem directory_ne {q c : Nat} (hc : DirectoryStarts s q c) : q ≠ file := by
  rintro rfl
  obtain ⟨w, e, hw, he, hdir, -⟩ := hc
  cases hw.symm.trans h.at_file.cell
  cases he.symm.trans h.at_file.entry
  exact h.at_file.regular hdir

/-- A directory starts with a cluster that is not the file's. -/
theorem directory_start {q c : Nat} (hq : q ∈ live) (hc : DirectoryStarts s q c) :
    s.table.IsValidClusterNumber c ∧ c ∉ l' := by
  have hqf := h.directory_ne hc
  obtain ⟨w, e, hw, -, -, rfl⟩ := hc
  have hv := h.target.volume
  have hstart : w.startCluster ∈ s.starts live ∪ unread := .inl ⟨q, hq, w, hw, rfl⟩
  obtain ⟨n, hn⟩ := hv.chains.exists_isChain _ hstart
  refine ⟨hn.start.isValid, fun hmem => (h.chain_kept hstart (fun heq => hqf ?_) hn).1 hn.start_mem hmem⟩
  exact hv.distinct q hq file h.target.file_live w x hw h.at_file.cell heq

/-- The stamp is written behind the table. -/
theorem byte_before {i : Nat} (hi : i < s.table.dataStartOffset) :
    (s₁.stamped file x y d').dev.byte i = s₁.dev.byte i := by
  have hsame := h.changed.sameVolume
  have hoff := FatTable.clusterOffset_eq ((hsame.isValid_iff _).mpr h.parent_start.1)
  rw [hsame.dataStartOffset] at hoff
  rw [byte_stamped h.slot, if_neg (by omega)]

/-- What finds the files again stays. -/
theorem preserves (hintact : Intact s s₁) (hname : d'.SameFile d) :
    Preserves live s (s₁.stamped file x y d') := by
  have hsame := h.changed.sameVolume
  have ht := h.target.volume.table
  refine ⟨⟨fun i hi => ?_, ?_⟩, by rwa [table_stamped], fun q hq c hc => ?_, fun g z hz => ?_,
    fun q hq c hc i hi j hj => ?_⟩
  · -- the boot sector lies before the table, and the stamp behind it
    have hbefore := ht.before_data
    rw [h.byte_before (by omega), hintact.boot i hi]
  · rw [table_stamped]
    exact hintact.bounded
  · have hqf := h.directory_ne hc
    obtain ⟨w, e, hw, he⟩ := hc
    exact ⟨w, e, by rw [h.cell_ne hqf, hw], he⟩
  · by_cases hg : g = file
    · subst hg
      cases hz.symm.trans h.at_file.cell
      exact ⟨_, h.cell_self, rfl, rfl⟩
    · exact ⟨z, by rw [h.cell_ne hg, hz], rfl, rfl⟩
  · obtain ⟨hvalid, hcl⟩ := h.directory_start hq hc
    have hcap := Nat.div_mul_le_self s.table.bytesPerCluster 32
    have hin : 32 * i + j < s.table.bytesPerCluster := by omega
    rw [byte_clusterEntry (by omega), byte_clusterEntry (by omega), table_stamped, hsame.clusterOffset]
    by_cases hcy : c = y.startCluster
    · subst hcy
      rw [byte_stamped h.slot, hsame.clusterOffset]
      split_ifs with hcase
      · -- the slot of the file itself
        obtain rfl : i = x.posInParent := by omega
        have hdisk := h.at_file.onDisk j (by omega)
        rw [show s.table.clusterOffset y.startCluster + (32 * x.posInParent + j) =
          x.posInParent * 32 + s.table.clusterOffset y.startCluster + j by omega, hdisk, ← hname j hj,
          Nat.add_sub_cancel_left]
        rfl
      · exact h.changed.byte _ hvalid hcl _ hin
    · exact h.byte_eq hvalid hcl hcy hin

/-- The volume stays well formed. -/
theorem volume : VolumeWf (s₁.stamped file x y d') live unread := by
  have hv := h.target.volume
  have hsame := h.changed.sameVolume
  refine ⟨?_, fun g hg => ?_, fun g hg e he hdir => ?_, fun g hg g' hg' f f' hf hf' heq => ?_, ?_, ?_⟩
  · rw [table_stamped]
    exact hsame.wf hv.table
  · by_cases hgf : g = file
    · subst hgf
      exact ⟨_, d', h.cell_self, rfl⟩
    · rw [h.cell_ne hgf]
      exact hv.entry g hg
  · by_cases hgf : g = file
    · subst hgf
      rw [State.entry, h.cell_self, Option.bind_some, Option.some.injEq] at he
      subst he
      refine absurd ?_ h.at_file.regular
      unfold DirEntry.IsDirectory at hdir ⊢
      rwa [← h.attribs]
    · rw [State.entry, h.cell_ne hgf] at he
      exact hv.directory g hg e he hdir
  · obtain ⟨z, hz, hzc⟩ := h.cell_start.mp ⟨f, hf, heq⟩
    obtain ⟨z', hz', hzc'⟩ := h.cell_start.mp ⟨f', hf', rfl⟩
    exact hv.distinct g hg g' hg' z z' hz hz' (hzc.trans hzc'.symm)
  · rw [h.starts_eq]
    exact hv.unread_disjoint
  · rw [h.starts_eq, table_stamped]
    exact hv.chains.replace h.target.start_mem h.at_file.chain h.changed.isChain hsame h.changed.fatMap
      h.changed.free

/-- The table on the device is set along. -/
theorem mirrored (hs : s.Mirrored) : (s₁.stamped file x y d').Mirrored := by
  have hsame := h.changed.sameVolume
  have ht₁ := hsame.laidOut h.target.volume.table.toLaidOut
  intro c hc
  rw [table_stamped] at hc ⊢
  rw [← h.changed.mirrored hs c hc]
  exact diskEntry_congr ht₁ hc (by rw [table_stamped]; exact .refl _) fun i hi =>
    h.byte_before (by rwa [← hsame.dataStartOffset])

/-- The file itself after the change. -/
theorem at_self : FileOnVolume (s₁.stamped file x y d') file p { x with dentry := some d' } y d' l' where
  cell := h.cell_self
  entry := rfl
  regular := by
    have hregular := h.at_file.regular
    unfold DirEntry.IsDirectory at hregular ⊢
    rwa [h.attribs]
  parent_cell := by
    rw [h.cell_ne h.target.parent_ne]
    exact h.at_file.parent_cell
  parent_directory := h.at_file.parent_directory
  chain := by
    rw [table_stamped]
    exact h.changed.isChain
  covers := by
    rw [table_stamped, FatTable.clustersOf, h.changed.sameVolume.bytesPerCluster]
    exact h.covers
  slot := by
    rw [table_stamped]
    exact h.slot
  onDisk i hi := by
    rw [table_stamped, byte_stamped h.slot, if_pos ⟨Nat.le_add_right _ _, Nat.add_lt_add_left hi _⟩,
      Nat.add_sub_cancel_left]
    rfl

/-- The other files after the change. -/
theorem at_other {g q : Nat} {z w : FatFile} {e : DirEntry} {m : List Nat} (hg : FileOnVolume s g q z w e m)
    (hne : g ≠ file) (hlive : g ∈ live) (hq : q ∈ live) (hslot : q = p → z.posInParent ≠ x.posInParent) :
    FileOnVolume (s₁.stamped file x y d') g q z w e m where
  cell := by rw [h.cell_ne hne, hg.cell]
  entry := hg.entry
  regular := hg.regular
  parent_cell := by
    rw [h.cell_ne (h.directory_ne hg.directoryStarts), hg.parent_cell]
  parent_directory := hg.parent_directory
  chain := by
    refine (h.chain_kept (.inl ⟨g, hlive, z, hg.cell, rfl⟩) (fun heq => hne ?_) hg.chain).2
    exact h.target.volume.distinct g hlive file h.target.file_live z x hg.cell h.at_file.cell heq
  covers := by
    rw [table_stamped, FatTable.clustersOf, h.changed.sameVolume.bytesPerCluster]
    exact hg.covers
  slot := by
    rw [table_stamped, h.changed.sameVolume.bytesPerCluster]
    exact hg.slot
  onDisk i hi := by
    have hv := h.target.volume
    obtain ⟨k, hk⟩ := hv.table.thirty_two_dvd
    have hxslot := h.at_file.slot
    have hzslot := hg.slot
    have hin : z.posInParent * 32 + i < s.table.bytesPerCluster := by omega
    obtain ⟨hvalid, hnot⟩ := h.directory_start hq hg.directoryStarts
    have hpos : z.posInParent * 32 + s.table.clusterOffset w.startCluster + i =
        s.table.clusterOffset w.startCluster + (z.posInParent * 32 + i) := by omega
    have hdisk := hg.onDisk i hi
    rw [hpos] at hdisk
    rw [table_stamped, h.changed.sameVolume.clusterOffset, hpos, ← hdisk]
    by_cases hqp : q = p
    · -- another slot of the same directory
      subst hqp
      cases hg.parent_cell.symm.trans h.at_file.parent_cell
      have hother := hslot rfl
      rw [byte_stamped h.slot, h.changed.sameVolume.clusterOffset, if_neg (by omega),
        h.changed.byte _ hvalid hnot _ hin]
    · refine h.byte_eq hvalid hnot (fun heq => hqp ?_) hin
      exact hv.distinct q hq p h.target.parent_live w y hg.parent_cell h.at_file.parent_cell heq

/-- The content of the other files. -/
theorem content_other {g q : Nat} {z w : FatFile} {e : DirEntry} {m : List Nat} (hg : FileOnVolume s g q z w e m)
    (hne : g ≠ file) (hlive : g ∈ live) {bytes : List UInt8} (hb : HasContent s g bytes) :
    HasContent (s₁.stamped file x y d') g bytes := by
  have hv := h.target.volume
  obtain ⟨f, e', hf, he', k, hvalid, hk, rfl⟩ := hb
  cases hg.cell.symm.trans hf
  cases hg.entry.symm.trans he'
  obtain rfl := hk.unique hg.chain.chain
  have hstart : z.startCluster ∈ s.starts live ∪ unread := .inl ⟨g, hlive, z, hg.cell, rfl⟩
  -- the chain of another file is neither that of the file nor that of the directory
  have hzx : z.startCluster ≠ x.startCluster := fun heq =>
    hne (hv.distinct g hlive file h.target.file_live z x hg.cell h.at_file.cell heq)
  have hzy : z.startCluster ≠ y.startCluster := fun heq => by
    obtain ⟨a, ha, hdir⟩ := h.at_file.parent_directory
    obtain rfl := hv.distinct g hlive p h.target.parent_live z y hg.cell h.at_file.parent_cell heq
    cases hg.cell.symm.trans h.at_file.parent_cell
    obtain rfl := Option.some.inj (ha.symm.trans hg.entry)
    exact hg.regular hdir
  have hchain := (h.chain_kept hstart hzx hg.chain).2
  refine ⟨z, e, by rw [h.cell_ne hne, hg.cell], hg.entry, k, hchain.start.isValid, hchain.chain, ?_⟩
  rw [h.chainBytes_kept hstart hzx hzy hg.chain]

end FileChanged

/-- What the volume stores after a change of one file. -/
theorem VolumeStores.changes (h : VolumeStores s live unread dir U A) (hfile : (A file).isSome)
    (hch : FileChanged s live unread file (dir file) x y d d' l l' s₁) {bytes : List UInt8}
    (hcontent : HasContent (s₁.stamped file x y d') file bytes) :
    VolumeStores (s₁.stamped file x y d') live unread dir U (Function.update A file (some bytes)) := by
  have hsome (g : Nat) : (Function.update A file (some bytes) g).isSome ↔ (A g).isSome := by
    rw [Function.update_apply]
    split_ifs with heq
    · rw [heq]
      exact iff_of_true rfl hfile
    · exact Iff.rfl
  refine ⟨hch.volume, ?_, ?_, hch.mirrored h.mirrored, fun g hg => h.isLive g ((hsome g).mp hg), fun g hg => ?_,
    fun g b hg => ?_, fun g g' hg hg' hne hdir z z' hz hz' => ?_, fun c hc m hm => ?_⟩
  · exact (hch.changed.ioOk.ticked.updated file _).entryWritten _ _ _
  · rw [errno_stamped hch.slot, hch.changed.frame]
    exact h.errno
  · rw [hsome] at hg
    obtain ⟨z, w, e, m, hg'⟩ := h.file g hg
    by_cases heq : g = file
    · subst heq
      exact ⟨_, y, d', l', hch.at_self⟩
    · refine ⟨z, w, e, m, hch.at_other hg' heq (h.isLive g hg).1 (h.isLive g hg).2 fun hdir => ?_⟩
      exact h.slots file g hfile hg heq hdir x z hch.at_file.cell hg'.cell
  · by_cases heq : g = file
    · subst heq
      rw [Function.update_self, Option.some.injEq] at hg
      rwa [← hg]
    · rw [Function.update_of_ne heq] at hg
      have hg' : (A g).isSome := by rw [hg]; rfl
      obtain ⟨z, w, e, m, hat⟩ := h.file g hg'
      exact hch.content_other hat heq (h.isLive g hg').1 (h.content g b hg)
  · rw [hsome] at hg hg'
    -- no file moves in its directory
    have hpos {f : Nat} {v : FatFile} (hv : (s₁.stamped file x y d').files.cell f = some v) :
        ∃ v', s.files.cell f = some v' ∧ v'.posInParent = v.posInParent := by
      by_cases heq : f = file
      · subst heq
        rw [hch.cell_self, Option.some.injEq] at hv
        exact ⟨x, hch.at_file.cell, by rw [← hv]⟩
      · rw [hch.cell_ne heq] at hv
        exact ⟨v, hv, rfl⟩
    obtain ⟨v, hv, hvz⟩ := hpos hz
    obtain ⟨v', hv', hvz'⟩ := hpos hz'
    rw [← hvz, ← hvz']
    exact h.slots g g' hg hg' hne hdir v v' hv hv'
  · -- a chain that was not read yet is none of the live ones
    have hstart : c ∈ s.starts live ∪ unread := .inr hc
    have hnot (z : Nat) (hz : z ∈ s.starts live) : c ≠ z := fun heq =>
      Set.disjoint_left.mp h.volume.unread_disjoint hz (heq ▸ hc)
    have hcx := hnot _ ⟨file, hch.target.file_live, x, hch.at_file.cell, rfl⟩
    have hcy := hnot _ ⟨_, hch.target.parent_live, y, hch.at_file.parent_cell, rfl⟩
    obtain ⟨k, hk⟩ := h.volume.chains.exists_isChain c hstart
    obtain rfl := hm.unique (hch.chain_kept hstart hcx hk).2
    rw [hch.chainBytes_kept hstart hcx hcy hk, h.unreadData c hc _ hk]

/-! ### Calls -/

/-- Assigning what a function has. -/
theorem update_of_eq {bytes : List UInt8} (hA : A file = some bytes) :
    Function.update A file (some bytes) = A := by
  rw [← hA, Function.update_eq_self]

/-- The number of clusters in the chain of a file. -/
theorem FileOnVolume.chainLength_eq (hf : FileOnVolume s file p x y d l) :
    s.table.chainLength x.startCluster = l.length := by
  have hlen := FatTable.length_le_fatLen hf.chain.lt_fatLen hf.chain.chain.nodup
  rw [FatTable.chainLength, hf.chain.chain.visited_eq hlen]

/-- The content of a file is the data of its chain. -/
theorem FileOnVolume.content_eq (hf : FileOnVolume s file p x y d l) {bytes : List UInt8}
    (hb : HasContent s file bytes) : bytes = (chainBytes s l).take d.fileSize := by
  obtain ⟨f, e, hcell, he, m, -, hm, rfl⟩ := hb
  cases hf.cell.symm.trans hcell
  cases hf.entry.symm.trans he
  rw [hm.unique hf.chain.chain]

/-- The content of a file has the size in its entry. -/
theorem FileOnVolume.length_content (hf : FileOnVolume s file p x y d l) {bytes : List UInt8}
    (hb : HasContent s file bytes) : bytes.length = d.fileSize := by
  rw [hf.content_eq hb, List.length_take, length_chainBytes]
  exact Nat.min_eq_left ((FatTable.clustersOf_le_iff _).mp hf.covers).2

variable (env : Env)

/-- Changes of data and stamps take time. -/
theorem FileChanged.tick_le (h : FileChanged s live unread file p x y d d' l l' s₁) :
    s.tick ≤ (s₁.stamped file x y d').tick := by
  rw [stamped_eq h.slot, h.changed.frame]
  exact Nat.le_succ s.tick

/-- A read returns the slice of the array, and the volume goes on storing the same arrays. -/
theorem VolumeStores.pread (h : VolumeStores s live unread dir U A) {bytes : List UInt8}
    (hA : A file = some bytes) (hf : FileOnVolume s file (dir file) x y d l) (mem : Int → UInt8) (size : Nat)
    {offset : Nat} (hoff : offset ≤ d.fileSize) :
    ∃ (r : Nat) (mem' : Int → UInt8) (t : State), fatFilePread env file mem size offset (some (dir file)) s =
        .ok ((r : Int), mem') t ∧ memBytes mem' 0 r = (bytes.drop offset).take size ∧
      VolumeStores t live unread dir U A ∧ Preserves live s t ∧ s.tick ≤ t.tick := by
  have hfile : (A file).isSome := by rw [hA]; rfl
  obtain ⟨hlive, hdir⟩ := h.isLive file hfile
  have ht := h.volume.table
  have hcontent := h.content file bytes hA
  obtain ⟨hpos, hlen⟩ := (FatTable.clustersOf_le_iff _).mp hf.covers
  obtain ⟨r, mem', t, hrun, hbytes, ht'⟩ := pread_changes env mem size h.ioOk h.errno hf.cell
    hf.entry hf.parent_cell hf.chain hlen hoff
  refine ⟨r, mem', t, hrun, ?_, ?_⟩
  · rw [hbytes, hf.content_eq hcontent]
  -- A read of no bytes changes nothing, the others set the access date.
  · rcases ht' with rfl | ⟨s₁, now, rfl, hchanged, hintact, hdata⟩
    · exact ⟨h, .refl _ _, Nat.le_refl _⟩
    · have hch : FileChanged s live unread file (dir file) x y d (fillDentryTime now false false d) l l s₁ := by
        refine ⟨hf.writeTarget h.volume hlive hdir (Nat.zero_le _) ?_, hf, hchanged, ?_, ?_⟩
        · rw [Nat.zero_div]
          exact hpos
        · exact DirEntry.attribs_fillDentryTime _ _ _ _
        · rw [DirEntry.fileSize_fillDentryTime]
          exact hf.covers
      refine ⟨?_, hch.preserves hintact (DirEntry.sameFile_fillDentryTime _ _ _ _), hch.tick_le⟩
      -- The bytes of the file are those of before.
      rw [← update_of_eq hA]
      refine h.changes hfile hch ⟨_, fillDentryTime now false false d, hch.cell_self, rfl, l, ?_, ?_, ?_⟩
      · rw [table_stamped]
        exact hchanged.isChain.start.isValid
      · rw [table_stamped]
        exact hchanged.isChain.chain
      · have hv := hchanged.sameVolume
        have hdata' : chainBytes (s₁.stamped file x y (fillDentryTime now false false d)) l = chainBytes s₁ l := by
          refine chainBytes_congr (by rw [table_stamped]; exact .refl _) fun c hc i hi => ?_
          -- The stamp is stored in the parent's cluster, which is not in the chain.
          refine byte_stamped_ne (hv.wf ht).order_ge file x _ (hchanged.isChain.isValid c hc)
            ((hv.isValid_iff _).mpr hch.parent_start.1) ?_ hi
          rintro rfl
          exact hch.parent_start.2 hc
        rw [hf.content_eq hcontent, hdata', hdata, DirEntry.fileSize_fillDentryTime]

/-- A write inside its limits stores all its bytes, and the volume then stores the array
overwritten. -/
theorem VolumeStores.pwrite (h : VolumeStores s live unread dir U A) {bytes : List UInt8}
    (hA : A file = some bytes) (hf : FileOnVolume s file (dir file) x y d l) (buf : List UInt8) {offset : Nat}
    (hfits : Fits.On s.table x d (.pwrite file buf offset)) :
    ∃ t, fatFilePwrite env file buf offset (some (dir file)) s = .ok (buf.length : Int) t ∧
      VolumeStores t live unread dir U (Function.update A file (some (overwrite bytes offset buf))) ∧
      Preserves live s t ∧ s.tick ≤ t.tick := by
  have hfile : (A file).isSome := by rw [hA]; rfl
  obtain ⟨hlive, hdir⟩ := h.isLive file hfile
  obtain ⟨hoff, hreaches, hfree, hfit, hend⟩ := hfits
  rw [hf.chainLength_eq] at hreaches hfree hfit
  obtain ⟨s₁, l', now, hrun, hchanged, hintact, hcovers, hcontent⟩ := pwrite_changes env buf
    (hf.writeTarget h.volume hlive hdir hoff hreaches) h.ioOk h.errno (h.content file bytes hA) hfree hfit hend
  have hch : FileChanged s live unread file (dir file) x y d (pwrittenEntry now d (offset + buf.length)) l l' s₁ := by
    refine ⟨hf.writeTarget h.volume hlive hdir (Nat.zero_le _) ?_, hf, hchanged, ?_, hcovers⟩
    · rw [Nat.zero_div]
      exact Nat.zero_lt_of_lt hreaches
    · unfold pwrittenEntry
      rw [DirEntry.attribs_fillDentryTime]
      split_ifs
      · exact DirEntry.attribs_setFileSize _ _
      · rfl
  exact ⟨_, hrun, h.changes hfile hch hcontent, hch.preserves hintact (sameFile_pwrittenEntry _ _ _), hch.tick_le⟩

/-- A truncation inside its limits leaves the volume storing the array cut off. -/
theorem VolumeStores.truncate (h : VolumeStores s live unread dir U A) {bytes : List UInt8}
    (hA : A file = some bytes) (hf : FileOnVolume s file (dir file) x y d l) {offset : Nat}
    (hfits : Fits.On s.table x d (.truncate file offset)) :
    ∃ t, FileCall.step env dir s (.truncate file offset) = some (t, [.truncated file offset]) ∧
      VolumeStores t live unread dir U (Function.update A file (some (bytes.take offset))) := by
  have hfile : (A file).isSome := by rw [hA]; rfl
  obtain ⟨hlive, hdir⟩ := h.isLive file hfile
  have hpos := List.length_pos_iff.mpr hf.chain.ne_nil
  have htarget : WriteTarget s live unread file (dir file) x y d l 0 :=
    hf.writeTarget h.volume hlive hdir (Nat.zero_le _) (by rw [Nat.zero_div]; exact hpos)
  have hcut : TruncateTarget s file (dir file) x y d l :=
    ⟨h.volume.table.toLaidOut, h.ioOk, h.errno, hf.cell, hf.entry, hf.regular, hf.parent_cell, htarget.parent_start.1,
      htarget.parent_start.2.1, hf.slot, le32OfBytes_congr fun i hi => hf.onDisk (28 + i) (by omega), hf.chain,
      hf.covers⟩
  obtain ⟨t, hrun, hcontent, ht⟩ := truncate_changes env hcut (h.content file bytes hA) hfits
  refine ⟨t, ?_, ?_⟩
  · simp only [FileCall.step, hrun]
  · rcases ht with rfl | ⟨s₁, now, l', rfl, hchanged, hoff, hcovers⟩
    · have hsame : bytes.take offset = bytes := by
        rw [hf.content_eq hcontent, ← hf.content_eq (h.content file bytes hA)]
      rwa [hsame, update_of_eq hA]
    · refine h.changes hfile ⟨htarget, hf, hchanged, ?_, ?_⟩ hcontent
      · rw [truncatedEntry, DirEntry.attribs_fillDentryTime, DirEntry.attribs_setFileSize]
      · rwa [fileSize_truncatedEntry _ _ hoff]

/-- A call within its limits does what the store allows, and the volume stores what the store has then. -/
theorem VolumeStores.step (h : VolumeStores s live unread dir U A) {call : FileCall}
    (hfile : (A call.file).isSome) (hfits : Fits s call) :
    ∃ t e A', FileCall.step env dir s call = some (t, [e]) ∧ FileStore.Step A e A' ∧
      VolumeStores t live unread dir U A' ∧ ∀ g, (A' g).isSome ↔ (A g).isSome := by
  obtain ⟨x, y, d, l, hf⟩ := h.file _ hfile
  obtain ⟨bytes, hA⟩ := Option.isSome_iff_exists.mp hfile
  obtain ⟨x', hx', d', hd', hon⟩ := hfits
  cases hf.cell.symm.trans hx'
  cases hf.entry.symm.trans hd'
  have hsome (b : List UInt8) (g : Nat) : (Function.update A call.file (some b) g).isSome ↔ (A g).isSome := by
    rw [Function.update_apply]
    split_ifs with heq
    · rw [heq]
      exact iff_of_true rfl hfile
    · exact Iff.rfl
  cases call with
  | pread file mem size offset =>
      dsimp only [FileCall.file] at hA hf
      obtain ⟨r, mem', t, hrun, hbytes, ht, -, -⟩ := h.pread env hA hf mem size hon
      refine ⟨t, _, A, ?_, .read hA size offset, ht, fun _ => Iff.rfl⟩
      simp only [FileCall.step, hrun, Int.toNat_natCast, hbytes]
  | pwrite file buf offset =>
      dsimp only [FileCall.file] at hA hf
      obtain ⟨t, hrun, ht, -, -⟩ := h.pwrite env hA hf buf hon
      refine ⟨t, _, _, by simp only [FileCall.step, hrun], .written hA buf ?_, ht, hsome _⟩
      rw [hf.length_content (h.content _ bytes hA)]
      exact hon.1
  | truncate file offset =>
      obtain ⟨t, hstep, ht⟩ := h.truncate env hA hf hon
      exact ⟨t, _, _, hstep, .truncated hA offset, ht, hsome _⟩

/-- **The files of a volume are a store of byte arrays.** From a volume that stores the contents `A`, any run of
reads, writes and truncations of its files, each within its limits, comes to its end without a fault and reports
what a store reports that starts with `A`; then the volume stores the contents that the store has, with the table
and the directory entries on the device as in memory, and the data of the files not read yet is what it was. -/
theorem fileCalls_refine (h : VolumeStores s live unread dir U A) {calls : List FileCall}
    (hfiles : ∀ call ∈ calls, (A call.file).isSome)
    (hfits : Meets (FileCall.step env dir) (fun _ s call => Fits s call) [] s calls) :
    ∃ evs t A', exec (FileCall.step env dir) [] s calls = some (evs, t) ∧
      Accepted FileStore.Step A evs A' ∧ VolumeStores t live unread dir U A' := by
  obtain ⟨evs, t, A', hrun, hevs, ht, -⟩ := exec_accepted_of_meets
    (R := fun A s => VolumeStores s live unread dir U A ∧ ∀ call ∈ calls, (A call.file).isSome)
    (fun A s call hcall h hfits => by
      obtain ⟨u, e, B, hstep, he, hu, hsome⟩ := h.1.step env (h.2 call hcall) hfits
      exact ⟨u, [e], B, hstep, .one he, hu, fun call' hcall' => (hsome _).mpr (h.2 call' hcall')⟩)
    (.nil A) ⟨h, hfiles⟩ hfits
  exact ⟨evs, t, A', hrun, hevs, ht⟩

end Effects

/-! ## A volume with two files -/

/-- The entry of an empty file, with the eleven bytes of its name. -/
def emptyEntry (name : List UInt8) (attribs cluster : Nat) : DirEntry :=
  ((name.zipIdx.foldl (fun e p => e.setByte p.2 p.1) DirEntry.zero).setAttribs attribs).setU16 26 cluster

/-- The hidden log: its name is `"fs.log"`, with the mark of a deleted entry. -/
def hiddenEntry : DirEntry := emptyEntry [0xe5, 115, 32, 32, 32, 32, 32, 32, 108, 111, 103] fileAttributeSystem 3

/-- A file with the name `"a"`. -/
def secondEntry : DirEntry := emptyEntry (97 :: List.replicate 10 32) fileAttributeArchive 4

/-- `"/a"`. -/
def secondPath : CString := [slash, 97]

/-- The header of a device with sixteen sectors of 32 bytes: four for the header, one for the table, two in a
cluster. -/
def twoFilesHeader : List UInt8 :=
  List.replicate 11 0 ++ [32, 0, 2, 4, 0, 1, 0, 0, 16, 0, 0, 1] ++ List.replicate 21 0 ++ [2]

/-- The root directory and two empty files, the log and another one, on a device with six clusters of 64 bytes. -/
def twoFiles : State where
  nodes := ((Heap.empty.alloc ⟨0, some 1, none, none, none, some 2, 3⟩).alloc
    ⟨1, none, some 2, some 0, none, none, 2⟩).alloc ⟨2, none, none, some 0, some 1, none, 1⟩
  store := ((Heap.empty.alloc (fileAt 2 fileAttributeDirectory rootPath)).alloc
    { fileAt 3 fileAttributeSystem fsLogPath with dentry := some hiddenEntry }).alloc
    { fileAt 4 fileAttributeArchive secondPath with dentry := some secondEntry, posInParent := 1 }
  errno := 0
  dev := ⟨fun i =>
    if i < 128 then twoFilesHeader.getD i 0
    else if 136 ≤ i ∧ i < 148 then (le32Bytes fatClusterEndOfChain).getD (i % 4) 0
    else if 160 ≤ i ∧ i < 192 then hiddenEntry.byte (i - 160)
    else if 192 ≤ i ∧ i < 224 then secondEntry.byte (i - 192)
    else 0, []⟩
  io := []
  tick := 0
  table :=
    { fatMap := fun c => if c = 2 ∨ c = 3 ∨ c = 4 then fatClusterEndOfChain else fatClusterFree
      fatLen := 8
      fatOffset := 128
      numDataClusters := 6
      dataStartOffset := 160
      clusterOrder := 6 }
  fileTree := some (some 0)

/-- Each cluster of the volume with two files is a chain of its own. -/
theorem twoFiles_isChain {c : Nat} (hc : c = 2 ∨ c = 3 ∨ c = 4) : twoFiles.table.IsChain c [c] := by
  refine .singleton ?_ ?_ ?_ <;> rcases hc with rfl | rfl | rfl <;> decide

/-- The files of the volume: the root directory, the log and an empty file. -/
theorem twoFiles_cell {file : Nat} {f : FatFile} (h : twoFiles.files.cell file = some f) :
    file = 0 ∧ f = fileAt 2 fileAttributeDirectory rootPath ∨
      file = 1 ∧ f = { fileAt 3 fileAttributeSystem fsLogPath with dentry := some hiddenEntry } ∨
      file = 2 ∧ f = { fileAt 4 fileAttributeArchive secondPath with
        dentry := some secondEntry, posInParent := 1 } := by
  match file, h with
  | 0, h => exact .inl ⟨rfl, (Option.some.inj h).symm⟩
  | 1, h => exact .inr (.inl ⟨rfl, (Option.some.inj h).symm⟩)
  | 2, h => exact .inr (.inr ⟨rfl, (Option.some.inj h).symm⟩)
  | n + 3, h => exact absurd h (by simp [twoFiles, State.files, Heap.alloc, Heap.empty])

/-- The volume with two files is well formed. -/
theorem twoFiles_wf : VolumeWf twoFiles {0, 1, 2} ∅ := by
  have hstarts {c : Nat} (hc : c ∈ twoFiles.starts {0, 1, 2} ∪ ∅) : c = 2 ∨ c = 3 ∨ c = 4 := by
    obtain ⟨file, -, f, hf, rfl⟩ := hc.resolve_right (Set.notMem_empty c)
    rcases twoFiles_cell hf with ⟨-, rfl⟩ | ⟨-, rfl⟩ | ⟨-, rfl⟩
    · exact .inl rfl
    · exact .inr (.inl rfl)
    · exact .inr (.inr rfl)
  refine ⟨⟨⟨by decide, by decide⟩, by decide⟩, ?_, ?_, ?_, Set.disjoint_empty _,
    fun c hc => ⟨[c], twoFiles_isChain (hstarts hc)⟩, ?_⟩
  · rintro file (rfl | rfl | rfl) <;> exact ⟨_, _, rfl, rfl⟩
  · rintro file (rfl | rfl | rfl) d hd - <;> cases hd <;> decide
  · intro file _ file' _ f f' hf hf' heq
    rcases twoFiles_cell hf with ⟨rfl, rfl⟩ | ⟨rfl, rfl⟩ | ⟨rfl, rfl⟩ <;>
      rcases twoFiles_cell hf' with ⟨rfl, rfl⟩ | ⟨rfl, rfl⟩ | ⟨rfl, rfl⟩ <;> first | rfl | cases heq
  · intro c hc d hd hcd l m hl hm e hel hem
    rw [hl.unique (twoFiles_isChain (hstarts hc)), List.mem_singleton] at hel
    rw [hm.unique (twoFiles_isChain (hstarts hd)), List.mem_singleton] at hem
    exact hcd (hel.symm.trans hem)

/-- Two empty files. -/
def twoContents (file : Nat) : Option (List UInt8) := if file = 1 ∨ file = 2 then some [] else none

/-- Both regular files of the volume are empty. -/
theorem twoContents_eq_some {file : Nat} {bytes : List UInt8} (h : twoContents file = some bytes) :
    (file = 1 ∨ file = 2) ∧ bytes = [] := by
  unfold twoContents at h
  split_ifs at h with heq
  exact ⟨heq, (Option.some.inj h).symm⟩

/-- The entries on the device. -/
theorem twoFiles_fileOnVolume {file : Nat} (h : file = 1 ∨ file = 2) :
    ∃ x y d l, FileOnVolume twoFiles file 0 x y d l ∧ d.fileSize = 0 ∧ x.posInParent + 1 = file := by
  have hfirst : ∀ i < 32, twoFiles.dev.byte (0 * 32 + twoFiles.table.clusterOffset 2 + i) = hiddenEntry.byte i := by
    decide +kernel
  have hsecond : ∀ i < 32, twoFiles.dev.byte (1 * 32 + twoFiles.table.clusterOffset 2 + i) = secondEntry.byte i := by
    decide +kernel
  rcases h with rfl | rfl
  · exact ⟨_, _, hiddenEntry, [3], ⟨rfl, rfl, by decide, rfl, ⟨_, rfl, by decide⟩,
      twoFiles_isChain (.inr (.inl rfl)), by decide, by decide, hfirst⟩, by decide, rfl⟩
  · exact ⟨_, _, secondEntry, [4], ⟨rfl, rfl, by decide, rfl, ⟨_, rfl, by decide⟩,
      twoFiles_isChain (.inr (.inr rfl)), by decide, by decide, hsecond⟩, by decide, rfl⟩

/-- The volume stores its two empty files. -/
theorem twoFiles_stores : VolumeStores twoFiles {0, 1, 2} ∅ (fun _ => 0) (fun _ => []) twoContents := by
  have hfile {file : Nat} (h : (twoContents file).isSome) : file = 1 ∨ file = 2 := by
    obtain ⟨bytes, h⟩ := Option.isSome_iff_exists.mp h
    exact (twoContents_eq_some h).1
  have hmirrored : ∀ c < 8, twoFiles.diskEntry c = le32Bytes (twoFiles.table.fatMap c) := by decide +kernel
  refine ⟨twoFiles_wf, fun _ h => absurd h List.not_mem_nil, rfl, fun c hc => hmirrored c ?_,
    fun file h => ⟨.inr (hfile h), .inl rfl⟩, fun file h => ?_, fun file bytes h => ?_,
    fun file g h hg hne _ x z hx hz => ?_, fun c hc => absurd hc (Set.notMem_empty c)⟩
  · exact hc.lt_fatLen
  · obtain ⟨x, y, d, l, hf, -⟩ := twoFiles_fileOnVolume (hfile h)
    exact ⟨x, y, d, l, hf⟩
  · obtain ⟨hfile, rfl⟩ := twoContents_eq_some h
    obtain ⟨x, y, d, l, hf, hsize, -⟩ := twoFiles_fileOnVolume hfile
    exact ⟨x, d, hf.cell, hf.entry, l, hf.chain.start.isValid, hf.chain.chain, by rw [hsize, List.take_zero]⟩
  · obtain ⟨x', y, d, l, hf, -, hpos⟩ := twoFiles_fileOnVolume (hfile h)
    obtain ⟨z', y', d', l', hf', -, hpos'⟩ := twoFiles_fileOnVolume (hfile hg)
    cases hx.symm.trans hf.cell
    cases hz.symm.trans hf'.cell
    omega

/-- The two files are written in turn, and one of them is cut and read. -/
def twoFilesCalls : List FileCall :=
  [.pwrite 1 (List.replicate 70 7) 0, .pwrite 2 [1, 2, 3] 0, .pwrite 1 [8, 9] 63, .pread 1 (fun _ => 5) 8 62,
    .truncate 1 5, .pread 1 (fun _ => 5) 8 2, .pread 2 (fun _ => 5) 2 1]

/-- The two files keep their bytes apart while the calls on them take turns. -/
theorem fileCalls_refine_twoFiles : ∃ evs t A', exec (FileCall.step quietEnv fun _ => 0) [] twoFiles twoFilesCalls =
      some (evs, t) ∧ evs = [.written 1 (List.replicate 70 7) 0 70, .written 2 [1, 2, 3] 0 3, .written 1 [8, 9] 63 2,
      .read 1 8 62 [7, 8, 9, 7, 7, 7, 7, 7], .truncated 1 5, .read 1 8 2 [7, 7, 7], .read 2 2 1 [2, 3]] ∧
    Accepted FileStore.Step twoContents evs A' ∧ VolumeStores t {0, 1, 2} ∅ (fun _ => 0) (fun _ => []) A' := by
  have hfits : Meets (FileCall.step quietEnv fun _ => 0) (fun _ s call => Fits s call) [] twoFiles twoFilesCalls := by
    decide +kernel
  have hevents : (exec (FileCall.step quietEnv fun _ => 0) [] twoFiles twoFilesCalls).map Prod.fst =
      some [.written 1 (List.replicate 70 7) 0 70, .written 2 [1, 2, 3] 0 3, .written 1 [8, 9] 63 2,
        .read 1 8 62 [7, 8, 9, 7, 7, 7, 7, 7], .truncated 1 5, .read 1 8 2 [7, 7, 7], .read 2 2 1 [2, 3]] := by
    decide +kernel
  obtain ⟨evs, t, A', hrun, hevs, ht⟩ := fileCalls_refine quietEnv twoFiles_stores (by decide) hfits
  rw [hrun, Option.map_some, Option.some.injEq] at hevents
  exact ⟨evs, t, A', hrun, hevents, hevs, ht⟩

end OsLabs.Fat
