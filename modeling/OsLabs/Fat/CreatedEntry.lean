import OsLabs.Fat.FailedCreation
import OsLabs.Fat.Listing

/-! # Created files in their directory

After `fat_fuse_mkdir` or `fat_fuse_mknod` has returned 0, a listing of the directory should return
what it returned before, and the new file (`AddsOne`). The slot written is the one that the counter of
the directory names, which only a listing sets, and the reader has its own idea of names and of where the
directory ends (`addsOne_iff`). -/

namespace OsLabs.Fat

open Cmd

/-! ## Entries that the reader accepts -/

/-- The reader takes the names that `filename_from_path` made, or they are those of the log. -/
def AcceptedNames (fields : DirEntry) : Prop :=
  (fileBasenameValid fields.baseName = true ∧ fileExtensionValid fields.extension = true) ∨
    cstr (buildFilename fields.baseName fields.extension) = fsLogName

instance (fields : DirEntry) : Decidable (AcceptedNames fields) :=
  inferInstanceAs (Decidable (_ ∨ _))

section Names

variable {e e' : DirEntry}

/-- The legality of a base name depends on its eight bytes. -/
theorem basenameLegalFrom_congr {name name' : Nat → UInt8} {fuel i : Nat} (hi : i + fuel = 8)
    (h : ∀ k < 8, name k = name' k) :
    basenameLegalFrom name fuel i = basenameLegalFrom name' fuel i := by
  induction fuel generalizing i with
  | zero => rfl
  | succ fuel ih =>
      rw [basenameLegalFrom, basenameLegalFrom, h i (by omega)]
      by_cases hlast : i + 1 = 8
      · simp [hlast]
      · rw [h (i + 1) (by omega), ih (by omega)]

/-- The legality of an extension depends on its three bytes. -/
theorem extensionLegalFrom_congr {ext ext' : Nat → UInt8} {fuel i : Nat} (hi : i + fuel = 3)
    (h : ∀ k < 3, ext k = ext' k) :
    extensionLegalFrom ext fuel i = extensionLegalFrom ext' fuel i := by
  induction fuel generalizing i with
  | zero => rfl
  | succ fuel ih => rw [extensionLegalFrom, extensionLegalFrom, h i (by omega), ih (by omega)]

/-- The length of a name depends on the bytes of its field. -/
theorem filenameLen_congr {name name' : Nat → UInt8} {max : Nat} (h : ∀ k < max, name k = name' k) :
    filenameLen name max = filenameLen name' max := by
  induction max with
  | zero => rfl
  | succ max ih =>
      rw [filenameLen, filenameLen, h max (Nat.lt_succ_self max), ih fun k hk => h k (by omega)]

/-- The names of an entry are its first eleven bytes. -/
theorem fileBasenameValid_congr (h : ∀ k < 11, e.byte k = e'.byte k) :
    fileBasenameValid e.baseName = fileBasenameValid e'.baseName := by
  have hzero : e.baseName 0 = e'.baseName 0 := h 0 (by decide)
  have hlegal : basenameLegalFrom e.baseName 8 0 = basenameLegalFrom e'.baseName 8 0 :=
    basenameLegalFrom_congr rfl fun k hk => h k (by omega)
  unfold fileBasenameValid
  rw [hzero, hlegal]

/-- The test of the extension depends on the eleven bytes of the name. -/
theorem fileExtensionValid_congr (h : ∀ k < 11, e.byte k = e'.byte k) :
    fileExtensionValid e.extension = fileExtensionValid e'.extension :=
  extensionLegalFrom_congr rfl fun k hk => h (8 + k) (by omega)

/-- The name built from an entry depends on its eleven bytes. -/
theorem buildFilename_congr (h : ∀ k < 11, e.byte k = e'.byte k) :
    buildFilename e.baseName e.extension = buildFilename e'.baseName e'.extension := by
  have hbase : filenameLen e.baseName 8 = filenameLen e'.baseName 8 :=
    filenameLen_congr fun k hk => h k (by omega)
  have hext : filenameLen e.extension 3 = filenameLen e'.extension 3 :=
    filenameLen_congr fun k hk => h (8 + k) (by omega)
  have hbase_le : filenameLen e'.baseName 8 ≤ 8 := filenameLen_le
  have hext_le : filenameLen e'.extension 3 ≤ 3 := filenameLen_le
  have hmapBase : (List.range (filenameLen e'.baseName 8)).map e.baseName =
      (List.range (filenameLen e'.baseName 8)).map e'.baseName := by
    refine List.map_congr_left fun k hk => h k ?_
    have := List.mem_range.mp hk
    omega
  have hmapExt : (List.range (filenameLen e'.extension 3)).map e.extension =
      (List.range (filenameLen e'.extension 3)).map e'.extension := by
    refine List.map_congr_left fun k hk => h (8 + k) ?_
    have := List.mem_range.mp hk
    omega
  unfold buildFilename
  dsimp only
  rw [hbase, hext, hmapBase, hmapExt]

/-- Whether the reader accepts the names depends on these eleven bytes. -/
theorem acceptedNames_congr (h : ∀ k < 11, e.byte k = e'.byte k) :
    AcceptedNames e ↔ AcceptedNames e' := by
  unfold AcceptedNames
  rw [fileBasenameValid_congr h, fileExtensionValid_congr h, buildFilename_congr h]

end Names

/-- The characters that a listing makes the name of a returned entry of. -/
def listedName (e : DirEntry) : List UInt8 :=
  let named := if e.Ignored then e.setBaseName0 102 else e
  buildFilename named.baseName named.extension

/-- A child made from an entry has the name in the entry. -/
theorem childOf_name (dir : FatFile) (e : DirEntry) (i : Nat) : (e.childOf dir i).name = listedName e :=
  rfl

section Stored

variable {after : Nat → UInt8} {isDir : Bool} {path : CString} {cluster : Nat} {entry : DirEntry}

/-- The entry that is stored for a new file. -/
def newEntry (entry : DirEntry) : DirEntry :=
  storedEntry (buildFilename entry.baseName entry.extension) entry

/-- The name of the log starts with an `f`. -/
theorem byte_zero_of_fsLogName (h : cstr (buildFilename entry.baseName entry.extension) = fsLogName) :
    entry.byte 0 = 102 := by
  unfold buildFilename at h
  dsimp only at h
  split at h
  · exact absurd h (by decide)
  · next hlen =>
      obtain ⟨n, hn⟩ := Nat.exists_eq_succ_of_ne_zero hlen
      rw [hn, List.range_succ_eq_map, List.map_cons, List.cons_append, cstr, List.takeWhile_cons] at h
      split at h
      · exact (List.cons.inj h).1
      · cases h

/-- Only the name and the attributes are different in what is stored. -/
theorem byte_newEntry {k : Nat} (h0 : k ≠ 0) (h11 : k ≠ 11) :
    (newEntry entry).byte k = entry.byte k := by
  unfold newEntry storedEntry
  split_ifs
  · simp [DirEntry.setAttribs, DirEntry.setBaseName0, h0.symm, h11.symm]
  · rfl

/-- The first cluster in an entry depends on the bytes from 20 on. -/
theorem fileStartCluster_congr {e e' : DirEntry} (h : ∀ k, 20 ≤ k → e.byte k = e'.byte k) :
    fileStartCluster e = fileStartCluster e' := by
  simp [fileStartCluster, DirEntry.startClusterLow, DirEntry.fat32StartClusterHigh, le16OfBytes, h]

/-- What the reader makes of the stored entry. -/
theorem newEntry_returned (h : NamedEntry after isDir path cluster entry) :
    (¬ (newEntry entry).IsEndOfDirectory ∧ (newEntry entry).Yields ↔ AcceptedNames entry) ∧
      (AcceptedNames entry → listedName (newEntry entry) =
        buildFilename entry.baseName entry.extension) := by
  by_cases hlog : cstr (buildFilename entry.baseName entry.extension) = fsLogName
  · -- the hidden log
    have hzero := byte_zero_of_fsLogName hlog
    have heq : newEntry entry = (entry.setBaseName0 deletedMark).setAttribs fileAttributeSystem :=
      if_pos hlog
    have hmark : (newEntry entry).byte 0 = deletedMark := by
      rw [heq]
      simp [DirEntry.setAttribs, DirEntry.setBaseName0]
    have hmarked : (newEntry entry).MarkedSystem := by
      refine ⟨hmark, ?_⟩
      rw [heq]
      simp [DirEntry.attribs, DirEntry.setAttribs]
      decide
    have hrestored : ∀ k < 11, ((newEntry entry).setBaseName0 102).byte k = entry.byte k := by
      intro k hk
      by_cases h0 : k = 0
      · simp [h0, DirEntry.setBaseName0, hzero]
      · rw [DirEntry.setBaseName0, DirEntry.byte_setByte, if_neg fun h => h0 h.1.symm,
          byte_newEntry h0 (by omega)]
    have hname := buildFilename_congr hrestored
    refine ⟨iff_of_true ⟨?_, .inr ⟨hmarked, ?_⟩⟩ (.inr hlog), fun _ => ?_⟩
    · unfold DirEntry.IsEndOfDirectory
      rw [hmark]
      decide
    · rw [hname, hlog]
    · unfold listedName
      rw [if_pos (DirEntry.ignored_of_markedSystem hmarked)]
      exact hname
  · have heq : newEntry entry = entry := if_neg hlog
    have hattribs : entry.attribs = 16 ∨ entry.attribs = 32 := by
      rw [h.attribs]
      cases isDir
      · exact .inr rfl
      · exact .inl rfl
    have hplain : entry.attribs &&& fileAttributeVolume = 0 ∧ entry.attribs &&& fileAttributeSystem = 0 := by
      rcases hattribs with h' | h' <;> rw [h'] <;> decide
    have hignored : ¬ entry.Ignored ↔ AcceptedNames entry := by
      simp [DirEntry.Ignored, AcceptedNames, hplain.1, hlog]
    rw [heq]
    have hyields : entry.Yields ↔ ¬ entry.Ignored :=
      or_iff_left fun hhidden => hhidden.1.2 hplain.2
    refine ⟨?_, fun ha => ?_⟩
    · rw [hyields, hignored, and_iff_right_iff_imp]
      rintro (⟨hbase, -⟩ | hname) hend
      · have hend' : entry.baseName 0 = 0 := hend
        rw [fileBasenameValid, if_pos (.inl hend')] at hbase
        exact absurd hbase (by decide)
      · exact hlog hname
    · unfold listedName
      rw [if_neg (hignored.mpr ha)]

/-- The entry of a new file names the cluster that was found for it. -/
theorem fileStartCluster_newEntry (entry : DirEntry) :
    fileStartCluster (newEntry entry) = fileStartCluster entry :=
  fileStartCluster_congr fun _ hk => byte_newEntry (by omega) (by omega)

/-- A child made from an entry starts at the cluster in the entry. -/
theorem childOf_startCluster (dir : FatFile) (e : DirEntry) (i : Nat) :
    (e.childOf dir i).startCluster = fileStartCluster e := by
  refine fileStartCluster_congr fun k hk => ?_
  split_ifs
  · simp [DirEntry.setBaseName0, show 0 ≠ k by omega]
  · rfl

end Stored

/-! ## The property and its condition -/

/-- The node with this path has the file `x` at this address. -/
def FileOfPath (s : State) (path : CString) (file : Nat) (x : FatFile) : Prop :=
  (∃ a d, s.treeEntry a = some d ∧ d.path = path ∧ d.file = file) ∧ s.files.cell file = some x

/-- A path leads to one file. -/
theorem FileOfPath.unique {s : State} (h : s.TreeWf) {path : CString} {file file' : Nat} {x x' : FatFile}
    (hx : FileOfPath s path file x) (hx' : FileOfPath s path file' x') : file = file' ∧ x = x' := by
  obtain ⟨p, t, hok⟩ := h
  obtain ⟨⟨a, d, hd, hpath, hfile⟩, hcell⟩ := hx
  obtain ⟨⟨a', d', hd', hpath', hfile'⟩, hcell'⟩ := hx'
  obtain rfl := hok.path_inj ⟨d, hd, hpath⟩ ⟨d', hd', hpath'⟩
  rw [hd] at hd'
  cases hd'
  obtain rfl : file = file' := hfile.symm.trans hfile'
  rw [hcell] at hcell'
  cases hcell'
  exact ⟨rfl, rfl⟩

/-- A file made of a listed entry has the name, the directory flag and the start cluster of `x`. -/
structure Resembles (f x : FatFile) : Prop where
  name : cstr f.name = cstr x.name
  isDir : f.isDir = x.isDir
  startCluster : f.startCluster = x.startCluster

/-- `fat_file_read_children` on the directory `dir` returns what it returned before, and one new entry,
which is that of the file with this path. -/
def AddsOne (path : CString) (dir : Nat) (s u : State) : Prop :=
  ∃ es es' y file x p e, s.Lists dir es ∧ u.Lists dir es' ∧ u.files.cell dir = some y ∧
    FileOfPath u path file x ∧ (∀ q f, (q, f) ∈ es' ↔ (q, f) ∈ es ∨ (q, f) = (p, e)) ∧
    (∀ f, (p, f) ∉ es) ∧ Resembles (e.childOf y p.2) x

/-- The entry of slot `i` is behind an end mark in slot `k`, and is returned without this mark. -/
def State.Uncovered (s : State) (c k i : Nat) : Prop :=
  ((s.clusterEntry c k).IsEndOfDirectory ∧ k < i ∧ i < s.table.bytesPerCluster / 32) ∧
    (∀ j < i + 1, j ≠ k → ¬ (s.clusterEntry c j).IsEndOfDirectory) ∧ (s.clusterEntry c i).Yields

/-- The condition on the state before a creation in the directory `y`. The slot that its counter names
is the one behind what a listing returns: no end mark comes before it, and it is not returned itself.
The reader accepts the names and no entry is uncovered, or it does not accept them and the one entry
that is uncovered happens to be one for the new file. -/
structure CreationSafe (isDir : Bool) (y : FatFile) (fields : DirEntry) (s : State) : Prop where
  reached : s.Reached y.startCluster y.nentries
  vacant : s.returned (y.startCluster, y.nentries) = none
  shown : (AcceptedNames fields ∧ ∀ i, ¬ s.Uncovered y.startCluster y.nentries i) ∨
    (¬ AcceptedNames fields ∧ ¬ fields.IsEndOfDirectory ∧ ∃ i, (∀ j, s.Uncovered y.startCluster y.nentries j ↔ j = i) ∧
      cstr (listedName (s.clusterEntry y.startCluster i)) =
        cstr (buildFilename fields.baseName fields.extension) ∧
      ((s.clusterEntry y.startCluster i).IsDirectory ↔ isDir = true) ∧
      s.table.nextFree = fileStartCluster (s.clusterEntry y.startCluster i))

/-- The file of the new node. -/
def createdFile (path : CString) (entry : DirEntry) (cluster slot : Nat) : FatFile :=
  { emptyFile path with
    dentry := some (newEntry entry)
    name := buildFilename entry.baseName entry.extension
    startCluster := cluster
    posInParent := slot }

section Created

variable {s u : State} {env : Env} {isDir : Bool} {path : CString} {d : TreeEntry} {y : FatFile}
  {c cluster : Nat} {entry fields : DirEntry}

/-- A creation stays on the volume. -/
theorem Created.sameVolume (h : Created env isDir path s d y c cluster entry u) :
    s.table.SameVolume u.table := by
  rw [h.table]
  exact .setEntry _ _ _

/-- The counter of the directory names a slot of its cluster. -/
theorem Created.fits_slot (h : Created env isDir path s d y c cluster entry u)
    (hord : 5 ≤ s.table.clusterOrder) : y.nentries < s.table.bytesPerCluster / 32 := by
  have hfits := h.fits
  obtain ⟨n, hn⟩ := FatTable.thirty_two_dvd_bytesPerCluster hord
  omega

/-- A creation writes the slot that the counter names and no other. -/
theorem Created.slotWritten (h : Created env isDir path s d y c cluster entry u)
    (hord : 5 ≤ s.table.clusterOrder)
    (hb : cluster * 4 % 2 ^ 32 + s.table.fatOffset + 4 ≤ s.table.dataStartOffset)
    (hv : s.table.IsValidClusterNumber y.startCluster) {l : List Nat}
    (hl : ∀ d ∈ l, s.table.IsValidClusterNumber d) :
    SlotWritten l y.startCluster y.nentries (newEntry entry) s u := by
  refine slotWritten_of_byte h.sameVolume (fun d hd => ⟨hl d hd, hv⟩) (h.fits_slot hord) fun i hi => ?_
  -- the entry of the table lies before the data
  exact h.byte i (by omega)

/-- The chain of the directory has one cluster still. -/
theorem Created.dirClusters (h : Created env isDir path s d y c cluster entry u)
    (hl : s.DirClusters y [y.startCluster]) (y' : FatFile) (hy' : y'.startCluster = y.startCluster) :
    u.DirClusters y' [y.startCluster] := by
  obtain ⟨hv, hend⟩ := hl.start_mem_iff.mp (List.mem_singleton_self _)
  obtain ⟨hchain, hin⟩ := hl.chain hv
  unfold State.DirClusters
  rw [hy', if_pos ((h.sameVolume.isValid_iff _).mpr hv), h.sameVolume.fatLen]
  rw [FatTable.cluster?_of_not_isEoc hend] at hchain ⊢
  refine ⟨⟨rfl, ?_⟩, hin⟩
  show u.table.next y.startCluster = none
  rw [h.table]
  by_cases heq : y.startCluster = cluster
  · rw [heq]
    exact FatTable.next_setEntry_eoc _ _
  · rw [FatTable.next_setEntry_ne heq]
    exact hchain.2

/-- The file of the new node, and what it is. -/
theorem Created.fileAt (h : Created env isDir path s d y c cluster entry u)
    (hno : ¬ HasPath s.treeEntry path) :
    FileOfPath u path c (createdFile path entry cluster y.nentries) := by
  obtain ⟨a, e, he, hpath, hfile⟩ := h.node hno
  exact ⟨⟨a, e, he, hpath, hfile⟩, h.child⟩

/-- What a slot of the directory returns after the creation: what it returned before, the new entry, or
one that the mark in the slot written had hidden. -/
theorem Created.returned_iff (h : Created env isDir path s d y c cluster entry u)
    (hord : 5 ≤ s.table.clusterOrder)
    (hb : cluster * 4 % 2 ^ 32 + s.table.fatOffset + 4 ≤ s.table.dataStartOffset)
    (hv : s.table.IsValidClusterNumber y.startCluster) {i : Nat} {e : DirEntry}
    (hi : i < s.table.bytesPerCluster / 32) :
    u.returned (y.startCluster, i) = some e ↔
      (i ≠ y.nentries ∧ (y.nentries < i → ¬ (newEntry entry).IsEndOfDirectory) ∧
        s.returned (y.startCluster, i) = some e) ∨
      (i = y.nentries ∧ s.Reached y.startCluster y.nentries ∧ AcceptedNames entry ∧
        newEntry entry = e) ∨
      (¬ (newEntry entry).IsEndOfDirectory ∧ s.Uncovered y.startCluster y.nentries i ∧
        s.clusterEntry y.startCluster i = e) := by
  have hw := h.slotWritten hord hb hv (l := [y.startCluster]) fun d hd => by rwa [List.mem_singleton.mp hd]
  have hmem := List.mem_singleton_self y.startCluster
  have haccepted := (newEntry_returned h.named).1
  have hnot (hle : i ≤ y.nentries) : ¬ s.Uncovered y.startCluster y.nentries i :=
    fun hun => absurd hun.1.2.1 (Nat.not_lt.mpr hle)
  -- A slot in front of the new one, the new one itself, or one behind it.
  rcases Nat.lt_trichotomy i y.nentries with hlt | rfl | hlt
  · rw [hw.returned_ne hmem hi (.inr hlt)]
    simp [hlt.ne, Nat.lt_asymm hlt, hnot hlt.le]
  · rw [hw.returned_self hmem hi, ← haccepted]
    simp [hnot le_rfl, and_assoc]
  · rw [hw.returned_behind hmem hi hlt, returned_eq_some]
    have hsplit : (∀ j < i + 1, j ≠ y.nentries → ¬ (s.clusterEntry y.startCluster j).IsEndOfDirectory) ↔
        s.Reached y.startCluster (i + 1) ∨
          ((s.clusterEntry y.startCluster y.nentries).IsEndOfDirectory ∧
            ∀ j < i + 1, j ≠ y.nentries → ¬ (s.clusterEntry y.startCluster j).IsEndOfDirectory) := by
      constructor
      -- The new entry may have replaced the end mark that hid the slots behind it.
      · intro hall
        by_cases hend : (s.clusterEntry y.startCluster y.nentries).IsEndOfDirectory
        · exact .inr ⟨hend, hall⟩
        · refine .inl fun j hj => ?_
          by_cases hjk : j = y.nentries
          · rwa [hjk]
          · exact hall j hj hjk
      · rintro (hreached | ⟨-, hall⟩)
        · exact fun j hj _ => hreached j hj
        · exact hall
    rw [hsplit]
    unfold State.Uncovered
    constructor
    · rintro ⟨hreached | ⟨hend, hall⟩, hmark, hyields, heq⟩
      · exact .inl ⟨hlt.ne', fun _ => hmark, hreached, hyields, heq⟩
      · exact .inr (.inr ⟨hmark, ⟨⟨hend, hlt, hi⟩, hall, hyields⟩, heq⟩)
    · rintro (⟨-, hmark, hreached, hyields, heq⟩ | ⟨heq, -⟩ | ⟨hmark, ⟨⟨hend, -⟩, hall, hyields⟩, heq⟩)
      · exact ⟨.inl hreached, hmark hlt, hyields, heq⟩
      · exact absurd heq hlt.ne'
      · exact ⟨.inr ⟨hend, hall⟩, hmark, hyields, heq⟩

/-- Entries that the reader does not accept are stored as they are. -/
theorem newEntry_of_not_accepted (h : ¬ AcceptedNames entry) : newEntry entry = entry :=
  if_neg fun hlog => h (.inr hlog)

/-- The listing of a single cluster, slot by slot. -/
theorem mem_listing_singleton {c : Nat} {q : Nat × Nat} {e : DirEntry} :
    (q, e) ∈ s.listing [c] ↔ (q.1 = c ∧ q.2 < s.table.bytesPerCluster / 32) ∧ s.returned q = some e := by
  unfold State.listing
  rw [mem_tagged, mem_slots, List.mem_singleton]

/-- The listing of one cluster, slot by slot. -/
theorem mem_listing_of_returned {c i : Nat} {e : DirEntry}
    (hcap : u.table.bytesPerCluster = s.table.bytesPerCluster) (hi : i < s.table.bytesPerCluster / 32)
    (h : ∀ j < s.table.bytesPerCluster / 32, ∀ f,
      u.returned (c, j) = some f ↔ s.returned (c, j) = some f ∨ (j = i ∧ e = f))
    (q : Nat × Nat) (f : DirEntry) :
    (q, f) ∈ u.listing [c] ↔ (q, f) ∈ s.listing [c] ∨ (q, f) = ((c, i), e) := by
  obtain ⟨c', j⟩ := q
  rw [mem_listing_singleton, mem_listing_singleton, hcap]
  constructor
  · rintro ⟨⟨rfl, hj⟩, hu⟩
    rcases (h j hj f).mp hu with hold | ⟨rfl, rfl⟩
    · exact .inl ⟨⟨rfl, hj⟩, hold⟩
    · exact .inr rfl
  · rintro (⟨⟨rfl, hj⟩, hold⟩ | hself)
    · exact ⟨⟨rfl, hj⟩, (h j hj f).mpr (.inl hold)⟩
    · cases hself
      exact ⟨⟨rfl, hi⟩, (h i hi e).mpr (.inr ⟨rfl, rfl⟩)⟩

/-- An entry behind an end mark is not returned. -/
theorem returned_of_uncovered {c k i : Nat} (h : s.Uncovered c k i) : s.returned (c, i) = none := by
  rw [Option.eq_none_iff_forall_not_mem]
  intro e he
  exact (returned_eq_some.mp he).1 k (Nat.lt_succ_of_lt h.1.2.1) h.1.1

/-- Written in the slot behind the listed ones, the new entry changes nothing else, unless it uncovers
entries. -/
theorem Created.returned_iff_of_vacant (h : Created env isDir path s d y c cluster entry u)
    (hord : 5 ≤ s.table.clusterOrder)
    (hb : cluster * 4 % 2 ^ 32 + s.table.fatOffset + 4 ≤ s.table.dataStartOffset)
    (hv : s.table.IsValidClusterNumber y.startCluster) (hreached : s.Reached y.startCluster y.nentries)
    (hvacant : s.returned (y.startCluster, y.nentries) = none)
    (hlive : ¬ (newEntry entry).IsEndOfDirectory) {i : Nat} {e : DirEntry}
    (hi : i < s.table.bytesPerCluster / 32) :
    u.returned (y.startCluster, i) = some e ↔
      s.returned (y.startCluster, i) = some e ∨
        (i = y.nentries ∧ AcceptedNames entry ∧ newEntry entry = e) ∨
        (s.Uncovered y.startCluster y.nentries i ∧ s.clusterEntry y.startCluster i = e) := by
  have hne (hold : s.returned (y.startCluster, i) = some e) : i ≠ y.nentries := by
    rintro rfl
    rw [hvacant] at hold
    cases hold
  rw [h.returned_iff hord hb hv hi]
  constructor
  · rintro (⟨-, -, hold⟩ | ⟨hk, -, ha⟩ | ⟨-, hun⟩)
    · exact .inl hold
    · exact .inr (.inl ⟨hk, ha⟩)
    · exact .inr (.inr hun)
  · rintro (hold | ⟨hk, ha⟩ | hun)
    · exact .inl ⟨hne hold, fun _ => hlive, hold⟩
    · exact .inr (.inl ⟨hk, hreached, ha⟩)
    · exact .inr (.inr ⟨hlive, hun⟩)

/-- With names that the reader does not accept, the new entry is a directory if one was made. -/
theorem Created.isDirectory_iff (h : Created env isDir path s d y c cluster entry u)
    (hno : ¬ AcceptedNames entry) : (newEntry entry).IsDirectory ↔ isDir = true := by
  rw [newEntry_of_not_accepted hno]
  unfold DirEntry.IsDirectory
  rw [h.named.attribs]
  cases isDir <;> decide

/-- After a creation the reader returns one entry more just in the states described. -/
theorem Created.addsOne_iff_safe (h : Created env isDir path s d y c cluster entry u) (hwf : u.TreeWf)
    (hord : 5 ≤ s.table.clusterOrder)
    (hb : cluster * 4 % 2 ^ 32 + s.table.fatOffset + 4 ≤ s.table.dataStartOffset)
    (hno : ¬ HasPath s.treeEntry path) (hl : s.DirClusters y [y.startCluster])
    (hfields : ∀ k < 11, entry.byte k = fields.byte k) :
    AddsOne path d.file s u ↔ CreationSafe isDir y fields s := by
  have hv := hl.valid (List.mem_singleton_self _)
  have haccepted := acceptedNames_congr hfields
  have hname := buildFilename_congr hfields
  have hend : entry.IsEndOfDirectory ↔ fields.IsEndOfDirectory := by
    unfold DirEntry.IsEndOfDirectory
    rw [hfields 0 (by decide)]
  have hcap : u.table.bytesPerCluster = s.table.bytesPerCluster := h.sameVolume.bytesPerCluster
  have hmark (ha : AcceptedNames entry) : ¬ (newEntry entry).IsEndOfDirectory :=
    ((newEntry_returned h.named).1.mpr ha).1
  have hfits := h.fits_slot hord
  constructor
  · rintro ⟨es, es', y', file, x, p, e, hes, hes', hy', hat, hmem, hnew, hlike⟩
    obtain ⟨-, rfl⟩ := hat.unique hwf (h.fileAt hno)
    obtain rfl := hes.eq_listing h.dirFile hl
    rw [h.parent] at hy'
    cases hy'
    obtain rfl := hes'.eq_listing h.parent (h.dirClusters hl _ rfl)
    obtain ⟨⟨hp, hi⟩, hu⟩ := mem_listing_singleton.mp ((hmem p e).mpr (.inr rfl))
    obtain ⟨c', i⟩ := p
    obtain rfl : c' = y.startCluster := hp
    rw [hcap] at hi
    -- a slot that returns an entry now returned it before, or is that of the new entry
    have hshown {j : Nat} {f : DirEntry} (hj : j < s.table.bytesPerCluster / 32)
        (hf : u.returned (y.startCluster, j) = some f) :
        s.returned (y.startCluster, j) = some f ∨ j = i := by
      rcases (hmem _ f).mp (mem_listing_singleton.mpr ⟨⟨rfl, by rwa [hcap]⟩, hf⟩) with hold | hself
      · exact .inl (mem_listing_singleton.mp hold).2
      · exact .inr (Prod.mk.inj (Prod.mk.inj hself).1).2
    have hone (hno : ¬ (newEntry entry).IsEndOfDirectory) {j : Nat}
        (hun : s.Uncovered y.startCluster y.nentries j) : j = i := by
      rcases hshown hun.1.2.2 ((h.returned_iff hord hb hv hun.1.2.2).mpr (.inr (.inr ⟨hno, hun, rfl⟩)))
        with hold | hself
      · rw [returned_of_uncovered hun] at hold
        cases hold
      · exact hself
    have hnone : s.returned (y.startCluster, i) = none := by
      rw [Option.eq_none_iff_forall_not_mem]
      exact fun f hf => hnew f (mem_listing_singleton.mpr ⟨⟨rfl, hi⟩, hf⟩)
    rcases (h.returned_iff hord hb hv hi).mp hu with ⟨-, -, hold⟩ | ⟨rfl, hreached, ha, rfl⟩ | ⟨hlive, hun, rfl⟩
    · rw [hnone] at hold
      cases hold
    · exact ⟨hreached, hnone, .inl ⟨haccepted.mp ha, fun j hun => hun.1.2.1.ne' (hone (hmark ha) hun)⟩⟩
    · -- the new entry is an old one that was behind the end mark
      have hreached : s.Reached y.startCluster y.nentries := fun j hj =>
        hun.2.1 j (Nat.lt_succ_of_lt (hj.trans hun.1.2.1)) hj.ne
      have hvacant : s.returned (y.startCluster, y.nentries) = none := by
        rw [Option.eq_none_iff_forall_not_mem]
        exact fun f hf => (returned_eq_some.mp hf).1 y.nentries (Nat.lt_succ_self _) hun.1.1
      have hrefused : ¬ AcceptedNames entry := by
        intro ha
        rcases hshown hfits ((h.returned_iff hord hb hv hfits).mpr (.inr (.inl ⟨rfl, hreached, ha, rfl⟩)))
          with hold | hself
        · rw [hvacant] at hold
          cases hold
        · exact hun.1.2.1.ne hself
      refine ⟨hreached, hvacant, .inr ⟨fun ha => hrefused (haccepted.mpr ha), ?_, i,
        fun j => ⟨fun hj => hone hlive hj, fun hj => hj ▸ hun⟩, ?_, ?_, ?_⟩⟩
      · rw [← hend, ← newEntry_of_not_accepted hrefused]
        exact hlive
      · rw [← hname]
        exact hlike.name
      · rw [← h.isDirectory_iff hrefused]
        have hdir := hlike.isDir
        rw [FatFile.isDir_eq (d := s.clusterEntry y.startCluster i) rfl,
          FatFile.isDir_eq (d := newEntry entry) rfl] at hdir
        exact decide_eq_decide.mp hdir
      · have hstart := hlike.startCluster
        rw [childOf_startCluster] at hstart
        rw [h.found, hstart]
        rfl
  · intro hsafe
    obtain ⟨y', hy', hstart⟩ : ∃ y', u.files.cell d.file = some y' ∧ y'.startCluster = y.startCluster :=
      ⟨_, h.parent, rfl⟩
    have hl' := h.dirClusters hl y' hstart
    have hat := h.fileAt hno
    rcases hsafe.shown with ⟨ha, hun⟩ | ⟨hrefused, hlive, i, hun, hsame, hdir, hfirst⟩
    · have ha' := haccepted.mpr ha
      have hmem := mem_listing_of_returned (e := newEntry entry) hcap hfits fun j hj f => by
        rw [h.returned_iff_of_vacant hord hb hv hsafe.reached hsafe.vacant (hmark ha') hj]
        simp [hun, ha']
      refine ⟨_, _, y', c, _, _, _, hl.lists h.dirFile, hl'.lists hy', hy', hat, hmem, fun f hf => ?_, ?_,
        ?_, ?_⟩
      · have hold := (mem_listing_singleton.mp hf).2
        rw [hsafe.vacant] at hold
        cases hold
      · rw [childOf_name, (newEntry_returned h.named).2 ha']
        rfl
      · rfl
      · rw [childOf_startCluster, fileStartCluster_newEntry, h.named.startCluster]
        rfl
    · have hrefused' : ¬ AcceptedNames entry := fun ha => hrefused (haccepted.mp ha)
      have hlive' : ¬ (newEntry entry).IsEndOfDirectory := by
        rw [newEntry_of_not_accepted hrefused', hend]
        exact hlive
      have hi := (hun i).mpr rfl
      have hmem := mem_listing_of_returned (e := s.clusterEntry y.startCluster i) hcap hi.1.2.2
        fun j hj f => by
          rw [h.returned_iff_of_vacant hord hb hv hsafe.reached hsafe.vacant hlive' hj, hun j]
          simp only [hrefused', false_and, and_false, false_or]
          exact or_congr_right (and_congr_right fun hji => by rw [hji])
      refine ⟨_, _, y', c, _, _, _, hl.lists h.dirFile, hl'.lists hy', hy', hat, hmem, fun f hf => ?_, ?_,
        ?_, ?_⟩
      · have hold := (mem_listing_singleton.mp hf).2
        rw [returned_of_uncovered hi] at hold
        cases hold
      · rw [childOf_name, hsame, ← hname]
        rfl
      · rw [FatFile.isDir_eq (d := s.clusterEntry y.startCluster i) rfl,
          FatFile.isDir_eq (d := newEntry entry) rfl, decide_eq_decide, h.isDirectory_iff hrefused']
        exact hdir
      · rw [childOf_startCluster]
        exact hfirst.symm.trans h.found

end Created

section Run

variable {s u : State} {env : Env} {path : CString} {dir : Nat} {y : FatFile} {fields : DirEntry}

/-- A creation that returned 0. -/
theorem created_of_run (isDir : Bool) (h : s.TreeWf)
    (hrun : (if isDir then fatFuseMkdir env path else fatFuseMknod env path) s = .ok 0 u) :
    u.TreeWf ∧ ∃ d y c cluster entry, Created env isDir path s d y c cluster entry u := by
  cases isDir with
  | true =>
      rw [if_pos rfl, fatFuseMkdir_eq] at hrun
      exact ⟨(createFile_enlarges h hrun).wf, createFile_created (by decide) h hrun⟩
  | false =>
      rw [if_neg Bool.false_ne_true, fatFuseMknod_eq] at hrun
      exact ⟨(createFile_enlarges h hrun).wf, createFile_created (by decide) h hrun⟩

/-- **Created files.** In a directory of one cluster, a creation that returns 0 adds one entry to what
`fat_file_read_children` returns, that of the new file, exactly when the counter of the directory names
the slot behind the listed ones, and the reader accepts the name and comes to no other entry now. -/
theorem addsOne_iff {isDir : Bool} (h : s.TreeWf) (hord : 5 ≤ s.table.clusterOrder)
    (hb : s.table.BeforeData) (hno : ¬ HasPath s.treeEntry path)
    (hat : FileOfPath s (dirname path) dir y) (hl : s.DirClusters y [y.startCluster])
    (hnames : filenameFromPath (basename path) (env.afterString s.tick) DirEntry.zero = .ok fields)
    (hrun : (if isDir then fatFuseMkdir env path else fatFuseMknod env path) s = .ok 0 u) :
    AddsOne path dir s u ↔ CreationSafe isDir y fields s := by
  obtain ⟨hwf, d, y', c, cluster, entry, hc⟩ := created_of_run isDir h hrun
  obtain ⟨q, hd⟩ := hc.directory
  obtain ⟨rfl, rfl⟩ := hat.unique h ⟨⟨q, d, hd, hc.path_eq, rfl⟩, hc.dirFile⟩
  obtain ⟨fields', hnames', hbytes⟩ := hc.named.names
  rw [hnames] at hnames'
  cases hnames'
  exact hc.addsOne_iff_safe hwf hord (hb.entry_le hc.lt_fatLen) hno hl hbytes

end Run

/-- The small volume just mounted, with this first byte of the first slot of its root directory. -/
def volumeWithByte (b : UInt8) : State :=
  final (initFileTree quietEnv 2 (bareState smallTable (fun i => if i = 32 then b else 0) []))

/-- A file made in the root directory of such a volume. -/
structure RootCreation (b : UInt8) (y : FatFile) (fields : DirEntry) (u : State) : Prop where
  treeWf : (volumeWithByte b).TreeWf
  absent : ¬ HasPath (volumeWithByte b).treeEntry dirPath
  parent : FileOfPath (volumeWithByte b) (dirname dirPath) 0 y
  counter : y.nentries = 0
  start : y.startCluster = 2
  dirClusters : (volumeWithByte b).DirClusters y [y.startCluster]
  names : filenameFromPath (basename dirPath) (quietEnv.afterString (volumeWithByte b).tick)
    DirEntry.zero = .ok fields
  run : fatFuseMknod quietEnv dirPath (volumeWithByte b) = .ok 0 u

/-- The volume has a well-formed tree, whatever the byte. -/
theorem volumeWithByte_treeWf (b : UInt8) : (volumeWithByte b).TreeWf := by
  have hmounted : Session.Mounted quietEnv ⟨volumeWithByte b, []⟩ :=
    ⟨rfl, 2, smallTable, fun i => if i = 32 then b else 0, [], by rfl⟩
  exact hmounted.treeWf

/-- The entries of the volume fill its clusters. -/
theorem volumeWithByte_clusterOrder (b : UInt8) : 5 ≤ (volumeWithByte b).table.clusterOrder := le_rfl

/-- The table of the volume lies before its data. -/
theorem volumeWithByte_beforeData (b : UInt8) : (volumeWithByte b).table.BeforeData :=
  (by decide : smallTable.fatOffset + 4 * smallTable.fatLen ≤ smallTable.dataStartOffset)

/-- A creation in the root of the volume, given what its calls answer. -/
theorem exists_rootCreation {b : UInt8}
    (hmade : ret? (fatFuseMknod quietEnv dirPath (volumeWithByte b)) = some 0)
    (hsearch : ret? (fatTreeNodeSearch dirPath (volumeWithByte b)) = some none)
    (hnode : ((volumeWithByte b).treeEntry 0).map (fun d => (d.path, d.file)) = some ([47], 0))
    (hfile : ((volumeWithByte b).files.cell 0).map (fun y => (y.nentries, y.startCluster)) =
      some (0, 2)) :
    ∃ y fields u, RootCreation b y fields u := by
  have h := volumeWithByte_treeWf b
  obtain ⟨u, hrun⟩ := ret?_eq_some hmade
  obtain ⟨v, hfound⟩ := ret?_eq_some hsearch
  obtain ⟨d, hd, hdata⟩ := Option.map_eq_some_iff.mp hnode
  obtain ⟨y, hy, hydata⟩ := Option.map_eq_some_iff.mp hfile
  obtain ⟨hpath, hfile⟩ := Prod.mk.inj hdata
  obtain ⟨hcounter, hstart⟩ := Prod.mk.inj hydata
  obtain ⟨-, d', y', c, cluster, entry, hc⟩ := created_of_run false h hrun
  obtain ⟨fields, hnames, -⟩ := hc.named.names
  obtain ⟨p, t, hok⟩ := id h
  refine ⟨y, fields, u, h, (fatTreeNodeSearch_ok hok hfound).2.2.mp rfl, ⟨⟨0, d, hd, hpath, hfile⟩, hy⟩,
    hcounter, hstart, ?_, hnames, hrun⟩
  have hvalid : (volumeWithByte b).table.IsValidClusterNumber y.startCluster := by
    rw [hstart]
    exact (by decide : smallTable.IsValidClusterNumber 2)
  unfold State.DirClusters
  rw [if_pos hvalid, hstart]
  refine ⟨⟨by decide, (by decide : smallTable.next 2 = none)⟩, fun c hc => ?_⟩
  rw [List.mem_singleton.mp hc]
  exact (by decide : 2 < smallTable.fatLen)

/-- A file in the first, free slot of the root directory. -/
theorem addsOne_iff_dirPath :
    ∃ y fields u, fatFuseMknod quietEnv dirPath (volumeWithByte 0) = .ok 0 u ∧
      (AddsOne dirPath 0 (volumeWithByte 0) u ↔
        CreationSafe false y fields (volumeWithByte 0)) := by
  obtain ⟨y, fields, u, h⟩ := exists_rootCreation (b := 0) (by decide +kernel) (by decide +kernel)
    (by decide +kernel) (by decide +kernel)
  have hrun : (if false then fatFuseMkdir quietEnv dirPath else fatFuseMknod quietEnv dirPath)
      (volumeWithByte 0) = .ok 0 u := h.run
  exact ⟨y, fields, u, h.run, addsOne_iff h.treeWf (volumeWithByte_clusterOrder 0) (volumeWithByte_beforeData 0)
    h.absent h.parent h.dirClusters h.names hrun⟩

/-- Before the root directory was listed, its counter is 0: the new file takes the slot of the file
`A`. -/
theorem not_forall_addsOne :
    ¬ ∀ (s u : State) (env : Env) (isDir : Bool) (path : CString) (dir : Nat) (y : FatFile),
      s.TreeWf → 5 ≤ s.table.clusterOrder → s.table.BeforeData → ¬ HasPath s.treeEntry path →
      FileOfPath s (dirname path) dir y → s.DirClusters y [y.startCluster] →
      (if isDir then fatFuseMkdir env path else fatFuseMknod env path) s = .ok 0 u →
      AddsOne path dir s u := by
  intro hall
  obtain ⟨y, fields, u, h⟩ := exists_rootCreation (b := 65) (by decide +kernel) (by decide +kernel)
    (by decide +kernel) (by decide +kernel)
  have hord := volumeWithByte_clusterOrder 65
  have hb := volumeWithByte_beforeData 65
  have hadds := hall _ u quietEnv false _ 0 y h.treeWf hord hb h.absent h.parent h.dirClusters h.run
  obtain ⟨hwf, d, y', c, cluster, entry, hc⟩ := created_of_run false h.treeWf h.run
  obtain ⟨q, hd⟩ := hc.directory
  obtain ⟨hdir, rfl⟩ := h.parent.unique h.treeWf ⟨⟨q, d, hd, hc.path_eq, rfl⟩, hc.dirFile⟩
  rw [hdir] at hadds
  have hvacant :=
    ((hc.addsOne_iff_safe hwf hord (hb.entry_le hc.lt_fatLen) h.absent h.dirClusters fun _ _ => rfl).mp
      hadds).vacant
  rw [h.start, h.counter] at hvacant
  have hlisted : ((volumeWithByte 65).returned (2, 0)).isSome = true := by decide +kernel
  rw [hvacant] at hlisted
  cases hlisted

end OsLabs.Fat
