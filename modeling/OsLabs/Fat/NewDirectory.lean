import OsLabs.Fat.CreatedEntry
import OsLabs.Fat.ShortNames

/-! # New directories

`fat_fuse_mkdir` takes the first free cluster for the new directory, and does not clear it: what the
cluster held before is read as directory entries. Each `fat_fuse_mknod` in the directory stores its
entry in the next slot, and behind the slots written so far the entries left from before are read up to
the first end mark (`newDirectory_iff`). -/

namespace OsLabs.Fat

open Cmd

/-- `fat_fuse_mknod` of one path after the other, each returning 0. -/
inductive MadeAll (env : Env) : List CString → State → State → Prop
  | nil (s : State) : MadeAll env [] s s
  | cons {path : CString} {paths : List CString} {s t u : State}
      (head : fatFuseMknod env path s = .ok 0 t) (tail : MadeAll env paths t u) :
      MadeAll env (path :: paths) s u

/-- The names that a listing makes of some entries. -/
def listedNames (entries : List DirEntry) : List CString :=
  (entries.filter fun e => e.Yields).map fun e => cstr (listedName e)

/-- A listing of the directory `dir` returns files with these names, in order, and sets the counter of
the directory to `n`. -/
def ListsNames (env : Env) (dir : Nat) (names : List CString) (n : Nat) (s : State) : Prop :=
  ∃ cs t x, fatFileReadChildren env dir s = .ok cs t ∧
    (cs.map fun c => (t.files.cell c).map fun f => cstr f.name) = names.map some ∧
    t.files.cell dir = some x ∧ x.nentries = n

/-- The entry of a file with a short name: the reader accepts it, and rebuilds the name if the base or
the extension leave room for the dot. -/
structure EntryOf (name : ShortName) (e : DirEntry) : Prop where
  live : ¬ e.IsEndOfDirectory
  yields : e.Yields
  spells : cstr (listedName e) = name.text ↔ ¬ name.FullWithExtension

section Names

variable {after : Nat → UInt8} {isDir : Bool} {path : CString} {cluster : Nat} {entry : DirEntry}
  {name : ShortName} {names : List ShortName} {es : List DirEntry}

/-- The entry of a path with a short name is one for this name. -/
theorem NamedEntry.entryOf (h : NamedEntry after isDir path cluster entry)
    (hname : basename path = name.text) : EntryOf name (newEntry entry) := by
  obtain ⟨fields, hrun, hbytes⟩ := h.names
  rw [hname] at hrun
  obtain ⟨hbase, hext, hspells⟩ := filenameFromPath_spells name after zeroNames_zero hrun
  have ha : AcceptedNames entry := (acceptedNames_congr hbytes).mpr (.inl ⟨hbase, hext⟩)
  obtain ⟨hiff, hlisted⟩ := newEntry_returned h
  obtain ⟨hlive, hyields⟩ := hiff.mpr ha
  refine ⟨hlive, hyields, ?_⟩
  rw [hlisted ha, buildFilename_congr hbytes]
  exact hspells

/-- The names of the children are those that the entries list. -/
theorem childrenOf_names (x : FatFile) (es : List DirEntry) (i : Nat) :
    ((childrenOf x es i).map fun f => cstr f.name) = listedNames es := by
  induction es generalizing i with
  | nil => rfl
  | cons e es ih =>
      rw [childrenOf_cons, List.map_append, ih]
      unfold listedNames
      by_cases hy : e.Yields
      · rw [if_pos hy, List.filter_cons_of_pos (by simpa using hy)]
        rfl
      · rw [if_neg hy, List.filter_cons_of_neg (by simpa using hy)]
        rfl

/-- No names are listed just if no entry yields a child. -/
theorem listedNames_eq_nil_iff : listedNames es = [] ↔ ∀ e ∈ es, ¬ e.Yields := by
  unfold listedNames
  rw [List.map_eq_nil_iff, List.filter_eq_nil_iff]
  simp

/-- Live entries are not cut off. -/
theorem cutAtEnd_append (h : List.Forall₂ EntryOf names es) (rest : List DirEntry) :
    cutAtEnd (es ++ rest) = es ++ cutAtEnd rest := by
  induction h with
  | nil => rfl
  | cons he _ ih => rw [List.cons_append, cutAtEnd_cons, if_neg he.live, ih, List.cons_append]

/-- The names of the created files, followed by names left from before, are the given ones if and only if
the names are rebuilt and none is left. -/
theorem listedNames_eq_iff (h : List.Forall₂ EntryOf names es) (rest : List DirEntry) :
    listedNames (es ++ rest) = names.map ShortName.text ↔
      (∀ n ∈ names, ¬ n.FullWithExtension) ∧ ∀ e ∈ rest, ¬ e.Yields := by
  induction h with
  | nil => simp [listedNames_eq_nil_iff]
  | @cons n e names es he _ ih =>
      have hcons : listedNames (e :: es ++ rest) = cstr (listedName e) :: listedNames (es ++ rest) := by
        unfold listedNames
        rw [List.cons_append, List.filter_cons_of_pos (by simpa using he.yields), List.map_cons]
      rw [hcons, List.map_cons, List.cons.injEq, ih, he.spells, List.forall_mem_cons, and_assoc]

end Names

/-! ## Filling the directory -/

/-- The directory with this path, whose only cluster is `c`, holds the entries of files with these names,
and behind them what was left of the entries `old`. -/
structure FilledDirectory (path : CString) (dir c : Nat) (old : List DirEntry) (names : List ShortName)
    (s : State) : Prop where
  tree : s.TreeWf
  table : s.table.Wf
  isCluster : s.table.IsCluster c
  used : s.table.fatMap c = fatClusterEndOfChain
  /-- Every file takes a cluster, so the counter does not overflow. -/
  counts : s.table.freeClusters.length + names.length < 2 ^ 32
  file : ∃ x, FileOfPath s path dir x ∧ x.startCluster = c ∧ x.nentries = names.length
  entries : ∃ es, List.Forall₂ EntryOf names es ∧ clusterEntries s c = es ++ old.drop es.length

section FilledDirectory

variable {s u v : State} {env : Env} {path p : CString} {dir c : Nat} {old : List DirEntry}
  {names : List ShortName} {n : ShortName}

/-- A node that stays, and the file at its address. -/
theorem FileOfPath.enlarged {file : Nat} {x y : FatFile} (h : FileOfPath s path file x)
    (hu : Enlarges s u) (hy : u.files.cell file = some y) : FileOfPath u path file y := by
  obtain ⟨⟨a, d, hd, hpath, hfile⟩, -⟩ := h
  exact ⟨⟨a, d, hu.entries.kept a d hd, hpath, hfile⟩, hy⟩

/-- One more file. -/
theorem FilledDirectory.created (h : FilledDirectory path dir c old names s)
    (hrun : fatFuseMknod env p s = .ok 0 u) (hdir : dirname p = path) (hname : basename p = n.text) :
    FilledDirectory path dir c old (names ++ [n]) u := by
  obtain ⟨x, hat, hstart, hcount⟩ := h.file
  obtain ⟨es, hes, hentries⟩ := h.entries
  rw [fatFuseMknod_eq] at hrun
  have hlarger := createFile_enlarges h.tree hrun
  obtain ⟨d, y, c', cluster, entry, hc⟩ := createFile_created (by decide) h.tree hrun
  obtain ⟨q, hd⟩ := hc.directory
  -- The path still leads to the same directory.
  obtain ⟨rfl, rfl⟩ := hat.unique h.tree ⟨⟨q, d, hd, hc.path_eq.trans hdir, rfl⟩, hc.dirFile⟩
  have hsame := hc.sameVolume
  have hfits := hc.fits_slot h.table.order_ge
  obtain ⟨htaken, -⟩ := hc.first.isCluster h.table hc.lt_fatLen
  have hlen := hes.length_eq
  -- The new file's cluster was free, and the cluster of the directory is in use.
  have hne : c ≠ cluster := by
    rintro rfl
    have hfree := hc.free
    rw [h.used] at hfree
    exact absurd hfree (by decide)
  have hfewer : u.table.freeClusters.length < s.table.freeClusters.length := by
    rw [hc.table]
    exact FatTable.length_freeClusters_setEntry_lt h.table htaken hc.free (by decide)
  have hcounts := h.counts
  have hvalid : s.table.IsValidClusterNumber x.startCluster := by
    rw [hstart]
    exact h.isCluster.isValid
  -- The entry is written in the slot behind those that were made before.
  have hw := hc.slotWritten h.table.order_ge (h.table.entry_le_mod htaken) (l := [c]) hvalid fun e he => by
    rw [List.mem_singleton.mp he]
    exact h.isCluster.isValid
  rw [hstart, hcount] at hw
  refine ⟨hlarger.wf, hsame.wf h.table, (hsame.isCluster_iff c).mpr h.isCluster, ?_, ?_,
    ⟨_, hat.enlarged hlarger hc.parent, hstart, ?_⟩, ⟨es ++ [newEntry entry], ?_, ?_⟩⟩
  · rw [hc.table, FatTable.fatMap_setEntry, if_neg hne]
    exact h.used
  · rw [List.length_append, List.length_singleton]
    omega
  · show (x.nentries + 1) % 2 ^ 32 = _
    rw [hcount, List.length_append, List.length_singleton, Nat.mod_eq_of_lt (by omega)]
  · exact List.rel_append hes (.cons (hc.named.entryOf hname) .nil)
  -- A free slot is left, because all the entries together fill one cluster.
  · have hlt : es.length < old.length := by
      have htotal := congrArg List.length hentries
      simp only [clusterEntries, List.length_map, List.length_range, List.length_append,
        List.length_drop] at htotal
      omega
    rw [hw.clusterEntries_eq (List.mem_singleton_self c) hsame.bytesPerCluster, hentries, hlen,
      List.set_append_right _ _ le_rfl, Nat.sub_self, List.drop_eq_getElem_cons hlt, List.set_cons_zero,
      List.length_append, List.length_singleton, List.append_assoc, List.singleton_append]

/-- All of the files. -/
theorem FilledDirectory.madeAll {files : List (CString × ShortName)}
    (h : FilledDirectory path dir c old names s)
    (hfiles : ∀ f ∈ files, dirname f.1 = path ∧ basename f.1 = f.2.text)
    (hmade : MadeAll env (files.map Prod.fst) s u) :
    FilledDirectory path dir c old (names ++ files.map Prod.snd) u := by
  induction files generalizing names s with
  | nil =>
      cases hmade
      rwa [List.map_nil, List.append_nil]
  | cons f files ih =>
      obtain ⟨⟨hdir, hname⟩, hrest⟩ := List.forall_mem_cons.mp hfiles
      cases hmade with
      | cons hrun hmade =>
          have hnext := ih (h.created hrun hdir hname) hrest hmade
          rwa [List.append_assoc, List.singleton_append] at hnext

/-- What a listing of the directory returns. -/
theorem FilledDirectory.lists (h : FilledDirectory path dir c old names s) (env : Env) (hio : s.IoOk) :
    ListsNames env dir (listedNames (cutAtEnd (clusterEntries s c)))
      (cutAtEnd (clusterEntries s c)).length s := by
  obtain ⟨x, hat, hstart, -⟩ := h.file
  have hchain : Chain s.table.next (FatTable.cluster? x.startCluster) [c] := by
    rw [hstart, FatTable.cluster?_of_not_isEoc h.isCluster.not_isEoc]
    exact ⟨rfl, FatTable.next_eq_none (.inl (by rw [h.used]; decide))⟩
  have hin : ∀ d ∈ [c], d < s.table.fatLen := fun d hd => by
    rw [List.mem_singleton.mp hd]
    exact h.isCluster.lt_fatLen
  obtain ⟨cs, t, x', hrun, hx', hcounter, hlisted⟩ :=
    fatFileReadChildren_run env hio hat.2 (by rw [hstart]; exact h.isCluster.isValid) hchain hin
  refine ⟨cs, t, x', hrun, ?_, hx', hcounter⟩
  have hnames := congrArg (List.map (Option.map fun f : FatFile => cstr f.name)) hlisted.made
  rw [← childrenOf_names x _ 0]
  simpa [Function.comp_def] using hnames

end FilledDirectory

/-! ## The property and its condition -/

/-- What a listing returns is determined. -/
theorem ListsNames.unique {env : Env} {dir n m : Nat} {names names' : List CString} {s : State}
    (h : ListsNames env dir names n s) (h' : ListsNames env dir names' m s) : names = names' ∧ n = m := by
  obtain ⟨cs, t, x, hrun, hnames, hx, rfl⟩ := h
  obtain ⟨cs', t', x', hrun', hnames', hx', rfl⟩ := h'
  rw [hrun] at hrun'
  cases hrun'
  rw [hx] at hx'
  cases hx'
  exact ⟨List.map_injective_iff.mpr (Option.some_injective _) (hnames.symm.trans hnames'), rfl⟩

/-- The new directory `dir` is empty at first, and holds the files with these names in the end. -/
structure NewDirectoryRight (env : Env) (dir : Nat) (names : List CString) (u v : State) : Prop where
  empty : ListsNames env dir [] 0 u
  filled : ∃ n, ListsNames env dir names n v

/-- The condition on what the cluster `c` held before: an end mark in its first slot, and behind the slots
of the files nothing that is listed, up to the first end mark. The names have no extension behind a
base of eight characters. -/
structure NewDirectorySafe (names : List ShortName) (c : Nat) (s : State) : Prop where
  first : (s.clusterEntry c 0).IsEndOfDirectory
  rest : ∀ e ∈ cutAtEnd ((clusterEntries s c).drop names.length), ¬ e.Yields
  names : ∀ n ∈ names, ¬ n.FullWithExtension

section Run

variable {s u v : State} {env : Env} {path : CString} {dir c : Nat} {x : FatFile} {live unread : Set Nat}
  {files : List (CString × ShortName)}

/-- No entries come before an end mark in the first slot. -/
theorem cutAtEnd_clusterEntries_eq_nil_iff (ht : s.table.Wf) (c : Nat) :
    cutAtEnd (clusterEntries s c) = [] ↔ (s.clusterEntry c 0).IsEndOfDirectory := by
  obtain ⟨k, hk⟩ := ht.thirty_two_dvd
  have hpos := s.table.bytesPerCluster_pos
  obtain ⟨n, hn⟩ : ∃ n, s.table.bytesPerCluster / 32 = n + 1 :=
    ⟨k - 1, by omega⟩
  unfold clusterEntries
  rw [hn, List.range_succ_eq_map, List.map_cons, cutAtEnd_cons]
  split_ifs with h <;> simp [h]

/-- The new directory as `fat_fuse_mkdir` leaves it. -/
theorem filledDirectory_of_mkdir (h : s.TreeWf) (hwf : VolumeWf s live unread)
    (hlive : ∀ q d, s.treeEntry q = some d → d.file ∈ live) (hno : ¬ HasPath s.treeEntry path)
    (hmkdir : fatFuseMkdir env path s = .ok 0 u) (hdir : FileOfPath u path dir x)
    (hfirst : s.table.freeClusters.head? = some c) :
    FilledDirectory path dir c (clusterEntries s c) [] u := by
  have ht := hwf.table
  rw [fatFuseMkdir_eq] at hmkdir
  have hlarger := createFile_enlarges h hmkdir
  obtain ⟨d, y, c', cluster, entry, hc⟩ := createFile_created (by decide) h hmkdir
  obtain ⟨htaken, hhead⟩ := hc.first.isCluster ht hc.lt_fatLen
  obtain rfl : c = cluster := Option.some.inj (hfirst.symm.trans hhead)
  have hsame := hc.sameVolume
  obtain ⟨-, rfl⟩ := hdir.unique hlarger.wf (hc.fileAt hno)
  -- the directory above has a cluster of its own
  obtain ⟨q, hd⟩ := hc.directory
  obtain ⟨l, hl⟩ := hwf.chains.exists_isChain y.startCluster
    (.inl ⟨d.file, hlive q d hd, y, hc.dirFile, rfl⟩)
  have hne : c ≠ y.startCluster := by
    rintro rfl
    exact hl.allocated _ hl.start_mem hc.free
  have hw := hc.slotWritten ht.order_ge (ht.entry_le_mod htaken) hl.start.isValid (l := [c]) fun e he => by
    rw [List.mem_singleton.mp he]
    exact htaken.isValid
  refine ⟨hlarger.wf, hsame.wf ht, (hsame.isCluster_iff c).mpr htaken, ?_, ?_, ⟨_, hdir, rfl, rfl⟩,
    ⟨[], .nil, ?_⟩⟩
  · rw [hc.table, FatTable.fatMap_setEntry, if_pos rfl]
  · have hcount := u.table.length_freeClusters_le
    have hbound := (hsame.wf ht).fatLen_le_eoc
    unfold fatClusterEndOfChain at hbound
    rw [List.length_nil]
    omega
  · exact hw.clusterEntries_ne (List.mem_singleton_self c) hne hsame.bytesPerCluster

/-- **New directories.** After `fat_fuse_mkdir` a listing of the new directory is empty and sets its
counter to 0, and after `fat_fuse_mknod` of further files it returns these files, exactly when the
cluster taken had an end mark in its first slot and nothing to list behind the slots of the files, and
the names leave room for their dot. -/
theorem newDirectory_iff (h : s.TreeWf) (hwf : VolumeWf s live unread)
    (hlive : ∀ q d, s.treeEntry q = some d → d.file ∈ live) (hno : ¬ HasPath s.treeEntry path)
    (hmkdir : fatFuseMkdir env path s = .ok 0 u) (hdir : FileOfPath u path dir x)
    (hfirst : s.table.freeClusters.head? = some c)
    (hfiles : ∀ f ∈ files, dirname f.1 = path ∧ basename f.1 = f.2.text)
    (hmade : MadeAll env (files.map Prod.fst) u v) (hu : u.IoOk) (hv : v.IoOk) :
    NewDirectoryRight env dir (files.map fun f => f.2.text) u v ↔
      NewDirectorySafe (files.map Prod.snd) c s := by
  have hnew := filledDirectory_of_mkdir h hwf hlive hno hmkdir hdir hfirst
  have hfilled := hnew.madeAll hfiles hmade
  rw [List.nil_append] at hfilled
  obtain ⟨es, hes, hentries⟩ := hfilled.entries
  obtain ⟨es₀, hnone, hold⟩ := hnew.entries
  cases hnone
  -- Both listings are computed: the one after `mkdir` and the one after all the files.
  have hlists := hnew.lists env hu
  rw [hold, List.nil_append, List.length_nil, List.drop_zero] at hlists
  have hlists' := hfilled.lists env hv
  rw [hentries, cutAtEnd_append hes, ← hes.length_eq] at hlists'
  have hnames : (files.map fun f => f.2.text) = (files.map Prod.snd).map ShortName.text := by
    rw [List.map_map]
    rfl
  rw [hnames]
  constructor
  -- A stale entry in front of the end mark would be listed from the start.
  · rintro ⟨hempty, n, hall⟩
    obtain ⟨-, hcounter⟩ := hempty.unique hlists
    obtain ⟨heq, -⟩ := hlists'.unique hall
    obtain ⟨hroom, hrest⟩ := (listedNames_eq_iff hes _).mp heq
    refine ⟨?_, hrest, hroom⟩
    rw [← cutAtEnd_clusterEntries_eq_nil_iff hwf.table]
    exact List.length_eq_zero_iff.mp hcounter.symm
  · rintro ⟨hmark, hrest, hroom⟩
    rw [← cutAtEnd_clusterEntries_eq_nil_iff hwf.table] at hmark
    rw [hmark] at hlists
    rw [(listedNames_eq_iff hes _).mpr ⟨hroom, hrest⟩] at hlists'
    exact ⟨hlists, _, hlists'⟩

end Run

/-- The small volume just mounted, with this byte at the start of the first free cluster. -/
def volumeWithOldByte (b : UInt8) : State :=
  final (initFileTree quietEnv 2 (bareState smallTable (fun i => if i = 96 then b else 0) []))

section Example

variable {b : UInt8}

/-- The volume has a well-formed tree, whatever the old byte. -/
theorem volumeWithOldByte_treeWf (b : UInt8) : (volumeWithOldByte b).TreeWf := by
  have hmounted : Session.Mounted quietEnv ⟨volumeWithOldByte b, []⟩ :=
    ⟨rfl, 2, smallTable, fun i => if i = 96 then b else 0, [], by rfl⟩
  exact hmounted.treeWf

/-- The tree holds the root directory only. -/
theorem volumeWithOldByte_entry {q : Nat} {d : TreeEntry}
    (hd : (volumeWithOldByte b).treeEntry q = some d) : d.path = [47] ∧ d.file = 0 := by
  obtain ⟨node, f, hnode, -, -⟩ := treeEntry_eq_some hd
  have hlt : q < 1 := Heap.lt_next hnode
  obtain rfl : q = 0 := by omega
  cases hd
  exact ⟨rfl, rfl⟩

/-- The volume is well formed, whatever the old byte. -/
theorem volumeWithOldByte_wf (b : UInt8) : VolumeWf (volumeWithOldByte b) {0} ∅ := by
  obtain ⟨f, d, hf, hd, hstart, hsize⟩ : ∃ f d, (volumeWithOldByte b).files.cell 0 = some f ∧
      f.dentry = some d ∧ f.startCluster = 2 ∧ d.fileSize = 0 :=
    ⟨_, _, rfl, rfl, rfl, DirEntry.fileSize_setFileSize _ 0⟩
  have hstarts {c : Nat} (hc : c ∈ (volumeWithOldByte b).starts {0} ∪ ∅) : c = 2 := by
    obtain ⟨file, rfl, f', hf', rfl⟩ := hc.resolve_right (Set.notMem_empty c)
    rw [hf] at hf'
    cases hf'
    exact hstart
  refine ⟨smallTable_wf, ?_, ?_, ?_, Set.disjoint_empty _,
    ⟨fun c hc => ⟨[c], smallTable_isChain (.inl (hstarts hc))⟩, ?_⟩⟩
  · rintro file rfl
    exact ⟨f, d, hf, hd⟩
  · rintro file rfl d' hd' -
    unfold State.entry at hd'
    rw [hf, Option.bind_some, hd] at hd'
    cases hd'
    exact hsize
  · rintro file rfl file' rfl _ _ _ _ _
    rfl
  · intro c hc d hd hcd
    exact absurd ((hstarts hc).trans (hstarts hd).symm) hcd

/-- The new directory is not there yet. -/
theorem not_hasPath_volumeWithOldByte (b : UInt8) : ¬ HasPath (volumeWithOldByte b).treeEntry dirPath := by
  rintro ⟨q, d, hd, hpath⟩
  rw [(volumeWithOldByte_entry hd).1] at hpath
  exact absurd hpath (by decide)

end Example

/-- `"/d/A.TXT"`. -/
def fileInDirPath : CString := dirPath ++ slash :: shortBaseName.text

/-- With no results left every call is carried out whole. -/
theorem ioOk_of_isEmpty {s : State} (h : s.io.isEmpty = true) : s.IoOk := by
  intro r hr
  rw [List.isEmpty_iff.mp h] at hr
  cases hr

/-- A file in a new directory. -/
theorem newDirectory_iff_fileInDirPath :
    ∃ u v dir, fatFuseMkdir quietEnv dirPath (volumeWithOldByte 0) = .ok 0 u ∧
      fatFuseMknod quietEnv fileInDirPath u = .ok 0 v ∧
      (NewDirectoryRight quietEnv dir [shortBaseName.text] u v ↔
        NewDirectorySafe [shortBaseName] 4 (volumeWithOldByte 0)) := by
  obtain ⟨u, hmkdir⟩ := ret?_eq_some (by decide +kernel :
    ret? (fatFuseMkdir quietEnv dirPath (volumeWithOldByte 0)) = some 0)
  have hmade : ret? (fatFuseMknod quietEnv fileInDirPath
        (final (fatFuseMkdir quietEnv dirPath (volumeWithOldByte 0)))) = some 0 ∧
      (final (fatFuseMkdir quietEnv dirPath (volumeWithOldByte 0))).io.isEmpty = true ∧
      (final (fatFuseMknod quietEnv fileInDirPath
        (final (fatFuseMkdir quietEnv dirPath (volumeWithOldByte 0))))).io.isEmpty = true := by
    decide +kernel
  rw [hmkdir] at hmade
  obtain ⟨hret, hu, hv⟩ := hmade
  obtain ⟨v, hmknod⟩ := ret?_eq_some hret
  rw [hmknod] at hv
  have h := volumeWithOldByte_treeWf 0
  have hwf := volumeWithOldByte_wf 0
  have hno := not_hasPath_volumeWithOldByte 0
  obtain ⟨-, d, y, c, cluster, entry, hc⟩ := created_of_run true h hmkdir
  have hfiles : ∀ f ∈ [(fileInDirPath, shortBaseName)], dirname f.1 = dirPath ∧ basename f.1 = f.2.text := by
    intro f hf
    rw [List.mem_singleton.mp hf]
    decide +kernel
  refine ⟨u, v, c, hmkdir, hmknod, newDirectory_iff h hwf (fun q d hd => (volumeWithOldByte_entry hd).2) hno
    hmkdir (hc.fileAt hno) (by decide) hfiles (.cons hmknod (.nil v)) (ioOk_of_isEmpty hu)
    (ioOk_of_isEmpty hv)⟩

/-- The cluster taken holds an old entry: the new directory is not empty. -/
theorem not_forall_newDirectoryRight :
    ¬ ∀ (s u v : State) (env : Env) (path : CString) (dir c : Nat) (x : FatFile) (live unread : Set Nat)
      (files : List (CString × ShortName)), s.TreeWf → VolumeWf s live unread →
      (∀ q d, s.treeEntry q = some d → d.file ∈ live) → ¬ HasPath s.treeEntry path →
      fatFuseMkdir env path s = .ok 0 u → FileOfPath u path dir x →
      s.table.freeClusters.head? = some c →
      (∀ f ∈ files, dirname f.1 = path ∧ basename f.1 = f.2.text) →
      MadeAll env (files.map Prod.fst) u v → u.IoOk → v.IoOk →
      NewDirectoryRight env dir (files.map fun f => f.2.text) u v := by
  intro hall
  obtain ⟨u, hmkdir⟩ := ret?_eq_some (by decide +kernel :
    ret? (fatFuseMkdir quietEnv dirPath (volumeWithOldByte 65)) = some 0)
  have hu : (final (fatFuseMkdir quietEnv dirPath (volumeWithOldByte 65))).io.isEmpty = true := by
    decide +kernel
  rw [hmkdir] at hu
  have h := volumeWithOldByte_treeWf 65
  have hwf := volumeWithOldByte_wf 65
  have hno := not_hasPath_volumeWithOldByte 65
  have hlive {q : Nat} {d : TreeEntry} (hd : (volumeWithOldByte 65).treeEntry q = some d) :
      d.file ∈ ({0} : Set Nat) := (volumeWithOldByte_entry hd).2
  have hfirst : (volumeWithOldByte 65).table.freeClusters.head? = some 4 := by decide
  obtain ⟨-, d, y, c, cluster, entry, hc⟩ := created_of_run true h hmkdir
  have hright := hall _ u u quietEnv _ c 4 _ {0} ∅ [] h hwf (fun _ _ => hlive) hno hmkdir (hc.fileAt hno)
    hfirst (fun f hf => absurd hf List.not_mem_nil) (.nil u) (ioOk_of_isEmpty hu) (ioOk_of_isEmpty hu)
  have hnew := filledDirectory_of_mkdir h hwf (fun _ _ => hlive) hno hmkdir (hc.fileAt hno) hfirst
  obtain ⟨es, hnone, hentries⟩ := hnew.entries
  cases hnone
  obtain ⟨-, hcounter⟩ := hright.empty.unique (hnew.lists quietEnv (ioOk_of_isEmpty hu))
  have hmark := List.length_eq_zero_iff.mp hcounter.symm
  rw [hentries, List.nil_append, List.length_nil, List.drop_zero,
    cutAtEnd_clusterEntries_eq_nil_iff hwf.table] at hmark
  exact absurd hmark (by decide +kernel)

end OsLabs.Fat
