import OsLabs.Fat.Disk
import OsLabs.Fat.File
import OsLabs.Fat.Volume

/-! # Well-formed volumes

The clusters of a table are shared out among chains: `FatTable.IsChain t start l` is a chain of
allocated clusters, and `FatTable.Chains t starts` says that the chains of a set of start clusters exist
and are disjoint. A volume is well formed (`VolumeWf`) when the start clusters of its files have that
property. -/

namespace OsLabs.Fat

namespace FatTable

/-! ## Chains of allocated clusters -/

/-- `l` are the clusters visited from `start` until the end of the chain, all of them allocated. -/
structure IsChain (t : FatTable) (start : Nat) (l : List Nat) : Prop where
  isCluster : ∀ c ∈ l, t.IsCluster c
  chain : Chain t.next (some start) l
  allocated : ∀ c ∈ l, t.fatMap c ≠ fatClusterFree

/-- The start clusters `starts` have chains, and these are pairwise disjoint. -/
structure Chains (t : FatTable) (starts : Set Nat) : Prop where
  exists_isChain : ∀ c ∈ starts, ∃ l, t.IsChain c l
  disjoint : ∀ c ∈ starts, ∀ d ∈ starts, c ≠ d → ∀ l m, t.IsChain c l → t.IsChain d m → l.Disjoint m

/-- The free clusters, in order. -/
def freeClusters (t : FatTable) : List Nat :=
  (List.range t.fatLen).filter fun c => t.IsValidClusterNumber c ∧ t.fatMap c = fatClusterFree

variable {t t' : FatTable} {c d : Nat} {l m : List Nat} {starts : Set Nat}

namespace IsChain

/-- A start cluster has at most one chain. -/
theorem unique (h : t.IsChain c l) (h' : t.IsChain c m) : l = m := h.chain.unique h'.chain

/-- The clusters of a chain have valid numbers. -/
theorem isValid (h : t.IsChain c l) : ∀ d ∈ l, t.IsValidClusterNumber d := fun d hd => (h.isCluster d hd).isValid

/-- The clusters of a chain have entries in the FAT. -/
theorem lt_fatLen (h : t.IsChain c l) : ∀ d ∈ l, d < t.fatLen := fun d hd => (h.isCluster d hd).lt_fatLen

/-- A chain has a cluster. -/
theorem ne_nil (h : t.IsChain c l) : l ≠ [] := by
  rintro rfl
  cases h.chain

/-- The first cluster is in the chain. -/
theorem start_mem (h : t.IsChain c l) : c ∈ l := by
  cases l with
  | nil => exact absurd rfl h.ne_nil
  | cons a l =>
      cases h.chain.1
      exact List.mem_cons_self

/-- A chain starts at a cluster. -/
theorem start (h : t.IsChain c l) : t.IsCluster c := h.isCluster c h.start_mem

/-- A chain of clusters is followed by `fat_table_get_next_cluster` from its first one. -/
theorem chain_cluster? (h : t.IsChain c l) : Chain t.next (cluster? c) l := by
  rw [cluster?_of_not_isEoc h.start.not_isEoc]
  exact h.chain

/-- A chain depends on the entries of its clusters only. -/
theorem congr (h : t.IsChain c l) (hv : SameVolume t t')
    (heq : ∀ d ∈ l, t'.fatMap d = t.fatMap d) : t'.IsChain c l where
  isCluster d hd := (hv.isCluster_iff d).mpr (h.isCluster d hd)
  chain := h.chain.congr fun d hd => hv.next_eq (heq d hd)
  allocated d hd := by
    rw [heq d hd]
    exact h.allocated d hd

/-- A single cluster that is marked as the end of a chain. -/
theorem singleton (hc : t.IsCluster c) (hused : t.fatMap c ≠ fatClusterFree)
    (hend : t.next c = none) : t.IsChain c [c] where
  isCluster d hd := by
    rw [List.mem_singleton.mp hd]
    exact hc
  chain := ⟨rfl, hend⟩
  allocated d hd := by
    rw [List.mem_singleton.mp hd]
    exact hused

end IsChain

/-- A free cluster linked behind the last one extends the chain. -/
theorem IsChain.extend {b : Nat} (h : t.IsChain c (l ++ [b])) (hd : t.IsCluster d)
    (hfree : t.fatMap d = fatClusterFree) :
    ((t.setEntry b d).setEntry d fatClusterEndOfChain).IsChain c (l ++ [b, d]) := by
  have hb : b ∈ l ++ [b] := List.mem_append_right l List.mem_cons_self
  have hdl : d ∉ l ++ [b] := fun hmem => h.allocated d hmem hfree
  have hbd : b ≠ d := fun heq => hdl (heq ▸ hb)
  have hnodup := List.nodup_append.mp h.chain.nodup
  have hne (a : Nat) (ha : a ∈ l) : a ≠ d ∧ a ≠ b :=
    ⟨fun heq => hdl (heq ▸ List.mem_append_left _ ha),
      fun heq => hnodup.2.2 a ha b List.mem_cons_self heq⟩
  have hmem {a : Nat} (ha : a ∈ l ++ [b, d]) : a ∈ l ++ [b] ∨ a = d := by
    simpa [or_assoc] using ha
  refine ⟨fun a ha => ?_, h.chain.snoc ?_ (next_setEntry_eoc (t.setEntry b d) d) fun a ha => ?_,
    fun a ha => ?_⟩
  · rcases hmem ha with hold | rfl
    · exact h.isCluster a hold
    · exact hd
  · rw [next_setEntry_ne hbd, next_setEntry_self hd]
  · rw [next_setEntry_ne (hne a ha).1, next_setEntry_ne (hne a ha).2]
  · rw [fatMap_setEntry, fatMap_setEntry]
    by_cases had : a = d
    · rw [if_pos had]
      decide
    · rw [if_neg had]
      by_cases hab : a = b
      · rw [if_pos hab]
        exact Nat.ne_of_gt (Nat.lt_of_lt_of_le Nat.zero_lt_two hd.two_le)
      · rw [if_neg hab]
        exact h.allocated a ((hmem ha).resolve_right had)

/-! ## Changing one chain -/

namespace Chains

/-- A chain other than `c`'s is untouched by a change of `c`'s chain that takes up free clusters
only. -/
theorem keep (h : t.Chains starts) (hc : c ∈ starts) (hd : d ∈ starts) (hne : d ≠ c)
    (hl : t.IsChain c l) (hv : SameVolume t t')
    (hsame : ∀ e, e ∉ l → t.fatMap e ≠ fatClusterFree → t'.fatMap e = t.fatMap e)
    (hm : t.IsChain d m) : t'.IsChain d m :=
  hm.congr hv fun e he =>
    hsame e (fun hel => h.disjoint d hd c hc hne m l hm hl he hel) (hm.allocated e he)

/-- The chain of one start cluster is replaced by one that takes up free clusters only. -/
theorem replace (h : t.Chains starts) (hc : c ∈ starts) (hl : t.IsChain c l) (hm : t'.IsChain c m)
    (hv : SameVolume t t')
    (hsame : ∀ e, e ∉ l → t.fatMap e ≠ fatClusterFree → t'.fatMap e = t.fatMap e)
    (hnew : ∀ e ∈ m, e ∉ l → t.fatMap e = fatClusterFree) : t'.Chains starts := by
  have hkeep (d : Nat) (hd : d ∈ starts) (hne : d ≠ c) {n : List Nat} (hn : t'.IsChain d n) :
      t.IsChain d n := by
    obtain ⟨n', hn'⟩ := h.exists_isChain d hd
    rwa [hn.unique (h.keep hc hd hne hl hv hsame hn')]
  have hdisj (d : Nat) (hd : d ∈ starts) (hne : d ≠ c) {n : List Nat} (hn : t.IsChain d n) :
      n.Disjoint m := fun e hen hem => by
    by_cases hel : e ∈ l
    · exact h.disjoint d hd c hc hne n l hn hl hen hel
    · exact hn.allocated e hen (hnew e hem hel)
  refine ⟨fun d hd => ?_, fun d hd e he hde n n' hn hn' => ?_⟩
  · by_cases hdc : d = c
    · exact ⟨m, hdc ▸ hm⟩
    · obtain ⟨n, hn⟩ := h.exists_isChain d hd
      exact ⟨n, h.keep hc hd hdc hl hv hsame hn⟩
  · by_cases hdc : d = c
    · subst hdc
      rw [hn.unique hm]
      exact fun a ha ha' => hdisj e he (Ne.symm hde) (hkeep e he (Ne.symm hde) hn') ha' ha
    · by_cases hec : e = c
      · subst hec
        rw [hn'.unique hm]
        exact hdisj d hd hde (hkeep d hd hde hn)
      · exact h.disjoint d hd e he hde n n' (hkeep d hd hdc hn) (hkeep e he hec hn')

end Chains

/-! ## Free clusters -/

/-- The free clusters are those with a zero entry. -/
theorem mem_freeClusters (ht : t.Wf) :
    c ∈ t.freeClusters ↔ t.IsCluster c ∧ t.fatMap c = fatClusterFree := by
  rw [freeClusters, List.mem_filter, List.mem_range, decide_eq_true_iff, ht.isCluster_iff]
  tauto

/-- Where there are free clusters, there is one. -/
theorem exists_free (ht : t.Wf) (h : 0 < t.freeClusters.length) :
    ∃ c, t.IsCluster c ∧ t.fatMap c = fatClusterFree := by
  obtain ⟨c, hc⟩ := List.exists_mem_of_length_pos h
  exact ⟨c, (mem_freeClusters ht).mp hc⟩

/-- A free cluster that is taken into use is not free any more, and no other one becomes free. -/
theorem length_freeClusters_setEntry_lt (ht : t.Wf) (hc : t.IsCluster c)
    (hfree : t.fatMap c = fatClusterFree) {v : Nat} (hv : v ≠ fatClusterFree) :
    (t.setEntry c v).freeClusters.length < t.freeClusters.length := by
  have heq : (t.setEntry c v).freeClusters = t.freeClusters.filter fun d => d ≠ c := by
    unfold freeClusters
    rw [List.filter_filter]
    apply List.filter_congr
    intro d _
    rw [fatMap_setEntry]
    by_cases hd : d = c
    · simp [hd, hv]
    · simp [hd, (SameVolume.setEntry t c v).isValid_iff d]
  rw [heq]
  exact List.length_filter_lt_length_iff_exists.mpr ⟨c, (mem_freeClusters ht).mpr ⟨hc, hfree⟩, by simp⟩

/-- There are no more free clusters than entries. -/
theorem length_freeClusters_le (t : FatTable) : t.freeClusters.length ≤ t.fatLen := by
  have hle : t.freeClusters.length ≤ _ := List.length_filter_le _ _
  rwa [List.length_range] at hle

/-- Of two free clusters, one is not `d`. -/
theorem exists_free_ne (ht : t.Wf) (h : 1 < t.freeClusters.length) (d : Nat) :
    ∃ c ≠ d, t.IsCluster c ∧ t.fatMap c = fatClusterFree := by
  have hnodup : t.freeClusters.Nodup := List.Nodup.filter _ List.nodup_range
  have hpos : 0 < (t.freeClusters.erase d).length :=
    Nat.lt_of_lt_of_le (Nat.sub_pos_of_lt h) List.le_length_erase
  obtain ⟨c, hc⟩ := List.exists_mem_of_length_pos hpos
  obtain ⟨hne, hmem⟩ := hnodup.mem_erase_iff.mp hc
  exact ⟨c, hne, (mem_freeClusters ht).mp hmem⟩

end FatTable

/-! ## Volumes -/

/-- The directory entry of a file. -/
def State.entry (s : State) (file : Nat) : Option DirEntry :=
  (s.files.cell file).bind FatFile.dentry

/-- The start clusters of some files. -/
def State.starts (s : State) (live : Set Nat) : Set Nat :=
  {c | ∃ file ∈ live, ∃ f, s.files.cell file = some f ∧ f.startCluster = c}

/-- A well-formed volume with the files `live` in memory and the files with the start clusters
`unread` that have not been read yet. -/
structure VolumeWf (s : State) (live unread : Set Nat) : Prop where
  table : s.table.Wf
  entry : ∀ file ∈ live, ∃ f d, s.files.cell file = some f ∧ f.dentry = some d
  directory : ∀ file ∈ live, ∀ d, s.entry file = some d → d.IsDirectory → d.fileSize = 0
  distinct : ∀ file ∈ live, ∀ file' ∈ live, ∀ f f', s.files.cell file = some f →
    s.files.cell file' = some f' → f.startCluster = f'.startCluster → file = file'
  unread_disjoint : Disjoint (s.starts live) unread
  chains : s.table.Chains (s.starts live ∪ unread)

/-- `bytes` are the first `size` bytes of the data of the chain of a start cluster. -/
def HasBytes (s : State) (start size : Nat) (bytes : List UInt8) : Prop :=
  ∃ l, s.table.IsValidClusterNumber start ∧ Chain s.table.next (some start) l ∧
    bytes = (chainBytes s l).take size

/-- The content of a file: the first `file_size` bytes of its chain. -/
def HasContent (s : State) (file : Nat) (bytes : List UInt8) : Prop :=
  ∃ f d, s.files.cell file = some f ∧ f.dentry = some d ∧
    HasBytes s f.startCluster d.fileSize bytes

/-! ## A small volume -/

/-- An environment in which nothing happens. -/
def quietEnv : Env where
  time _ := 0
  afterString _ _ := 0
  nowStr _ := []
  login := []
  mktime _ := 0
  aroundBuffer _ := 0

/-- A table of six clusters of 32 bytes, two of them the chains of a directory and of a file. -/
def smallTable : FatTable where
  fatMap c := if c = 2 ∨ c = 3 then fatClusterEndOfChain else fatClusterFree
  fatLen := 8
  fatOffset := 0
  numDataClusters := 6
  dataStartOffset := 32
  clusterOrder := 5

/-- A file that starts at a cluster. -/
def fileAt (startCluster attribs : Nat) (filepath : CString) : FatFile where
  dentry := some (DirEntry.zero.setAttribs attribs)
  name := []
  filepath := filepath
  startCluster := startCluster
  nentries := 0
  posInParent := 0
  numTimesOpened := 0
  childrenRead := true

/-- The root directory and an empty file on the small table. -/
def smallVolume : State where
  nodes := Heap.empty
  store := (Heap.empty.alloc (fileAt 2 fileAttributeDirectory rootPath)).alloc
    (fileAt 3 fileAttributeArchive fsLogPath)
  errno := 0
  dev := ⟨fun _ => 0, []⟩
  io := []
  tick := 0
  table := smallTable
  fileTree := none

/-- The small table is well formed. -/
theorem smallTable_wf : smallTable.Wf := ⟨⟨by decide, by decide⟩, by decide⟩

/-- Both clusters of the small table are chains of their own. -/
theorem smallTable_isChain {c : Nat} (hc : c = 2 ∨ c = 3) : smallTable.IsChain c [c] := by
  refine .singleton ?_ ?_ ?_ <;> rcases hc with rfl | rfl <;> decide

/-- The files of the small volume: the root directory and an empty log. -/
theorem smallVolume_cell {file : Nat} {f : FatFile} (h : smallVolume.files.cell file = some f) :
    file = 0 ∧ f = fileAt 2 fileAttributeDirectory rootPath ∨
      file = 1 ∧ f = fileAt 3 fileAttributeArchive fsLogPath := by
  match file, h with
  | 0, h => exact .inl ⟨rfl, (Option.some.inj h).symm⟩
  | 1, h => exact .inr ⟨rfl, (Option.some.inj h).symm⟩
  | n + 2, h => exact absurd h (by simp [smallVolume, State.files, Heap.alloc, Heap.empty])

/-- The small volume is well formed. -/
theorem smallVolume_wf : VolumeWf smallVolume {0, 1} ∅ := by
  have hstarts {c : Nat} (hc : c ∈ smallVolume.starts {0, 1} ∪ ∅) : c = 2 ∨ c = 3 := by
    obtain ⟨file, -, f, hf, rfl⟩ := hc.resolve_right (Set.notMem_empty c)
    rcases smallVolume_cell hf with ⟨-, rfl⟩ | ⟨-, rfl⟩
    · exact .inl rfl
    · exact .inr rfl
  refine ⟨smallTable_wf, ?_, ?_, ?_, Set.disjoint_empty _, ⟨fun c hc => ⟨[c], smallTable_isChain (hstarts hc)⟩,
    ?_⟩⟩
  · rintro file (rfl | rfl)
    · exact ⟨_, _, rfl, rfl⟩
    · exact ⟨_, _, rfl, rfl⟩
  · rintro file (rfl | rfl) d hd -
    · cases hd
      decide
    · cases hd
      decide
  · intro file _ file' _ f f' hf hf' heq
    rcases smallVolume_cell hf with ⟨rfl, rfl⟩ | ⟨rfl, rfl⟩ <;>
      rcases smallVolume_cell hf' with ⟨rfl, rfl⟩ | ⟨rfl, rfl⟩ <;> first | rfl | cases heq
  · intro c hc d hd hcd l m hl hm e hel hem
    rw [hl.unique (smallTable_isChain (hstarts hc)), List.mem_singleton] at hel
    rw [hm.unique (smallTable_isChain (hstarts hd)), List.mem_singleton] at hem
    exact hcd (hel.symm.trans hem)

/-- The small table with a second cluster in the chain of the file. -/
def filledTable : FatTable := (smallTable.setEntry 3 4).setEntry 4 fatClusterEndOfChain

/-- The small volume with forty bytes in its file. -/
def filledVolume : State where
  nodes := Heap.empty
  store := (Heap.empty.alloc (fileAt 2 fileAttributeDirectory rootPath)).alloc
    { fileAt 3 fileAttributeArchive fsLogPath with
      dentry := some ((DirEntry.zero.setAttribs fileAttributeArchive).setFileSize 40) }
  errno := 0
  dev := ⟨fun i => if i = 60 then 40 else 0, []⟩
  io := []
  tick := 0
  table := filledTable
  fileTree := none

/-- The table with a longer log is well formed. -/
theorem filledTable_wf : filledTable.Wf := (smallTable_wf.setEntry 3 4).setEntry 4 _

/-- The log has the clusters 3 and 4. -/
theorem filledTable_isChain : filledTable.IsChain 3 [3, 4] :=
  FatTable.IsChain.extend (l := []) (smallTable_isChain (.inr rfl)) (by decide) (by decide)

/-- A fragmented table: a chain of three clusters that are not in order, and two free clusters that are not
neighbours. -/
def fragmentedTable : FatTable :=
  ((smallTable.setEntry 2 6).setEntry 6 3).setEntry 5 fatClusterEndOfChain

/-- The small volume with the fragmented table. -/
def fragmentedVolume : State := { smallVolume with table := fragmentedTable }

/-- The small table just mounted: the tree holds the root directory only. -/
def freshVolume : State := Cmd.final (initFileTree quietEnv 2 (bareState smallTable (fun _ => 0) []))

end OsLabs.Fat
