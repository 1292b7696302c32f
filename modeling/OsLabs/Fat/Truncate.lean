import OsLabs.Fat.FileSpec
import OsLabs.Fat.Layout

/-! # Truncating a file

`fat_file_truncate` on a working device: the entry of one cluster of the chain becomes its end, the
entries behind it are freed, and the directory entry is rewritten (`fatFileTruncate_run`). The cluster
that becomes the last one is found by the floor of `offset / B`, the number of clusters to keep by its
ceiling, and a truncation that keeps as many clusters as the size needs returns at once, so
`fatFileTruncate_truncates_iff` has its conditions. -/

namespace OsLabs.Fat

/-! ## Setting entries of the table -/

/-- The entry of a cluster on the device. -/
def State.diskEntry (s : State) (cluster : Nat) : List UInt8 :=
  (List.range 4).map fun i => s.dev.byte (s.table.fatOffset + 4 * cluster + i)

/-- From `s` to `s'` only entries of the clusters `l` were set, in memory and on the device. -/
structure EntriesSet (l : List Nat) (s s' : State) : Prop where
  frame : s' = { s with dev := s'.dev, io := s'.io, table := s'.table }
  ioOk : s'.IoOk
  sameVolume : s.table.SameVolume s'.table
  fatMap : ∀ c, c ∉ l → s'.table.fatMap c = s.table.fatMap c
  stored : ∀ c ∈ l, s'.diskEntry c = le32Bytes (s'.table.fatMap c)
  kept : ∀ c, c ∉ l → s'.diskEntry c = s.diskEntry c
  byte : ∀ i, s.table.dataStartOffset ≤ i → s'.dev.byte i = s.dev.byte i

namespace EntriesSet

variable {l m : List Nat} {s s' s'' : State}

/-- Setting entries changes no file in memory. -/
theorem files (h : EntriesSet l s s') : s'.files = s.files := by
  rw [h.frame]
  rfl

/-- No entry is set between a state and itself. -/
theorem nil (hio : s.IoOk) : EntriesSet [] s s where
  frame := rfl
  ioOk := hio
  sameVolume := rfl
  fatMap _ _ := rfl
  stored _ hc := absurd hc List.not_mem_nil
  kept _ _ := rfl
  byte _ _ := rfl

/-- Entries set in two steps are set together. -/
theorem append (h : EntriesSet l s s') (h' : EntriesSet m s' s'') : EntriesSet (l ++ m) s s'' where
  frame := by
    rw [h'.frame, h.frame]
  ioOk := h'.ioOk
  sameVolume := h.sameVolume.trans h'.sameVolume
  fatMap c hc := by
    rw [List.mem_append, not_or] at hc
    rw [h'.fatMap c hc.2, h.fatMap c hc.1]
  stored c hc := by
    by_cases hm : c ∈ m
    · exact h'.stored c hm
    · rw [h'.kept c hm, h'.fatMap c hm]
      exact h.stored c ((List.mem_append.mp hc).resolve_right hm)
  kept c hc := by
    rw [List.mem_append, not_or] at hc
    rw [h'.kept c hc.2, h.kept c hc.1]
  byte i hi := by
    rw [h'.byte i (by rwa [h.sameVolume.dataStartOffset]), h.byte i hi]

end EntriesSet

/-- `fat_table_set_next_cluster` sets one entry. -/
theorem entriesSet_linked {s : State} (ht : s.table.LaidOut) (hio : s.IoOk) {c : Nat}
    (hc : s.table.IsCluster c) (v : Nat) : EntriesSet [c] s (s.linked c v) where
  frame := rfl
  ioOk := hio.linked c v
  sameVolume := rfl
  fatMap d hd := by
    rw [List.mem_singleton] at hd
    exact if_neg hd
  stored d hd := by
    rw [List.mem_singleton.mp hd]
    have hbyte (i : Nat) (hi : i < 4) :
        (s.linked c v).dev.byte (s.table.fatOffset + 4 * c + i) = (le32Bytes v).getD i 0 :=
      State.byte_wrote hi
    have hmap : (s.linked c v).table.fatMap c = v := if_pos rfl
    rw [hmap]
    show (List.range 4).map (fun i => (s.linked c v).dev.byte (s.table.fatOffset + 4 * c + i)) = _
    rw [List.map_congr_left fun i hi => hbyte i (List.mem_range.mp hi)]
    rfl
  kept d hd := by
    rw [List.mem_singleton] at hd
    refine List.map_congr_left fun i hi => ?_
    have hi' := List.mem_range.mp hi
    refine State.byte_wrote_of_notMem fun ⟨hle, hlt⟩ => hd ?_
    rw [length_le32Bytes] at hlt
    have hle' : s.table.fatOffset + 4 * c ≤ s.table.fatOffset + 4 * d + i := hle
    have hlt' : s.table.fatOffset + 4 * d + i < s.table.fatOffset + 4 * c + 4 := hlt
    omega
  byte i hi := State.byte_linked ht hc v hi

/-! ## Freeing a chain -/

/-- The state after freeing some clusters in order. -/
def State.freed (s : State) : List Nat → State
  | [] => s
  | c :: l => (s.linked c fatClusterFree).freed l

section Free

variable {s : State} {l : List Nat}

/-- Giving back clusters sets their entries. -/
theorem entriesSet_freed (ht : s.table.LaidOut) (hio : s.IoOk)
    (hv : ∀ c ∈ l, s.table.IsCluster c) : EntriesSet l s (s.freed l) := by
  induction l generalizing s with
  | nil => exact .nil hio
  | cons c l ih =>
      have hlinked := entriesSet_linked ht hio (hv c List.mem_cons_self) fatClusterFree
      have hrest := ih (s := s.linked c fatClusterFree) (ht.setEntry c _) (hio.linked c _)
        fun d hd => hv d (List.mem_cons_of_mem c hd)
      exact hlinked.append hrest

/-- A free cluster stays free while others are given back. -/
theorem fatMap_freed_of_free {d : Nat} (h : s.table.fatMap d = fatClusterFree) :
    (s.freed l).table.fatMap d = fatClusterFree := by
  induction l generalizing s with
  | nil => exact h
  | cons c l ih =>
      refine ih ?_
      show (if d = c then fatClusterFree else s.table.fatMap d) = _
      split_ifs
      · rfl
      · exact h

/-- A cluster that is given back is free. -/
theorem fatMap_freed {d : Nat} (hd : d ∈ l) : (s.freed l).table.fatMap d = fatClusterFree := by
  induction l generalizing s with
  | nil => cases hd
  | cons c l ih =>
      rcases List.mem_cons.mp hd with rfl | hd
      · exact fatMap_freed_of_free (s := s.linked d fatClusterFree) (if_pos rfl)
      · exact ih hd

/-- The freeing loop frees the rest of a chain. -/
theorem freeChainFrom_run (hio : s.IoOk) (hv : ∀ c ∈ l, s.table.IsCluster c) {cluster : Nat}
    (hl : Chain s.table.next (FatTable.cluster? cluster) l) {fuel : Nat} (hfuel : l.length < fuel) :
    freeChainFrom fuel cluster s = .ok ⟨⟩ (s.freed l) := by
  induction l generalizing s cluster fuel with
  | nil =>
      obtain ⟨fuel, rfl⟩ := Nat.exists_eq_succ_of_ne_zero (Nat.ne_of_gt hfuel)
      rw [freeChainFrom, if_pos (FatTable.cluster?_eq_none.mp hl)]
      rfl
  | cons c l ih =>
      obtain ⟨fuel, rfl⟩ := Nat.exists_eq_succ_of_ne_zero (Nat.ne_of_gt (Nat.zero_lt_of_lt hfuel))
      have hnodup := hl.nodup
      obtain ⟨hcluster, hl⟩ := hl
      obtain ⟨-, rfl⟩ := FatTable.cluster?_eq_some.mp hcluster
      have hc := hv cluster List.mem_cons_self
      -- the rest of the chain does not depend on the entry set
      have hl' : Chain (s.linked cluster fatClusterFree).table.next (s.table.next cluster) l := by
        refine hl.congr fun a ha => FatTable.next_setEntry_ne ?_
        rintro rfl
        exact (List.nodup_cons.mp hnodup).1 ha
      have hrest := ih (s := s.linked cluster fatClusterFree) (hio.linked cluster _)
        (fun d hd => hv d (List.mem_cons_of_mem cluster hd)) hl' (Nat.lt_of_succ_lt_succ hfuel)
      rw [freeChainFrom, if_neg hc.not_isEoc, Cmd.bind_ok (fatTableGetNextCluster_run hc.lt_fatLen),
        Cmd.bind_ok (fatTableSetNextCluster_run hio hc.lt_fatLen hc.four_mul_lt _)]
      exact hrest

/-- Giving back a chain frees its clusters. -/
theorem freeChain_run (hio : s.IoOk) (hv : ∀ c ∈ l, s.table.IsCluster c) {cluster : Nat}
    (hl : Chain s.table.next (FatTable.cluster? cluster) l) : freeChain cluster s = .ok ⟨⟩ (s.freed l) := by
  have hlen := FatTable.length_le_fatLen (fun c hc => (hv c hc).lt_fatLen) hl.nodup
  have hmul : s.table.fatLen + 2 ≤ (s.io.length + 1) * (s.table.fatLen + 2) :=
    Nat.le_mul_of_pos_left _ (Nat.succ_pos _)
  unfold freeChain
  rw [Cmd.get_bind]
  exact freeChainFrom_run hio hv hl (by omega)

end Free

/-! ## The number of clusters of a size -/

namespace FatTable

/-- The clusters a file of some size has: one for every `B` bytes begun, and at least one. -/
def clustersOf (t : FatTable) (size : Nat) : Nat :=
  max 1 ((size + (t.bytesPerCluster - 1)) / t.bytesPerCluster)

variable {t : FatTable}

/-- `fat_table_get_clusters_for_size` does not wrap for the sizes of files. -/
theorem max_clustersForSize (ht : t.LaidOut) {size : Nat} (hsize : size < 2 ^ 32) :
    max 1 (t.clustersForSize size) = t.clustersOf size := by
  have hB := t.bytesPerCluster_pos
  have h32 : 32 ≤ t.bytesPerCluster := Nat.le_of_dvd hB ht.thirty_two_dvd
  have hlt : (size + (t.bytesPerCluster - 1)) / t.bytesPerCluster < 2 ^ 32 := by
    rw [Nat.div_lt_iff_lt_mul hB]
    have := Nat.mul_le_mul_left (2 ^ 32 - 1) h32
    rw [show 2 ^ 32 * t.bytesPerCluster = (2 ^ 32 - 1) * t.bytesPerCluster + t.bytesPerCluster by omega]
    omega
  rw [clustersForSize, clustersOf, shiftRight_eq, Nat.mod_eq_of_lt hlt]

/-- The clusters of a size hold that many bytes. -/
theorem le_clustersOf_mul (t : FatTable) (size : Nat) : size ≤ t.clustersOf size * t.bytesPerCluster := by
  have hB := t.bytesPerCluster_pos
  have hdiv := Nat.div_add_mod' (size + (t.bytesPerCluster - 1)) t.bytesPerCluster
  have hmod := Nat.mod_lt (size + (t.bytesPerCluster - 1)) hB
  have hle := Nat.mul_le_mul_right t.bytesPerCluster
    (Nat.le_max_right 1 ((size + (t.bytesPerCluster - 1)) / t.bytesPerCluster))
  unfold clustersOf
  omega

/-- The cluster in which an offset lies is the last one of that size, unless the offset is a multiple
of the cluster size other than zero: then it is the one behind it. -/
theorem div_bytesPerCluster (t : FatTable) (offset : Nat) :
    (offset = 0 ∨ ¬ t.bytesPerCluster ∣ offset) ∧
        offset / t.bytesPerCluster + 1 = t.clustersOf offset ∨
      ¬ (offset = 0 ∨ ¬ t.bytesPerCluster ∣ offset) ∧
        offset / t.bytesPerCluster = t.clustersOf offset := by
  have hB := t.bytesPerCluster_pos
  unfold clustersOf
  by_cases hdvd : t.bytesPerCluster ∣ offset
  · obtain ⟨k, rfl⟩ := hdvd
    have hceil : (t.bytesPerCluster * k + (t.bytesPerCluster - 1)) / t.bytesPerCluster = k := by
      rw [Nat.mul_add_div hB, Nat.div_eq_of_lt (by omega), Nat.add_zero]
    rw [hceil, Nat.mul_div_cancel_left k hB]
    rcases Nat.eq_zero_or_pos k with rfl | hk
    · exact .inl ⟨.inl rfl, rfl⟩
    · refine .inr ⟨?_, by omega⟩
      simp only [Nat.mul_eq_zero, Nat.dvd_mul_right, not_true_eq_false, or_false, not_or]
      omega
  · refine .inl ⟨.inr hdvd, ?_⟩
    have hmod : 0 < offset % t.bytesPerCluster := Nat.pos_of_ne_zero fun h =>
      hdvd (Nat.dvd_of_mod_eq_zero h)
    have hlt := Nat.mod_lt offset hB
    have hsplit := Nat.div_add_mod' offset t.bytesPerCluster
    have hceil : (offset + (t.bytesPerCluster - 1)) / t.bytesPerCluster =
        offset / t.bytesPerCluster + 1 := by
      refine Nat.div_eq_of_lt_le ?_ ?_
      · rw [Nat.succ_mul]
        omega
      · rw [Nat.succ_mul, Nat.succ_mul]
        omega
    rw [hceil]
    exact (Nat.max_eq_right (Nat.le_add_left 1 _)).symm

end FatTable

/-! ## Truncation -/

/-- The size stored in an entry of the directory that starts at `startCluster`. -/
def State.storedFileSize (s : State) (startCluster nentry : Nat) : Nat :=
  le32OfBytes fun i => s.dev.byte (nentry * 32 + s.table.clusterOffset startCluster + (28 + i))

/-- From `s` to `s'` the file `file`, with the chain `l` and in entry `x.posInParent` of the directory
`y`, was cut to `offset` bytes. -/
structure Truncated (file : Nat) (x y : FatFile) (l : List Nat) (offset : Nat) (s s' : State) : Prop where
  inMemory : ∃ x' d', s'.files.cell file = some x' ∧ x'.dentry = some d' ∧ d'.fileSize = offset
  onDisk : s'.storedFileSize y.startCluster x.posInParent = offset
  content : (chainBytes s' (l.take (s.table.clustersOf offset))).take offset =
    (chainBytes s l).take offset
  chain : s'.table.IsChain x.startCluster (l.take (s.table.clustersOf offset))
  freed : ∀ c ∈ l.drop (s.table.clustersOf offset), s'.table.fatMap c = fatClusterFree
  kept : ∀ c, c ∉ l.drop (s.table.clustersOf offset - 1) → s'.table.fatMap c = s.table.fatMap c
  entries : ∀ c, s.table.IsCluster c → s'.diskEntry c =
    if s'.table.fatMap c = s.table.fatMap c then s.diskEntry c else le32Bytes (s'.table.fatMap c)

/-- `fat_file_truncate` cuts a file to an offset up to its size, and does nothing for a larger one. -/
def Truncates (env : Env) (file p : Nat) (x y : FatFile) (d : DirEntry) (l : List Nat) (offset : Nat)
    (s : State) : Prop :=
  if d.fileSize < offset then fatFileTruncate env file offset (some p) s = .ok ⟨⟩ s
  else ∃ s', fatFileTruncate env file offset (some p) s = .ok ⟨⟩ s' ∧ Truncated file x y l offset s s'

/-- A regular file `file` with the chain `l`, whose entry lies in the first cluster of its directory `p`
and has the same size on the device. -/
structure TruncateTarget (s : State) (file p : Nat) (x y : FatFile) (d : DirEntry) (l : List Nat) :
    Prop where
  table : s.table.LaidOut
  ioOk : s.IoOk
  errno : s.errno = 0
  cell : s.files.cell file = some x
  entry : x.dentry = some d
  regular : ¬ d.IsDirectory
  parent_cell : s.files.cell p = some y
  parent_start : s.table.IsValidClusterNumber y.startCluster
  parent_notMem : y.startCluster ∉ l
  slot : x.posInParent * 32 < s.table.bytesPerCluster
  stored : s.storedFileSize y.startCluster x.posInParent = d.fileSize
  chain : s.table.IsChain x.startCluster l
  covers : s.table.clustersOf d.fileSize ≤ l.length

section Truncation

variable {s : State} {file p : Nat} {x y : FatFile} {d : DirEntry} {l : List Nat} {offset : Nat}

/-- The stamped entry of a file that was cut. -/
def truncatedEntry (now : Int) (d : DirEntry) (offset : Nat) : DirEntry :=
  fillDentryTime now false true (d.setFileSize offset)

/-- The entry of the truncated file has the new size. -/
theorem fileSize_truncatedEntry (now : Int) (d : DirEntry) (hoff : offset < 2 ^ 32) :
    (truncatedEntry now d offset).fileSize = offset := by
  rw [truncatedEntry, DirEntry.fileSize_fillDentryTime, DirEntry.fileSize_setFileSize,
    Nat.mod_eq_of_lt hoff]

/-- The state after `fat_file_truncate` has set the entries of the table. -/
def State.truncateFinished (s : State) (env : Env) (file : Nat) (x y : FatFile) (d : DirEntry)
    (offset : Nat) : State :=
  (s.ticked.updated file fun x => { x with
      dentry := some (truncatedEntry (env.time s.tick) d offset) }).entryWritten
    y.startCluster x.posInParent (truncatedEntry (env.time s.tick) d offset)

/-- A file is not its own directory: that starts on another chain. -/
theorem TruncateTarget.parent_ne (h : TruncateTarget s file p x y d l) : p ≠ file := by
  rintro rfl
  have hxy : x = y := Option.some.inj (h.cell.symm.trans h.parent_cell)
  exact h.parent_notMem (hxy ▸ h.chain.start_mem)

/-- A call that finds nothing to cut. -/
theorem fatFileTruncate_early (h : TruncateTarget s file p x y d l) (env : Env) (offset : Nat)
    (hle : d.fileSize < offset ∨ s.table.clustersOf d.fileSize ≤ s.table.clustersOf offset) :
    fatFileTruncate env file offset (some p) s = .ok ⟨⟩ s := by
  have hcond : offset > d.fileSize ∨
      max 1 (s.table.clustersForSize offset) ≥ max 1 (s.table.clustersForSize d.fileSize) := by
    by_cases hlt : d.fileSize < offset
    · exact .inl hlt
    · have hoff : offset < 2 ^ 32 := Nat.lt_of_le_of_lt (Nat.not_lt.mp hlt) d.fileSize_lt
      rw [FatTable.max_clustersForSize h.table hoff, FatTable.max_clustersForSize h.table d.fileSize_lt]
      exact .inr (hle.resolve_left hlt)
  unfold fatFileTruncate
  rw [Cmd.bind_ok (readDentry_run h.cell h.entry), Cmd.get_bind]
  exact (Cmd.ite_run _ _ _ s).trans (if_pos hcond)

/-- The cluster that becomes the last one. -/
theorem div_lt_length (h : TruncateTarget s file p x y d l)
    (hlt : s.table.clustersOf offset < s.table.clustersOf d.fileSize) :
    offset / s.table.bytesPerCluster < l.length := by
  have hcovers := h.covers
  have hdiv := s.table.div_bytesPerCluster offset
  omega

/-- A call that cuts the chain: the entry found by seeking `offset` becomes the end, and the ones
behind it are freed. -/
theorem fatFileTruncate_run (h : TruncateTarget s file p x y d l) (env : Env)
    (hoff : offset ≤ d.fileSize)
    (hlt : s.table.clustersOf offset < s.table.clustersOf d.fileSize) :
    ∃ last s₁, l[offset / s.table.bytesPerCluster]? = some last ∧
      EntriesSet (last :: l.drop (offset / s.table.bytesPerCluster + 1)) s s₁ ∧
      s₁.table.fatMap last = fatClusterEndOfChain ∧
      (∀ c ∈ l.drop (offset / s.table.bytesPerCluster + 1), s₁.table.fatMap c = fatClusterFree) ∧
      fatFileTruncate env file offset (some p) s =
        .ok ⟨⟩ (s₁.truncateFinished env file x y d offset) := by
  have hk := div_lt_length h hlt
  have hl := h.chain
  have hoff' : offset < 2 ^ 32 := Nat.lt_of_le_of_lt hoff d.fileSize_lt
  generalize hq : offset / s.table.bytesPerCluster = q at *
  have hlast : l[q]? = some l[q] := List.getElem?_eq_getElem hk
  generalize hb : l[q] = last at hlast
  have hmem : last ∈ l := List.mem_of_getElem? hlast
  have hva := hl.isCluster last hmem
  have hseek := fatTableSeekCluster_run hl.start.not_isEoc hl.chain hl.lt_fatLen hoff' (by rw [hq]; exact hk)
  simp only [hq, hb] at hseek
  -- the rest of the chain, before and after its end was moved
  have hrest : Chain s.table.next (s.table.next last) (l.drop (q + 1)) := by
    rw [← hb, hl.chain.next_getElem hk]
    exact hl.chain.drop (q + 1)
  have hnotMem : last ∉ l.drop (q + 1) := by
    have hdrop := List.drop_eq_getElem_cons hk
    have hnodup : (l.drop q).Nodup := List.Nodup.sublist (List.drop_sublist q l) hl.chain.nodup
    rw [hdrop, hb] at hnodup
    exact (List.nodup_cons.mp hnodup).1
  have hrest' : Chain (s.linked last fatClusterEndOfChain).table.next (s.table.next last)
      (l.drop (q + 1)) := by
    refine hrest.congr fun a ha => FatTable.next_setEntry_ne ?_
    rintro rfl
    exact hnotMem ha
  have hv : ∀ c ∈ l.drop (q + 1), s.table.IsCluster c := fun c hc =>
    hl.isCluster c (List.mem_of_mem_drop hc)
  have hlinked := entriesSet_linked h.table h.ioOk hva fatClusterEndOfChain
  have hfreed := entriesSet_freed (s := s.linked last fatClusterEndOfChain) (h.table.setEntry last _)
    hlinked.ioOk hv
  have hset := hlinked.append hfreed
  refine ⟨last, (s.linked last fatClusterEndOfChain).freed (l.drop (q + 1)), hlast, hset,
    (hfreed.fatMap last hnotMem).trans (if_pos rfl), fun c hc => fatMap_freed hc, ?_⟩
  have hx₁ : ((s.linked last fatClusterEndOfChain).freed (l.drop (q + 1))).files.cell file = some x := by
    rw [hset.files]
    exact h.cell
  have hy₁ : ((s.linked last fatClusterEndOfChain).freed (l.drop (q + 1))).files.cell p = some y := by
    rw [hset.files]
    exact h.parent_cell
  have hcond : ¬ (offset > d.fileSize ∨
      max 1 (s.table.clustersForSize offset) ≥ max 1 (s.table.clustersForSize d.fileSize)) := by
    rw [FatTable.max_clustersForSize h.table hoff',
      FatTable.max_clustersForSize h.table d.fileSize_lt]
    omega
  have herrno : (s.linked last fatClusterEndOfChain).errno = 0 := h.errno
  unfold fatFileTruncate
  rw [Cmd.bind_ok (readDentry_run h.cell h.entry), Cmd.get_bind]
  refine (Cmd.ite_run _ _ _ s).trans ((if_neg hcond).trans ?_)
  rw [Cmd.bind_ok (readFile_run h.cell), Cmd.bind_ok hseek, Cmd.bind_ok (getErrno_run s),
    if_neg (not_not.mpr h.errno), Cmd.bind_ok (fatTableGetNextCluster_run hva.lt_fatLen),
    Cmd.bind_ok (fatTableSetNextCluster_run h.ioOk hva.lt_fatLen hva.four_mul_lt _),
    Cmd.bind_ok (getErrno_run _), if_neg (not_not.mpr herrno),
    Cmd.bind_ok (freeChain_run (s := s.linked last fatClusterEndOfChain) hlinked.ioOk hv hrest'),
    Cmd.bind_ok (updateDentry_run hx₁ h.entry _)]
  have hfinish := stampAndWrite_run env
    (State.cell_updated_self hx₁ fun x => { x with dentry := some (d.setFileSize offset) }) rfl
    ((State.cell_updated_ne h.parent_ne _).trans hy₁) (hset.ioOk.updated file _) false true
    PUnit.unit
  simp only [bind_pure_unit] at hfinish
  rw [hfinish]
  show EStateM.Result.ok _ (State.entryWritten ((State.updated (State.ticked
    ((s.linked last fatClusterEndOfChain).freed (l.drop (q + 1)))) file _).updated file _) _ _ _) = _
  rw [State.updated_updated]
  rfl

/-! ### What a run that cuts the chain has done -/

/-- The size on the device is that of the entry written. -/
theorem State.storedFileSize_entryWritten {c n : Nat} (e : DirEntry)
    (hslot : n * 32 < s.table.bytesPerCluster) :
    (s.entryWritten c n e).storedFileSize c n = e.fileSize := by
  have hbyte (i : Nat) (hi : i < 32) : (s.wrote (n * 32 + s.table.clusterOffset c) e.toList).dev.byte
      (n * 32 + s.table.clusterOffset c + i) = e.byte i :=
    State.byte_wrote (by rwa [Vector.length_toList])
  unfold State.storedFileSize
  rw [State.table_entryWritten]
  unfold State.entryWritten
  rw [if_neg (by omega)]
  exact le32OfBytes_congr fun i hi => hbyte (28 + i) (by omega)

/-- The data of a prefix of a chain. -/
theorem take_chainBytes_take (s : State) (l : List Nat) {n : Nat}
    (hn : offset ≤ (l.take n).length * s.table.bytesPerCluster) :
    (chainBytes s (l.take n)).take offset = (chainBytes s l).take offset := by
  conv_rhs => rw [← List.take_append_drop n l, chainBytes_append]
  rw [List.take_append_of_le_length]
  rwa [length_chainBytes]

section Cut

variable {s₁ : State} {q last : Nat}

/-- The entries set by the cut. -/
theorem entriesSet_truncateFinished (h : TruncateTarget s file p x y d l) (env : Env) (offset : Nat)
    (hset : EntriesSet (last :: l.drop (q + 1)) s s₁) :
    (s₁.truncateFinished env file x y d offset).table = s₁.table ∧
      (∀ c, s.table.IsCluster c →
        (s₁.truncateFinished env file x y d offset).diskEntry c = s₁.diskEntry c) ∧
      ∀ c ∈ l, ∀ i < s.table.bytesPerCluster,
        (s₁.truncateFinished env file x y d offset).dev.byte (s.table.clusterOffset c + i) =
          s.dev.byte (s.table.clusterOffset c + i) := by
  have ht₁ : s₁.table.LaidOut := hset.sameVolume.laidOut h.table
  have htable : (s₁.truncateFinished env file x y d offset).table = s₁.table :=
    State.table_entryWritten _ _ _ _
  -- only the cluster of the directory changes after the table
  have hout (i : Nat) (hi : ¬ (s.table.clusterOffset y.startCluster ≤ i ∧
      i < s.table.clusterOffset y.startCluster + s.table.bytesPerCluster)) :
      (s₁.truncateFinished env file x y d offset).dev.byte i = s₁.dev.byte i := by
    refine State.byte_entryWritten (s := s₁.ticked.updated file _) ht₁.order_ge _ ?_
    show ¬ (s₁.table.clusterOffset y.startCluster ≤ i ∧
      i < s₁.table.clusterOffset y.startCluster + s₁.table.bytesPerCluster)
    rwa [hset.sameVolume.clusterOffset, hset.sameVolume.bytesPerCluster]
  refine ⟨htable, fun c hc => ?_, fun c hc i hi => ?_⟩
  · have hbefore := h.table.entry_before_data hc h.parent_start
    have hfat := hset.sameVolume.fatOffset
    unfold State.diskEntry
    rw [htable]
    refine List.map_congr_left fun i hi => hout _ ?_
    have hi' := List.mem_range.mp hi
    omega
  · have hc' := h.chain.isValid c hc
    rw [hout, hset.byte]
    · rw [FatTable.clusterOffset_eq hc']
      omega
    · rintro ⟨hle, hlt⟩
      obtain ⟨j, hj⟩ := Nat.exists_eq_add_of_le hle
      have hsame := FatTable.clusterOffset_disjoint hc' h.parent_start hi (show j < _ by omega) hj
      exact h.parent_notMem (hsame.1 ▸ hc)

/-- A file is cut once its chain is: what is left is the stamp and the size. -/
theorem truncated_of_cut (h : TruncateTarget s file p x y d l) (env : Env)
    (hoff : offset ≤ d.fileSize) (hq : q + 1 = s.table.clustersOf offset)
    (hlt : s.table.clustersOf offset < s.table.clustersOf d.fileSize)
    (hlast : l[q]? = some last) (hset : EntriesSet (last :: l.drop (q + 1)) s s₁)
    (heoc : s₁.table.fatMap last = fatClusterEndOfChain)
    (hfree : ∀ c ∈ l.drop (q + 1), s₁.table.fatMap c = fatClusterFree) :
    Truncated file x y l offset s (s₁.truncateFinished env file x y d offset) := by
  have hoff' : offset < 2 ^ 32 := Nat.lt_of_le_of_lt hoff d.fileSize_lt
  obtain ⟨hk, hb⟩ := List.getElem?_eq_some_iff.mp hlast
  obtain ⟨htable, hdisk, hdata⟩ := entriesSet_truncateFinished h env offset hset
  have hcons : l.drop q = last :: l.drop (q + 1) := by rw [List.drop_eq_getElem_cons hk, hb]
  have hx₁ : s₁.files.cell file = some x := by
    rw [hset.files]
    exact h.cell
  have hsame {c : Nat} (hc : c ∉ l.drop q) : s₁.table.fatMap c = s.table.fatMap c := by
    rw [hcons] at hc
    exact hset.fatMap c hc
  -- the clusters kept are not those behind them
  have hdisj {c : Nat} (hc : c ∈ l.take q) : c ∉ l.drop q := fun hc' =>
    List.disjoint_take_drop h.chain.chain.nodup (Nat.le_refl q) hc hc'
  have hend : s₁.table.next last = none := by
    exact FatTable.next_eq_none (.inl (by rw [heoc]; exact .inl rfl))
  have hsize := fileSize_truncatedEntry (env.time s₁.tick) d hoff'
  have hcell : (s₁.truncateFinished env file x y d offset).files.cell file =
      some { x with dentry := some (truncatedEntry (env.time s₁.tick) d offset) } := by
    rw [State.truncateFinished, State.files_entryWritten]
    exact State.cell_updated_self (s := s₁.ticked) hx₁ _
  refine ⟨⟨_, _, hcell, rfl, hsize⟩, ?_, ?_, ?_, ?_, ?_, ?_⟩
  · have hslot : x.posInParent * 32 < s₁.table.bytesPerCluster := by
      rw [hset.sameVolume.bytesPerCluster]
      exact h.slot
    exact (State.storedFileSize_entryWritten (s := s₁.ticked.updated file _) _ hslot).trans hsize
  · rw [← hq]
    have hlen : offset ≤ (l.take (q + 1)).length * s.table.bytesPerCluster := by
      rw [List.length_take, Nat.min_eq_left (show q + 1 ≤ l.length from hk), hq]
      exact s.table.le_clustersOf_mul offset
    have hbytes : chainBytes (s₁.truncateFinished env file x y d offset) l = chainBytes s l :=
      chainBytes_congr (by rw [htable]; exact hset.sameVolume) hdata
    rw [take_chainBytes_take, hbytes]
    rwa [htable, hset.sameVolume.bytesPerCluster]
  · rw [htable, ← hq]
    refine ⟨fun c hc => (hset.sameVolume.isCluster_iff c).mpr (h.chain.isCluster c (List.mem_of_mem_take hc)),
      h.chain.chain.take hk ?_ ?_, ?_⟩
    · rw [hb]
      exact hend
    · exact fun a ha => hset.sameVolume.next_eq (hsame (hdisj ha))
    · intro c hc
      rw [List.take_succ_eq_append_getElem hk, hb, List.mem_append, List.mem_singleton] at hc
      rcases hc with hc | rfl
      · rw [hsame (hdisj hc)]
        exact h.chain.allocated c (List.mem_of_mem_take hc)
      · rw [heoc]
        decide
  · rw [htable, ← hq]
    exact hfree
  · rw [htable, ← hq, Nat.add_sub_cancel]
    exact fun c hc => hsame hc
  · intro c hc
    rw [hdisk c hc, htable]
    by_cases hmem : c ∈ l.drop q
    · have hne : s₁.table.fatMap c ≠ s.table.fatMap c := by
        have hused := h.chain.allocated c (List.mem_of_mem_drop hmem)
        rw [hcons, List.mem_cons] at hmem
        rcases hmem with rfl | hmem
        · -- the entry of the last cluster kept pointed to the next one
          intro heq
          have hk' : q + 1 < l.length := by
            have := h.covers
            omega
          have hnext := h.chain.chain.next_getElem hk
          rw [hb, List.getElem?_eq_getElem hk'] at hnext
          refine FatTable.not_isEoc_of_next hnext (.inl ?_)
          rw [← (FatTable.next_eq_some hnext).2, ← heq, heoc]
        · rw [hfree c hmem]
          exact fun heq => hused heq.symm
      rw [if_neg hne]
      rw [hcons] at hmem
      exact hset.stored c hmem
    · rw [if_pos (hsame hmem)]
      rw [hcons] at hmem
      exact hset.kept c hmem

/-- A cut at a multiple of the cluster size keeps a cluster too many. -/
theorem not_truncated_of_cut (h : TruncateTarget s file p x y d l) (env : Env)
    (hq : q = s.table.clustersOf offset) (hlast : l[q]? = some last)
    (hset : EntriesSet (last :: l.drop (q + 1)) s s₁)
    (heoc : s₁.table.fatMap last = fatClusterEndOfChain) :
    ¬ Truncated file x y l offset s (s₁.truncateFinished env file x y d offset) := by
  intro htrunc
  obtain ⟨hk, hb⟩ := List.getElem?_eq_some_iff.mp hlast
  obtain ⟨htable, -, -⟩ := entriesSet_truncateFinished h env offset hset
  have hmem : last ∈ l.drop (s.table.clustersOf offset) := by
    rw [← hq, List.drop_eq_getElem_cons hk, hb]
    exact List.mem_cons_self
  have hfree := htrunc.freed last hmem
  rw [htable, heoc] at hfree
  exact absurd hfree (by decide)

end Cut

/-- A file of the size wanted, without a cluster too many, is left as it is. -/
theorem truncated_of_eq (h : TruncateTarget s file p x y d l) (hoff : offset = d.fileSize)
    (hlen : l.length = s.table.clustersOf offset) : Truncated file x y l offset s s := by
  have hdrop : l.drop (s.table.clustersOf offset) = [] := List.drop_eq_nil_of_le (Nat.le_of_eq hlen)
  have htake : l.take (s.table.clustersOf offset) = l := List.take_of_length_le (Nat.le_of_eq hlen)
  refine ⟨⟨x, d, h.cell, h.entry, hoff.symm⟩, h.stored.trans hoff.symm, ?_, ?_, ?_, ?_, ?_⟩
  · rw [htake]
  · rw [htake]
    exact h.chain
  · rw [hdrop]
    exact fun c hc => absurd hc List.not_mem_nil
  · exact fun _ _ => rfl
  · exact fun c _ => (if_pos rfl).symm

/-- A call that does nothing has cut such a file only. -/
theorem eq_of_truncated (h : TruncateTarget s file p x y d l)
    (htrunc : Truncated file x y l offset s s) :
    offset = d.fileSize ∧ l.length = s.table.clustersOf offset := by
  obtain ⟨x', d', hx', hd', hsize⟩ := htrunc.inMemory
  cases h.cell.symm.trans hx'
  cases h.entry.symm.trans hd'
  have hcovers := h.covers
  have htake := congrArg List.length (h.chain.unique htrunc.chain)
  rw [List.length_take] at htake
  rw [hsize] at hcovers
  exact ⟨hsize.symm, by omega⟩

/-- **Truncation.** `fat_file_truncate` does what it is for just when the offset lies behind the end of
the file, or the file has that size and no cluster too many, or the new size needs fewer clusters than
the old one and is zero or not a multiple of the cluster size. -/
theorem fatFileTruncate_truncates_iff (env : Env) (offset : Nat)
    (h : TruncateTarget s file p x y d l) :
    Truncates env file p x y d l offset s ↔
      d.fileSize < offset ∨ (offset = d.fileSize ∧ l.length = s.table.clustersOf offset) ∨
        s.table.clustersOf offset < s.table.clustersOf d.fileSize ∧
          (offset = 0 ∨ ¬ s.table.bytesPerCluster ∣ offset) := by
  unfold Truncates
  by_cases hbig : d.fileSize < offset
  · rw [if_pos hbig]
    exact iff_of_true (fatFileTruncate_early h env offset (.inl hbig)) (.inl hbig)
  · rw [if_neg hbig]
    have hle : offset ≤ d.fileSize := Nat.not_lt.mp hbig
    by_cases hlt : s.table.clustersOf offset < s.table.clustersOf d.fileSize
    · obtain ⟨last, s₁, hlast, hset, heoc, hfree, hrun⟩ := fatFileTruncate_run h env hle hlt
      have hne : offset ≠ d.fileSize := by
        rintro rfl
        exact Nat.lt_irrefl _ hlt
      rcases s.table.div_bytesPerCluster offset with ⟨hcond, hdiv⟩ | ⟨hcond, hdiv⟩
      · exact iff_of_true ⟨_, hrun, truncated_of_cut h env hle hdiv hlt hlast hset heoc hfree⟩
          (.inr (.inr ⟨hlt, hcond⟩))
      · refine iff_of_false ?_ ?_
        · rintro ⟨s', hrun', htrunc⟩
          cases hrun.symm.trans hrun'
          exact not_truncated_of_cut h env hdiv hlast hset heoc htrunc
        · rintro (hlt' | ⟨heq, -⟩ | ⟨-, hcond'⟩)
          · exact hbig hlt'
          · exact hne heq
          · exact hcond hcond'
    · -- the call returns at once
      have hrun := fatFileTruncate_early h env offset (.inr (Nat.not_lt.mp hlt))
      constructor
      · rintro ⟨s', hrun', htrunc⟩
        cases hrun.symm.trans hrun'
        exact .inr (.inl (eq_of_truncated h htrunc))
      · rintro (hlt' | ⟨heq, hlen⟩ | ⟨hlt', -⟩)
        · exact absurd hlt' hbig
        · exact ⟨s, hrun, truncated_of_eq h heq hlen⟩
        · exact absurd hlt' hlt

/-- The log of the filled volume can be cut. -/
theorem filledVolume_truncateTarget : TruncateTarget filledVolume 1 0
    { fileAt 3 fileAttributeArchive fsLogPath with
      dentry := some ((DirEntry.zero.setAttribs fileAttributeArchive).setFileSize 40) }
    (fileAt 2 fileAttributeDirectory rootPath)
    ((DirEntry.zero.setAttribs fileAttributeArchive).setFileSize 40) [3, 4] where
  table := filledTable_wf.toLaidOut
  ioOk := fun _ h => absurd h List.not_mem_nil
  errno := rfl
  cell := rfl
  entry := rfl
  regular := by decide
  parent_cell := rfl
  parent_start := by decide
  parent_notMem := by decide
  slot := by decide
  stored := by decide
  chain := filledTable_isChain
  covers := by decide

/-- Forty bytes in two clusters can be cut to ten. -/
theorem fatFileTruncate_truncates_filledVolume : Truncates quietEnv 1 0
    { fileAt 3 fileAttributeArchive fsLogPath with
      dentry := some ((DirEntry.zero.setAttribs fileAttributeArchive).setFileSize 40) }
    (fileAt 2 fileAttributeDirectory rootPath)
    ((DirEntry.zero.setAttribs fileAttributeArchive).setFileSize 40) [3, 4] 10 filledVolume :=
  (fatFileTruncate_truncates_iff quietEnv 10 filledVolume_truncateTarget).mpr
    (.inr (.inr ⟨by decide, .inr (by decide)⟩))

/-- They cannot be cut to thirty-six: that needs as many clusters, and the call returns at once. -/
theorem not_forall_truncates :
    ¬ ∀ (env : Env) (s : State) (file p : Nat) (x y : FatFile) (d : DirEntry) (l : List Nat)
      (offset : Nat), TruncateTarget s file p x y d l → Truncates env file p x y d l offset s := by
  intro hall
  have htrunc := hall quietEnv _ _ _ _ _ _ _ 36 filledVolume_truncateTarget
  rw [Truncates, if_neg (by decide)] at htrunc
  obtain ⟨s', hrun, htrunc⟩ := htrunc
  have hearly := fatFileTruncate_early filledVolume_truncateTarget quietEnv 36
    (.inr (by decide))
  cases hearly.symm.trans hrun
  exact absurd (eq_of_truncated filledVolume_truncateTarget htrunc).1 (by decide)

end Truncation

end OsLabs.Fat
