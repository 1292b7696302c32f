import OsLabs.Fat.ReadFile
import OsLabs.Fat.Truncate
import OsLabs.Fat.WriteRefinement

/-! # What the operations on data do to a volume

`fat_file_pread`, `fat_file_pwrite` and `fat_file_truncate` change the chain of one file and the data in it
(`ChainChanged`), and then stamp the entry of the file and write it to the directory (`State.stamped`). What they
return and leave is stated here in this form (`pread_changes`, `pwrite_changes`, `truncate_changes`), so that
their effect on everything else can be derived once for all. -/

namespace OsLabs.Fat

/-- The device holds the entries of the clusters. -/
def State.Mirrored (s : State) : Prop :=
  ∀ c, s.table.IsCluster c → s.diskEntry c = le32Bytes (s.table.fatMap c)

/-- From `s` to `s'` the chain `l` of a start cluster became `l'`, by taking up free clusters or giving some back,
and data changed in the clusters of `l'` only; the device holds the table if it did. -/
structure ChainChanged (start : Nat) (l l' : List Nat) (s s' : State) : Prop where
  frame : s' = { s with dev := s'.dev, io := s'.io, table := s'.table }
  ioOk : s'.IoOk
  sameVolume : s.table.SameVolume s'.table
  isChain : s'.table.IsChain start l'
  free : ∀ e ∈ l', e ∉ l → s.table.fatMap e = fatClusterFree
  fatMap : ∀ e, e ∉ l → s.table.fatMap e ≠ fatClusterFree → s'.table.fatMap e = s.table.fatMap e
  mirrored : s.Mirrored → s'.Mirrored
  byte : ∀ c, s.table.IsValidClusterNumber c → c ∉ l' → ∀ i < s.table.bytesPerCluster,
    s'.dev.byte (s.table.clusterOffset c + i) = s.dev.byte (s.table.clusterOffset c + i)

/-- What lies before the table on the device stayed, and the entries of the table still fit into 32 bits. -/
structure Intact (s s' : State) : Prop where
  boot : ∀ i < s.table.fatOffset, s'.dev.byte i = s.dev.byte i
  bounded : (∀ c, s.table.fatMap c < 2 ^ 32) → ∀ c, s'.table.fatMap c < 2 ^ 32

/-- The state after the entry of a file was assigned and written to the directory. -/
def State.stamped (s : State) (file : Nat) (x y : FatFile) (d : DirEntry) : State :=
  (s.ticked.updated file fun x => { x with dentry := some d }).entryWritten y.startCluster x.posInParent d

section Mirrored

variable {s s' : State} {l : List Nat}

/-- Setting entries in memory and on the device. -/
theorem EntriesSet.mirrored (h : EntriesSet l s s') (hs : s.Mirrored) : s'.Mirrored := by
  intro c hc
  by_cases hmem : c ∈ l
  · exact h.stored c hmem
  · rw [h.kept c hmem, h.fatMap c hmem]
    exact hs c ((h.sameVolume.isCluster_iff c).mp hc)

/-- Writing data leaves the table on the device alone. -/
theorem diskEntry_congr (ht : s.table.LaidOut) {c : Nat} (hc : s.table.IsCluster c)
    (hv : s.table.SameVolume s'.table)
    (h : ∀ i, i < s.table.dataStartOffset → s'.dev.byte i = s.dev.byte i) : s'.diskEntry c = s.diskEntry c := by
  have hbefore := ht.entry_le hc
  unfold State.diskEntry
  rw [hv.fatOffset]
  refine List.map_congr_left fun i hi => h _ ?_
  have hi' := List.mem_range.mp hi
  omega

end Mirrored

/-- A size needs at most `n` clusters if they hold it, and one in any case. -/
theorem FatTable.clustersOf_le_iff (t : FatTable) {size n : Nat} :
    t.clustersOf size ≤ n ↔ 0 < n ∧ size ≤ n * t.bytesPerCluster := by
  have hB := t.bytesPerCluster_pos
  have hdiv : (size + (t.bytesPerCluster - 1)) / t.bytesPerCluster ≤ n ↔
      size + (t.bytesPerCluster - 1) < (n + 1) * t.bytesPerCluster := by
    rw [← Nat.lt_succ_iff, Nat.div_lt_iff_lt_mul hB]
  rw [Nat.succ_mul] at hdiv
  unfold clustersOf
  rw [Nat.max_le, hdiv]
  omega

/-! ## Reading -/

section Pread

variable {s : State} {file p : Nat} {x y : FatFile} {d : DirEntry} {l : List Nat}

/-- Reading changes no chain. -/
theorem ChainChanged.reads {start : Nat} {mem mem' : Int → UInt8} {pos off n : Nat} {s₁ : State}
    (hl : s.table.IsChain start l) (h : BytesRead l mem mem' pos off n s s₁) : ChainChanged start l l s s₁ where
  frame := by
    rw [h.frame]
  ioOk := h.ioOk
  sameVolume := by
    rw [h.table]
    exact .refl _
  isChain := by rwa [h.table]
  free e he hne := absurd he hne
  fatMap e _ _ := by rw [h.table]
  mirrored hs := by
    intro c hc
    rw [h.table] at hc ⊢
    unfold State.diskEntry
    rw [h.table, h.dev]
    exact hs c hc
  byte c _ _ i _ := by rw [h.dev]

/-- `fat_file_pread` returns a slice of the data, and stamps the entry if it is not empty. -/
theorem pread_changes (env : Env) (mem : Int → UInt8) (size : Nat) {offset : Nat} (hio : s.IoOk)
    (herrno : s.errno = 0) (hx : s.files.cell file = some x) (hd : x.dentry = some d)
    (hy : s.files.cell p = some y) (hl : s.table.IsChain x.startCluster l)
    (hlen : d.fileSize ≤ l.length * s.table.bytesPerCluster) (hoff : offset ≤ d.fileSize) :
    ∃ (r : Nat) (mem' : Int → UInt8) (s' : State), fatFilePread env file mem size offset (some p) s =
        .ok ((r : Int), mem') s' ∧
      memBytes mem' 0 r = (((chainBytes s l).take d.fileSize).drop offset).take size ∧
      (s' = s ∨ ∃ s₁ now, s' = s₁.stamped file x y (fillDentryTime now false false d) ∧
        ChainChanged x.startCluster l l s s₁ ∧ Intact s s₁ ∧ chainBytes s₁ l = chainBytes s l) := by
  -- Nothing to read: the call returns at once.
  by_cases hmin : min size (d.fileSize - offset) = 0
  · refine ⟨0, mem, s, ?_, ?_, .inl rfl⟩
    · unfold fatFilePread
      rw [Cmd.bind_ok (readDentry_run hx hd), if_neg (by omega)]
      dsimp only
      rw [if_pos hmin]
      rfl
    · symm
      apply List.eq_nil_of_length_eq_zero
      rw [List.length_take, List.length_drop, List.length_take, length_chainBytes]
      omega
  · obtain ⟨mem', s₁, hread, hrun⟩ := fatFilePread_run env mem hio herrno hx hd hy hl.chain_cluster? hl.lt_fatLen hlen
      (show offset < d.fileSize by omega) (show 0 < size by omega)
    -- Otherwise the loop has run, and the entry is stamped with the access date.
    refine ⟨_, mem', _, hrun, ?_, .inr ⟨s₁, env.time s₁.tick, rfl, .reads hl hread, ⟨?_, ?_⟩, ?_⟩⟩
    · refine List.ext_getElem? fun i => ?_
      by_cases hi : i < min size (d.fileSize - offset)
      · have hload := hread.loaded i hi
        rw [Nat.zero_add] at hload
        rw [memBytes, List.getElem?_map, List.getElem?_range hi, Option.map_some,
          List.getElem?_take_of_lt (by omega), List.getElem?_drop, List.getElem?_take_of_lt (by omega),
          getElem?_chainBytes (by omega), ← hload, zero_add]
      · rw [List.getElem?_eq_none, List.getElem?_eq_none]
        · rw [List.length_take, List.length_drop, List.length_take, length_chainBytes]
          omega
        · rw [length_memBytes]
          omega
    · intro i _
      rw [hread.dev]
    · rw [hread.table]
      exact id
    · exact chainBytes_congr (by rw [hread.table]; exact .refl _) fun c _ i _ => by rw [hread.dev]

end Pread

/-! ## Writing -/

section Pwrite

variable {s s' : State} {file p : Nat} {x y : FatFile} {d : DirEntry} {l : List Nat} {offset : Nat}
  {live unread : Set Nat}

/-- The allocation ahead of the loop sets entries on the device as in memory. -/
theorem allocAfterLast_mirrored (ht : s.table.LaidOut) (hio : s.IoOk) {a : Nat} (ha : s.table.IsCluster a)
    (hfree : s.table.next a ≠ none ∨ ∃ c, s.table.IsCluster c ∧ s.table.fatMap c = fatClusterFree)
    (hrun : allocAfterLast a s = .ok ⟨⟩ s') (hs : s.Mirrored) : s'.Mirrored := by
  by_cases hnext : s.table.next a = none
  · obtain ⟨c, hc, -, hrun'⟩ := allocAfterLast_end hio ha hnext (hfree.resolve_left (not_not.mpr hnext))
    cases hrun.symm.trans hrun'
    have hset := entriesSet_linked ht hio ha c
    exact (entriesSet_linked (s := s.linked a c) (ht.setEntry a c) hset.ioOk hc _).mirrored (hset.mirrored hs)
  · cases hrun.symm.trans (allocAfterLast_inside ha.lt_fatLen hnext)
    exact hs

/-- The allocation writes to the table only. -/
theorem allocAfterLast_intact (hio : s.IoOk) {a : Nat} (ha : s.table.IsCluster a)
    (hfree : s.table.next a ≠ none ∨ ∃ c, s.table.IsCluster c ∧ s.table.fatMap c = fatClusterFree)
    (hrun : allocAfterLast a s = .ok ⟨⟩ s') : Intact s s' := by
  by_cases hnext : s.table.next a = none
  · obtain ⟨c, hc, -, hrun'⟩ := allocAfterLast_end hio ha hnext (hfree.resolve_left (not_not.mpr hnext))
    cases hrun.symm.trans hrun'
    have hlt := hc.lt_eoc
    simp only [fatClusterEndOfChain] at hlt
    refine ⟨fun i hi => ?_, fun hs b => ?_⟩
    · have hbefore (s : State) (c v : Nat) (hi : i < s.table.fatOffset) :
          (s.linked c v).dev.byte i = s.dev.byte i := by
        refine State.byte_wrote_of_notMem fun h => ?_
        have hle := h.1
        omega
      exact (hbefore (s.linked a c) c _ hi).trans (hbefore s a c hi)
    · -- the two entries are a cluster number and the end mark
      show (if b = c then fatClusterEndOfChain else if b = a then c else s.table.fatMap b) < 2 ^ 32
      split_ifs
      · decide
      · omega
      · exact hs b
  · cases hrun.symm.trans (allocAfterLast_inside ha.lt_fatLen hnext)
    exact ⟨fun _ _ => rfl, id⟩

/-- What lies before the data of the volume is not written by the loop. -/
theorem BytesWritten.before {mem : Int → UInt8} {pos off n : Nat}
    (h : BytesWritten l mem pos off n s s') (hv : ∀ c ∈ l, s.table.IsValidClusterNumber c)
    (hin : off + n ≤ l.length * s.table.bytesPerCluster) {i : Nat} (hi : i < s.table.dataStartOffset) :
    s'.dev.byte i = s.dev.byte i := by
  refine h.kept i fun j hj => ?_
  obtain ⟨e, he, k, -, heq⟩ := filePos_mem (t := s.table) (l := l) (q := off + j) (by omega)
  have hoff := FatTable.clusterOffset_eq (hv e he)
  omega

/-- Data written behind the table leaves it on the device. -/
theorem BytesWritten.mirrored {mem : Int → UInt8} {pos off n : Nat} (ht : s.table.LaidOut)
    (h : BytesWritten l mem pos off n s s') (hv : ∀ c ∈ l, s.table.IsValidClusterNumber c)
    (hin : off + n ≤ l.length * s.table.bytesPerCluster) (hs : s.Mirrored) : s'.Mirrored := by
  intro c hc
  have htable := h.table
  rw [htable] at hc ⊢
  rw [← hs c hc]
  exact diskEntry_congr ht hc (by rw [htable]; exact .refl _) fun i hi => h.before hv hin hi

/-- The allocation and the loop together. -/
theorem ChainChanged.writes {start k : Nat} {mem : Int → UInt8} {pos off n : Nat} {l' : List Nat} {s₁ s₂ : State}
    (ht : s.table.LaidOut) (hal : Allocated start k l l' s s₁) (hmirrored : s.Mirrored → s₁.Mirrored)
    (hbytes : BytesWritten l' mem pos off n s₁ s₂) (hin : off + n ≤ l'.length * s.table.bytesPerCluster) :
    ChainChanged start l l' s s₂ := by
  have hB := hal.sameVolume.bytesPerCluster
  have ht₁ := hal.sameVolume.laidOut ht
  have htable := hbytes.table
  rw [← hB] at hin
  refine ⟨?_, hbytes.ioOk, ?_, ?_, hal.free, fun e hel hused => ?_, fun hs => ?_, fun c hc hcl i hi => ?_⟩
  · rw [hbytes.frame, hal.frame]
  · rw [htable]
    exact hal.sameVolume
  · rw [htable]
    exact hal.isChain
  · rw [htable]
    exact hal.fatMap e fun hel' => hused (hal.free e hel' hel)
  · exact hbytes.mirrored ht₁ hal.isChain.isValid hin (hmirrored hs)
  · -- a cluster outside the chain has no byte that is written
    rw [hbytes.kept _ fun j hj heq => ?_, hal.byte]
    · rw [FatTable.clusterOffset_eq hc, Nat.add_assoc]
      exact Nat.le_add_right _ _
    · obtain ⟨e, he, i', hi', heq'⟩ := filePos_mem (t := s₁.table) (l := l') (q := off + j) (by omega)
      rw [hal.sameVolume.clusterOffset] at heq'
      have hev := (hal.sameVolume.isValid_iff e).mp (hal.isChain.isValid e he)
      obtain ⟨rfl, -⟩ := FatTable.clusterOffset_disjoint hc hev hi (by rwa [← hB]) (heq.trans heq')
      exact hcl he

/-- What comes before the table is written by neither. -/
theorem Intact.writes {start k : Nat} {mem : Int → UInt8} {pos off n : Nat} {l' : List Nat} {s₁ s₂ : State}
    (h : Intact s s₁) (ht : s.table.LaidOut) (hal : Allocated start k l l' s s₁)
    (hbytes : BytesWritten l' mem pos off n s₁ s₂) (hin : off + n ≤ l'.length * s₁.table.bytesPerCluster) :
    Intact s s₂ := by
  refine ⟨fun i hi => ?_, ?_⟩
  · have hbefore := ht.before_data
    have hdata := hal.sameVolume.dataStartOffset
    rw [hbytes.before hal.isChain.isValid hin (by omega), h.boot i hi]
  · rw [hbytes.table]
    exact h.bounded

/-- `fat_file_pwrite` within its limits overwrites the content of the file and stamps the entry. -/
theorem pwrite_changes (env : Env) (buf : List UInt8) {bytes : List UInt8}
    (h : WriteTarget s live unread file p x y d l offset) (hio : s.IoOk) (herrno : s.errno = 0)
    (hcontent : HasContent s file bytes)
    (hfree : offset / s.table.bytesPerCluster + 1 < l.length ∨ 0 < s.table.freeClusters.length)
    (hfit : buf.length = 0 ∨ (offset + buf.length - 1) / s.table.bytesPerCluster <
      max l.length (offset / s.table.bytesPerCluster + 2))
    (hend : offset + buf.length < 2 ^ 32) :
    ∃ s₁ l' now, fatFilePwrite env file buf offset (some p) s =
        .ok (buf.length : Int) (s₁.stamped file x y (pwrittenEntry now d (offset + buf.length))) ∧
      ChainChanged x.startCluster l l' s s₁ ∧ Intact s s₁ ∧
      s.table.clustersOf (pwrittenEntry now d (offset + buf.length)).fileSize ≤ l'.length ∧
      HasContent (s₁.stamped file x y (pwrittenEntry now d (offset + buf.length))) file
        (overwrite bytes offset buf) := by
  have ht := h.volume.table
  have hlong := h.reaches
  have hseek := fatTableSeekCluster_run h.chain.start.not_isEoc h.chain.chain h.chain.lt_fatLen
    (Nat.lt_of_le_of_lt h.offset_le d.fileSize_lt) hlong
  have ha := List.getElem?_eq_getElem hlong
  obtain ⟨s₁, l', halloc, hal⟩ := allocAfterLast_run ht.toLaidOut hio h.chain ha
    (hfree.imp_right (FatTable.exists_free ht))
  have hB := hal.sameVolume.bytesPerCluster
  have ha' : l'[offset / s₁.table.bytesPerCluster]? = some l[offset / s.table.bytesPerCluster] := by
    rw [hB]
    exact List.prefix_iff_getElem?.mp hal.isPrefix _ hlong
  obtain ⟨s₂, hbytes, hloop⟩ := pwriteLoop_within (bufferMem env.aroundBuffer buf) (buf.length + 1) 0 buf.length
    hal.ioOk (by rw [hal.frame]; exact herrno) hal.isChain.isCluster hal.isChain.chain ha'
    (by rw [hB, hal.length_eq]; exact hfit) (Nat.lt_succ_self _)
  have hfiles : s₂.files = s.files := by
    rw [hbytes.frame, hal.frame]
    rfl
  have hrun := fatFilePwrite_run h.cell h.entry h.parent_cell h.parent_ne h.offset_le herrno hseek halloc hloop
    hfiles hbytes.ioOk
  have hle : l.length * s.table.bytesPerCluster ≤ l'.length * s.table.bytesPerCluster :=
    Nat.mul_le_mul_right _ hal.isPrefix.length_le
  have hcovers := h.covers
  have hoff := h.offset_le
  have hin : offset + buf.length ≤ l'.length * s.table.bytesPerCluster := by
    rcases hfit with h0 | hlt
    · omega
    · rw [← hal.length_eq, Nat.div_lt_iff_lt_mul s.table.bytesPerCluster_pos] at hlt
      omega
  -- a free cluster is needed only if the write starts in the last cluster of the chain
  have hcluster := h.chain.isCluster _ (List.getElem_mem hlong)
  have hnext : s.table.next l[offset / s.table.bytesPerCluster] ≠ none ∨
      ∃ c, s.table.IsCluster c ∧ s.table.fatMap c = fatClusterFree := by
    refine hfree.imp (fun hlt => ?_) (FatTable.exists_free ht)
    rw [h.chain.chain.next_getElem hlong, List.getElem?_eq_getElem hlt]
    exact Option.some_ne_none _
  refine ⟨s₂, l', env.time s₂.tick, hrun,
    .writes ht.toLaidOut hal (allocAfterLast_mirrored ht.toLaidOut hio hcluster hnext halloc) hbytes hin,
    (allocAfterLast_intact hio hcluster hnext halloc).writes ht.toLaidOut hal hbytes (by rwa [hB]), ?_, ?_⟩
  · rw [FatTable.clustersOf_le_iff, fileSize_pwrittenEntry _ _ hend]
    exact ⟨List.length_pos_iff.mpr hal.isChain.ne_nil, Nat.max_le.mpr ⟨Nat.le_trans hcovers hle, hin⟩⟩
  · obtain ⟨s', hrun', -, hcontent', -⟩ := h.writesArray_of_fits env hio herrno hfree hfit hend
    cases hrun.symm.trans hrun'
    exact hcontent' bytes hcontent

end Pwrite

/-! ## Truncating -/

section Truncate

variable {s : State} {file p : Nat} {x y : FatFile} {d : DirEntry} {l : List Nat} {offset : Nat}

/-- Ending a chain and freeing what was behind the end. -/
theorem ChainChanged.cuts {start q last : Nat} {s₁ : State} (hl : s.table.IsChain start l)
    (hlast : l[q]? = some last) (hset : EntriesSet (last :: l.drop (q + 1)) s s₁)
    (heoc : s₁.table.fatMap last = fatClusterEndOfChain) : ChainChanged start l (l.take (q + 1)) s s₁ := by
  obtain ⟨hk, rfl⟩ := List.getElem?_eq_some_iff.mp hlast
  have hdrop : l.drop q = l[q] :: l.drop (q + 1) := List.drop_eq_getElem_cons hk
  rw [← hdrop] at hset
  have hbefore {a : Nat} (ha : a ∈ l.take q) : s₁.table.fatMap a = s.table.fatMap a :=
    hset.fatMap a fun ha' => List.disjoint_take_drop hl.chain.nodup (Nat.le_refl q) ha ha'
  -- the chain is the one it was up to the new end
  refine ⟨hset.frame, hset.ioOk, hset.sameVolume,
    ⟨fun c hc => (hset.sameVolume.isCluster_iff c).mpr (hl.isCluster c (List.mem_of_mem_take hc)),
    hl.chain.take hk ?_ ?_, fun c hc => ?_⟩, ?_, fun e he _ => ?_, hset.mirrored, fun c hc _ i _ => ?_⟩
  · refine FatTable.next_eq_none (.inl ?_)
    rw [heoc]
    exact .inl rfl
  · exact fun a ha => hset.sameVolume.next_eq (hbefore ha)
  · rw [List.take_succ_eq_append_getElem hk, List.mem_append, List.mem_singleton] at hc
    rcases hc with hc | rfl
    · rw [hbefore hc]
      exact hl.allocated c (List.mem_of_mem_take hc)
    · rw [heoc]
      decide
  · exact fun e he hne => absurd (List.mem_of_mem_take he) hne
  · exact hset.fatMap e fun he' => he (List.mem_of_mem_drop he')
  · apply hset.byte
    rw [FatTable.clusterOffset_eq hc, Nat.add_assoc]
    exact Nat.le_add_right _ _

/-- `fat_file_truncate` to an offset that needs fewer clusters, or behind the end, cuts the content. -/
theorem truncate_changes (env : Env) {bytes : List UInt8} (h : TruncateTarget s file p x y d l)
    (hcontent : HasContent s file bytes)
    (hcuts : d.fileSize ≤ offset ∨ s.table.clustersOf offset < s.table.clustersOf d.fileSize) :
    ∃ s', fatFileTruncate env file offset (some p) s = .ok ⟨⟩ s' ∧ HasContent s' file (bytes.take offset) ∧
      (s' = s ∨ ∃ s₁ now l', s' = s₁.stamped file x y (truncatedEntry now d offset) ∧
        ChainChanged x.startCluster l l' s s₁ ∧ offset < 2 ^ 32 ∧ s.table.clustersOf offset ≤ l'.length) := by
  obtain ⟨f, e, hf, he, m, -, hm, rfl⟩ := id hcontent
  cases h.cell.symm.trans hf
  cases h.entry.symm.trans he
  obtain rfl := hm.unique h.chain.chain
  by_cases hlt : s.table.clustersOf offset < s.table.clustersOf d.fileSize ∧ offset ≤ d.fileSize
  · obtain ⟨hlt, hoff⟩ := hlt
    have hoff' : offset < 2 ^ 32 := Nat.lt_of_le_of_lt hoff d.fileSize_lt
    obtain ⟨last, s₁, hlast, hset, heoc, -, hrun⟩ := fatFileTruncate_run h env hoff hlt
    have hchanged := ChainChanged.cuts h.chain hlast hset heoc
    generalize hq : offset / s.table.bytesPerCluster = q at *
    have hk := (List.getElem?_eq_some_iff.mp hlast).1
    have hlen : (m.take (q + 1)).length = q + 1 := by rw [List.length_take, Nat.min_eq_left hk]
    -- the clusters that are left hold the data up to the offset
    have hcovers : s.table.clustersOf offset ≤ (m.take (q + 1)).length := by
      rw [hlen]
      rcases s.table.div_bytesPerCluster offset with ⟨-, hdiv⟩ | ⟨-, hdiv⟩ <;> omega
    refine ⟨_, hrun, ?_, .inr ⟨s₁, env.time s₁.tick, m.take (q + 1), rfl, hchanged, hoff', hcovers⟩⟩
    obtain ⟨htable, -, hdata⟩ := entriesSet_truncateFinished h env offset hset
    have hx₁ : s₁.files.cell file = some x := by
      rw [hset.files]
      exact h.cell
    refine ⟨{ x with dentry := some (truncatedEntry (env.time s₁.tick) d offset) }, _, ?_, rfl, m.take (q + 1),
      ?_, ?_, ?_⟩
    · rw [State.truncateFinished, State.files_entryWritten]
      exact State.cell_updated_self (s := s₁.ticked) hx₁ _
    · rw [htable]
      exact hchanged.isChain.start.isValid
    · rw [htable]
      exact hchanged.isChain.chain
    · have hbytes : chainBytes (s₁.truncateFinished env file x y d offset) m = chainBytes s m :=
        chainBytes_congr (by rw [htable]; exact hset.sameVolume) hdata
      rw [fileSize_truncatedEntry _ d hoff', take_chainBytes_take, hbytes, List.take_take,
        Nat.min_eq_left hoff]
      rw [htable, hset.sameVolume.bytesPerCluster]
      exact (FatTable.clustersOf_le_iff _).mp hcovers |>.2
  · -- nothing is given back, and the content ends before the offset
    have hsize : d.fileSize ≤ offset := by omega
    have hearly := fatFileTruncate_early h env offset
      (hsize.eq_or_lt.symm.imp id fun heq => Nat.le_of_eq (congrArg _ heq))
    refine ⟨s, hearly, ?_, .inl rfl⟩
    rwa [List.take_of_length_le]
    exact Nat.le_trans (List.length_take_le _ _) hsize

end Truncate

end OsLabs.Fat
