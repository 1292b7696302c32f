import OsLabs.Fat.FileSpec
import OsLabs.Fat.Layout
import OsLabs.Fat.WriteLoop

/-! # Runs of `fat_file_pwrite`

The allocation before the loop, the loop and the rewriting of the directory entry put together:
`fatFilePwrite_fits` for a write that stays within the clusters the file has after that allocation,
`fatFilePwrite_overruns` for a longer one. -/

namespace OsLabs.Fat

/-! ## The allocation before the loop -/

section AllocAfterLast

variable {s : State} {last : Nat}

/-- Inside the chain nothing is allocated. -/
theorem allocAfterLast_inside (hlast : last < s.table.fatLen) (hnext : s.table.next last ≠ none) :
    allocAfterLast last s = .ok ⟨⟩ s := by
  unfold allocAfterLast
  rw [Cmd.bind_ok (fatTableGetNextCluster_run hlast), Cmd.when_neg]
  · rfl
  · exact mt (FatTable.isEoc_nextCluster_iff last).mp hnext

/-- Behind the last cluster, the first free one is linked and marked as the end. -/
theorem allocAfterLast_end (hio : s.IoOk) (hlast : s.table.IsCluster last) (hnext : s.table.next last = none)
    (hfree : ∃ c, s.table.IsCluster c ∧ s.table.fatMap c = fatClusterFree) :
    ∃ c, s.table.IsCluster c ∧ s.table.fatMap c = fatClusterFree ∧
      allocAfterLast last s =
        .ok ⟨⟩ ((s.linked last c).linked c fatClusterEndOfChain) := by
  obtain ⟨c, hrun, hc, h0, -⟩ := fatTableGetNextFreeCluster_run hfree
  refine ⟨c, hc, h0, ?_⟩
  unfold allocAfterLast
  rw [Cmd.bind_ok (fatTableGetNextCluster_run hlast.lt_fatLen),
    Cmd.when_pos ((FatTable.isEoc_nextCluster_iff last).mpr hnext), Cmd.bind_ok hrun,
    Cmd.bind_ok (fatTableSetNextCluster_run hio hlast.lt_fatLen hlast.four_mul_lt c),
    fatTableSetNextCluster_run (hio.linked _ _) hc.lt_fatLen hc.four_mul_lt]

/-- Without a free cluster, the search leaves the table or gives an end-of-chain mark. -/
theorem fatTableGetNextFreeCluster_full (ht : s.table.Wf) (hfull : s.table.freeClusters = []) :
    fatTableGetNextFreeCluster s = .error .outOfBounds s ∨
      fatTableGetNextFreeCluster s = .ok fatClusterEndOfChain s := by
  unfold fatTableGetNextFreeCluster
  rw [Cmd.get_bind]
  cases hscan : scanFree s.table (s.table.fatLen - 2) 2 with
  | error e =>
      rw [scanFree_error hscan]
      exact .inl rfl
  | ok d =>
      obtain ⟨hle, hlt, hfree, -⟩ := scanFree_ok hscan
      have hd : ¬ s.table.IsValidClusterNumber d := fun hv =>
        by
        have hmem := (FatTable.mem_freeClusters ht).mpr ⟨(ht.isCluster_iff d).mpr ⟨hv, by omega⟩, hfree⟩
        rw [hfull] at hmem
        cases hmem
      exact .inr ((Cmd.ite_run _ _ _ s).trans (if_neg hd))

/-- Behind the last cluster of a full table, the mark is used as a cluster number. -/
theorem allocAfterLast_full (ht : s.table.Wf) (hio : s.IoOk)
    (hlast : s.table.IsCluster last) (hnext : s.table.next last = none)
    (hfull : s.table.freeClusters = []) : ∃ s', allocAfterLast last s = .error .outOfBounds s' := by
  unfold allocAfterLast
  rw [Cmd.bind_ok (fatTableGetNextCluster_run hlast.lt_fatLen),
    Cmd.when_pos ((FatTable.isEoc_nextCluster_iff last).mpr hnext)]
  rcases fatTableGetNextFreeCluster_full ht hfull with h | h
  · exact ⟨s, Cmd.bind_error h⟩
  · rw [Cmd.bind_ok h, Cmd.bind_ok (fatTableSetNextCluster_run hio hlast.lt_fatLen hlast.four_mul_lt _)]
    exact ⟨_, fatTableSetNextCluster_outside (hio.linked _ _) ht.fatLen_le_eoc _⟩

/-- From `s` to `s'` the allocation made the chain `l'` of a start cluster from its chain `l`, so that
there is a cluster behind the one of index `k`. -/
structure Allocated (start k : Nat) (l l' : List Nat) (s s' : State) : Prop where
  frame : s' = { s with dev := s'.dev, io := s'.io, table := s'.table }
  ioOk : s'.IoOk
  sameVolume : s.table.SameVolume s'.table
  isChain : s'.table.IsChain start l'
  isPrefix : l <+: l'
  length_eq : l'.length = max l.length (k + 2)
  free : ∀ e ∈ l', e ∉ l → s.table.fatMap e = fatClusterFree
  fatMap : ∀ e, e ∉ l' → s'.table.fatMap e = s.table.fatMap e
  byte : ∀ i, s.table.dataStartOffset ≤ i → s'.dev.byte i = s.dev.byte i

/-- The allocation before the loop, at any cluster of a chain. -/
theorem allocAfterLast_run (ht : s.table.LaidOut) (hio : s.IoOk) {start k a : Nat} {l : List Nat}
    (hl : s.table.IsChain start l) (ha : l[k]? = some a)
    (hfree : k + 1 < l.length ∨ ∃ c, s.table.IsCluster c ∧ s.table.fatMap c = fatClusterFree) :
    ∃ s' l', allocAfterLast a s = .ok ⟨⟩ s' ∧ Allocated start k l l' s s' := by
  obtain ⟨hk, rfl⟩ := List.getElem?_eq_some_iff.mp ha
  have hcluster := hl.isCluster _ (List.getElem_mem hk)
  have hnext := hl.chain.next_getElem hk
  -- Inside the chain nothing is linked; at its last cluster a free one is added.
  by_cases hlast : k + 1 < l.length
  · refine ⟨s, l, allocAfterLast_inside hcluster.lt_fatLen ?_, rfl, hio, .refl _, hl, List.prefix_refl l,
      (Nat.max_eq_left hlast).symm, fun e he hne => absurd he hne, fun _ _ => rfl, fun _ _ => rfl⟩
    rw [hnext, List.getElem?_eq_getElem hlast]
    exact Option.some_ne_none _
  · have hlen : k = l.length - 1 := by omega
    -- The cluster that the offset reached is the last of the chain.
    have hsplit : l = l.dropLast ++ [l[k]] := by
      have := List.dropLast_append_getLast hl.ne_nil
      rw [List.getLast_eq_getElem] at this
      simp only [hlen]
      exact this.symm
    rw [List.getElem?_eq_none (by omega)] at hnext
    obtain ⟨c, hc, h0, hrun⟩ := allocAfterLast_end hio hcluster hnext (hfree.resolve_left hlast)
    have hext := FatTable.IsChain.extend (hsplit ▸ hl) hc h0
    have hlist : l.dropLast ++ [l[k], c] = l ++ [c] := by
      conv_rhs => rw [hsplit]
      rw [List.append_assoc]
      rfl
    rw [hlist] at hext
    refine ⟨_, l ++ [c], hrun, rfl, (hio.linked _ _).linked _ _, rfl, hext, List.prefix_append l [c],
      ?_, fun e he hne => ?_, fun e he => ?_, fun i hi => ?_⟩
    · rw [List.length_append, List.length_singleton]
      omega
    · rw [List.mem_append, List.mem_singleton] at he
      rw [he.resolve_left hne, h0]
    -- The two stores touch the old last cluster and the new one only.
    · have hec : e ≠ c := fun h => he (List.mem_append_right _ (List.mem_singleton.mpr h))
      have hea : e ≠ l[k] := fun h => he (List.mem_append_left _ (h ▸ List.getElem_mem hk))
      show ((s.table.setEntry _ _).setEntry _ _).fatMap e = _
      rw [FatTable.fatMap_setEntry, if_neg hec, FatTable.fatMap_setEntry, if_neg hea]
    · rw [State.byte_linked (s := s.linked _ _) (ht.setEntry _ _) hc _ hi,
        State.byte_linked ht hcluster _ hi]

end AllocAfterLast

/-! ## The whole function -/

/-- The entry `fat_file_pwrite` leaves after a write that ended at `endOffset`. -/
def pwrittenEntry (now : Int) (d : DirEntry) (endOffset : Nat) : DirEntry :=
  fillDentryTime now false true
    (if d.fileSize < endOffset % 2 ^ 64 then d.setFileSize (endOffset % 2 ^ 32) else d)

/-- The state after the rewriting of the entry. -/
def State.pwriteFinished (s : State) (env : Env) (file : Nat) (x y : FatFile) (d : DirEntry)
    (endOffset : Nat) : State :=
  (s.ticked.updated file fun x =>
      { x with dentry := some (pwrittenEntry (env.time s.tick) d endOffset) }).entryWritten
    y.startCluster x.posInParent (pwrittenEntry (env.time s.tick) d endOffset)

section Pwrite

variable {s s₁ s₂ : State} {env : Env} {file p a offset : Nat} {x y : FatFile} {d : DirEntry}
  {buf : List UInt8}

/-- The run from the runs of its parts. -/
theorem fatFilePwrite_run (hx : s.files.cell file = some x) (hd : x.dentry = some d)
    (hy : s.files.cell p = some y) (hp : p ≠ file) (hoff : offset ≤ d.fileSize) (herrno : s.errno = 0)
    (hseek : fatTableSeekCluster x.startCluster offset s = .ok a s)
    (halloc : allocAfterLast a s = .ok ⟨⟩ s₁)
    (hloop : pwriteLoop (bufferMem env.aroundBuffer buf) (buf.length + 1) 0 buf.length offset a s₁ =
      .ok (0, offset + buf.length) s₂)
    (hfiles : s₂.files = s.files) (hio : s₂.IoOk) :
    fatFilePwrite env file buf offset (some p) s =
      .ok (buf.length : Int) (s₂.pwriteFinished env file x y d (offset + buf.length)) := by
  have hx₂ : s₂.files.cell file = some x := by rw [hfiles, hx]
  have hy₂ : s₂.files.cell p = some y := by rw [hfiles, hy]
  unfold fatFilePwrite
  rw [Cmd.bind_ok (readDentry_run hx hd), if_neg (by omega), Cmd.bind_ok (readFile_run hx),
    Cmd.bind_ok hseek, Cmd.bind_ok (getErrno_run s), if_neg (not_not.mpr herrno), Cmd.bind_ok halloc,
    Cmd.bind_ok hloop]
  have hsize : (((offset : Int) + buf.length - 0) % 2 ^ 64 > (d.fileSize : Int)) ↔
      d.fileSize < (offset + buf.length) % 2 ^ 64 := by omega
  have hend : ((((offset + buf.length : Nat) : Int) - 0) % 2 ^ 32).toNat =
      (offset + buf.length) % 2 ^ 32 := by omega
  dsimp only
  rw [hend]
  unfold State.pwriteFinished pwrittenEntry
  by_cases hlt : d.fileSize < (offset + buf.length) % 2 ^ 64
  · rw [Cmd.when_pos (hsize.mpr hlt), Cmd.bind_ok (updateDentry_run hx₂ hd _), if_pos hlt,
      stampAndWrite_run env (s := s₂.updated file _) (State.cell_updated_self hx₂ _) rfl
        ((State.cell_updated_ne hp _).trans hy₂) hio false true, Int.sub_zero]
    show EStateM.Result.ok _ (State.entryWritten ((s₂.ticked.updated file _).updated file _) _ _ _) = _
    rw [State.updated_updated]
    rfl
  · rw [Cmd.when_neg (mt hsize.mp hlt), Cmd.pure_bind_run, if_neg hlt,
      stampAndWrite_run env hx₂ hd hy₂ hio false true, Int.sub_zero]

/-- From `s` to `s'` the buffer was written to the file `file` with the chain `l` from `offset` on, in
the clusters of the chain `l'` it has now; its entry was rewritten in memory and in its directory. -/
structure Pwritten (file : Nat) (x y : FatFile) (d : DirEntry) (buf : List UInt8) (offset : Nat)
    (l l' : List Nat) (s s' : State) : Prop where
  nodes : s'.nodes = s.nodes
  fileTree : s'.fileTree = s.fileTree
  ioOk : s'.IoOk
  files : ∃ now, s'.files = s.files.modify file fun x =>
    { x with dentry := some (pwrittenEntry now d (offset + buf.length)) }
  sameVolume : s.table.SameVolume s'.table
  isChain : s'.table.IsChain x.startCluster l'
  isPrefix : l <+: l'
  length_eq : l'.length = max l.length (offset / s.table.bytesPerCluster + 2)
  free : ∀ e ∈ l', e ∉ l → s.table.fatMap e = fatClusterFree
  fatMap : ∀ e, e ∉ l' → s'.table.fatMap e = s.table.fatMap e
  stored : ∀ j < buf.length, s'.dev.byte (filePos s.table l' (offset + j)) = buf.getD j 0
  kept : ∀ c, s.table.IsValidClusterNumber c → c ≠ y.startCluster → ∀ i < s.table.bytesPerCluster,
    (∀ j < buf.length, s.table.clusterOffset c + i ≠ filePos s.table l' (offset + j)) →
      s'.dev.byte (s.table.clusterOffset c + i) = s.dev.byte (s.table.clusterOffset c + i)

/-- The memory of a buffer holds its bytes. -/
theorem bufferMem_eq (around : Int → UInt8) {buf : List UInt8} {j : Nat} (hj : j < buf.length) :
    bufferMem around buf ((0 + j : Nat) : Int) = buf.getD j 0 := by
  unfold bufferMem storeBytes
  rw [if_pos (by omega), Nat.zero_add, Int.sub_zero, Int.toNat_natCast]

/-- A position of a chain lies in one of its clusters. -/
theorem filePos_mem {t : FatTable} {l : List Nat} {q : Nat} (hq : q < l.length * t.bytesPerCluster) :
    ∃ c ∈ l, ∃ i < t.bytesPerCluster, filePos t l q = t.clusterOffset c + i := by
  have hk : q / t.bytesPerCluster < l.length := (Nat.div_lt_iff_lt_mul t.bytesPerCluster_pos).mpr hq
  exact ⟨l[q / t.bytesPerCluster], List.getElem_mem hk, q % t.bytesPerCluster,
    Nat.mod_lt _ t.bytesPerCluster_pos, filePos_eq (List.getElem?_eq_getElem hk)⟩

/-- The end of a write leaves the FAT alone. -/
theorem State.table_pwriteFinished (s : State) (env : Env) (file : Nat) (x y : FatFile) (d : DirEntry)
    (n : Nat) : (s.pwriteFinished env file x y d n).table = s.table :=
  State.table_entryWritten _ _ _ _

/-- The end of a write leaves the data of the other clusters alone. -/
theorem State.byte_pwriteFinished (hord : 5 ≤ s.table.clusterOrder) (env : Env) (file : Nat) (x : FatFile)
    (d : DirEntry) (n : Nat) {c i : Nat} (hc : s.table.IsValidClusterNumber c)
    (hy : s.table.IsValidClusterNumber y.startCluster) (hcy : c ≠ y.startCluster)
    (hi : i < s.table.bytesPerCluster) :
    (s.pwriteFinished env file x y d n).dev.byte (s.table.clusterOffset c + i) =
      s.dev.byte (s.table.clusterOffset c + i) := by
  refine State.byte_entryWritten (s := s.ticked.updated file _) hord _ fun ⟨hle, hlt⟩ => hcy ?_
  change s.table.clusterOffset y.startCluster ≤ _ at hle
  change _ < s.table.clusterOffset y.startCluster + s.table.bytesPerCluster at hlt
  exact (FatTable.clusterOffset_disjoint hc hy hi
    (show s.table.clusterOffset c + i - s.table.clusterOffset y.startCluster <
      s.table.bytesPerCluster by omega) (by omega)).1

variable (buf) in
/-- A write that stays within the clusters the file has after the allocation. -/
theorem fatFilePwrite_fits (env : Env) {l : List Nat} (ht : s.table.Wf) (hio : s.IoOk)
    (herrno : s.errno = 0) (hx : s.files.cell file = some x) (hd : x.dentry = some d)
    (hy : s.files.cell p = some y) (hp : p ≠ file) (hoff : offset ≤ d.fileSize)
    (hl : s.table.IsChain x.startCluster l) (hlong : offset / s.table.bytesPerCluster < l.length)
    (hq : s.table.IsValidClusterNumber y.startCluster) (hql : y.startCluster ∉ l)
    (hqused : s.table.fatMap y.startCluster ≠ fatClusterFree)
    (hfree : offset / s.table.bytesPerCluster + 1 < l.length ∨ 0 < s.table.freeClusters.length)
    (hfit : buf.length = 0 ∨ (offset + buf.length - 1) / s.table.bytesPerCluster <
      max l.length (offset / s.table.bytesPerCluster + 2)) :
    ∃ s' l', fatFilePwrite env file buf offset (some p) s = .ok (buf.length : Int) s' ∧
      Pwritten file x y d buf offset l l' s s' := by
  have hseek := fatTableSeekCluster_run hl.start.not_isEoc hl.chain hl.lt_fatLen
    (Nat.lt_of_le_of_lt hoff d.fileSize_lt) hlong
  have ha := List.getElem?_eq_getElem hlong
  obtain ⟨s₁, l', halloc, hal⟩ := allocAfterLast_run ht.toLaidOut hio hl ha
    (hfree.imp_right (FatTable.exists_free ht))
  have hB := hal.sameVolume.bytesPerCluster
  have ht₁ := hal.sameVolume.wf ht
  have herrno₁ : s₁.errno = 0 := by rw [hal.frame]; exact herrno
  have ha' : l'[offset / s₁.table.bytesPerCluster]? =
      some l[offset / s.table.bytesPerCluster] := by
    rw [hB]
    exact List.prefix_iff_getElem?.mp hal.isPrefix _ hlong
  obtain ⟨s₂, hbytes, hloop⟩ := pwriteLoop_within (bufferMem env.aroundBuffer buf)
    (buf.length + 1) 0 buf.length hal.ioOk herrno₁ hal.isChain.isCluster
    hal.isChain.chain ha' (by rw [hB, hal.length_eq]; exact hfit) (Nat.lt_succ_self _)
  have hfiles : s₂.files = s.files := by rw [hbytes.frame, hal.frame]; rfl
  have hql' : y.startCluster ∉ l' := fun h => hqused (hal.free _ h hql)
  have htable : s₂.table = s₁.table := hbytes.table
  have hpos (q : Nat) : filePos s₁.table l' q = filePos s.table l' q := by
    unfold filePos
    rw [hB, hal.sameVolume.clusterOffset]
  -- the rewriting of the entry leaves the clusters of the file alone
  have hfinish (c : Nat) (hc : s.table.IsValidClusterNumber c) (hcy : c ≠ y.startCluster) (i : Nat)
      (hi : i < s.table.bytesPerCluster) :
      (s₂.pwriteFinished env file x y d (offset + buf.length)).dev.byte
        (s.table.clusterOffset c + i) = s₂.dev.byte (s.table.clusterOffset c + i) := by
    have hv := hal.sameVolume.isValid_iff
    have := State.byte_pwriteFinished (s := s₂) (y := y) (by rw [htable]; exact ht₁.order_ge) env file x d
      (offset + buf.length) (by rw [htable]; exact (hv c).mpr hc) (by rw [htable]; exact (hv _).mpr hq)
      hcy (by rw [htable, hB]; exact hi)
    rwa [htable, hal.sameVolume.clusterOffset] at this
  refine ⟨_, l', fatFilePwrite_run hx hd hy hp hoff herrno hseek halloc hloop hfiles hbytes.ioOk, ?_⟩
  have hin (j : Nat) (hj : j < buf.length) : offset + j < l'.length * s.table.bytesPerCluster := by
    have h := hfit.resolve_left (by omega)
    rw [← hal.length_eq, Nat.div_lt_iff_lt_mul s.table.bytesPerCluster_pos] at h
    omega
  refine ⟨?_, ?_, hbytes.ioOk.ticked.updated file _ |>.entryWritten _ _ _, ⟨env.time s₂.tick, ?_⟩, ?_, ?_,
    hal.isPrefix, hal.length_eq, hal.free, fun e he => ?_, fun j hj => ?_, fun c hc hcy i hi hne => ?_⟩
  · exact (State.nodes_entryWritten _ _ _ _).trans (by
      show s₂.nodes = s.nodes
      rw [hbytes.frame, hal.frame])
  · exact (State.fileTree_entryWritten _ _ _ _).trans (by
      show s₂.fileTree = s.fileTree
      rw [hbytes.frame, hal.frame])
  · exact (State.files_entryWritten _ _ _ _).trans (by rw [← hfiles]; rfl)
  · rw [State.table_pwriteFinished, htable]
    exact hal.sameVolume
  · rw [State.table_pwriteFinished, htable]
    exact hal.isChain
  · rw [State.table_pwriteFinished, htable]
    exact hal.fatMap e he
  · obtain ⟨c, hc, i, hi, heq⟩ := filePos_mem (hin j hj)
    have hcy : c ≠ y.startCluster := fun h => hql' (h ▸ hc)
    have hcv := (hal.sameVolume.isValid_iff c).mp (hal.isChain.isValid c hc)
    have hstored := hbytes.stored j hj
    rw [hpos] at hstored
    rw [heq, hfinish c hcv hcy i hi, ← heq, hstored, bufferMem_eq _ hj]
  · rw [hfinish c hc hcy i hi, hbytes.kept _ fun j hj => by rw [hpos]; exact hne j hj, hal.byte]
    rw [FatTable.clusterOffset_eq hc, Nat.add_assoc]
    exact Nat.le_add_right _ _

/-- The loop behind the clusters of a chain `l`: the byte at the start of the last cluster is the one
that was due behind the chain. -/
theorem pwriteLoop_overruns {s : State} {start : Nat} {l : List Nat} (mem : Int → UInt8) (rem : Nat)
    (ht : s.table.LaidOut) (hio : s.IoOk) (herrno : s.errno = 0) (hl : s.table.IsChain start l)
    (hlong : offset / s.table.bytesPerCluster + 1 < l.length)
    (ha : l[offset / s.table.bytesPerCluster]? = some a)
    (hfree : ∃ c, s.table.IsCluster c ∧ s.table.fatMap c = fatClusterFree)
    (hover : l.length * s.table.bytesPerCluster < offset + rem) :
    ∃ b c s', l.getLast? = some b ∧ c ∉ l ∧
      pwriteLoop mem (rem + 1) 0 rem offset a s = .ok (0, offset + rem) s' ∧
      Overwritten b c (mem ((l.length * s.table.bytesPerCluster - offset : Nat) : Int)) s s' := by
  have hB := s.table.bytesPerCluster_pos
  -- `d` clusters lie between the one of the offset and the last one.
  obtain ⟨d, hd⟩ := Nat.exists_eq_add_of_le (show offset / s.table.bytesPerCluster ≤ l.length - 1 by omega)
  have hlast : l.length - 1 < l.length := Nat.sub_one_lt_of_lt hlong
  have hmul : (l.length - 1) * s.table.bytesPerCluster + s.table.bytesPerCluster =
      l.length * s.table.bytesPerCluster := by
    rw [← Nat.succ_mul]
    congr 1
    omega
  have hoff : offset < (l.length - 1) * s.table.bytesPerCluster :=
    (Nat.div_lt_iff_lt_mul hB).mp (by omega)
  have hreach : (offset / s.table.bytesPerCluster + d) * s.table.bytesPerCluster < offset + rem := by
    rw [← hd]
    omega
  -- The loop first fills the chain up to its last cluster.
  obtain ⟨s₁, fuel, n, h1, h2, h3, h4, h5⟩ := pwriteLoop_advance mem (rem + 1) 0
    rem hio herrno hl.isCluster hl.chain ha
    (by rw [← hd]; exact List.getElem?_eq_getElem hlast) hreach (by omega) (Nat.lt_succ_self _)
  rw [← hd, Nat.max_eq_right (Nat.le_of_lt hoff)] at h3
  have htable := h4.table
  have hmod : (offset + n) % s.table.bytesPerCluster = 0 := by rw [h3, Nat.mul_mod_left]
  have hmem := List.getElem_mem hlast
  have hnext := hl.chain.next_getElem hlast
  rw [List.getElem?_eq_none (by omega)] at hnext
  -- Then it runs past the end, into a cluster that was free.
  obtain ⟨c, s₂, hc, h0, hrun, hov⟩ := pwriteLoop_pastEnd mem (0 + n)
    (rem - n) (offset + n) (a := l[l.length - 1]) (s := s₁) (by rw [htable]; exact ht)
    h4.ioOk (by rw [h4.errno]; exact herrno) (by rw [htable]; exact hl.isCluster _ hmem)
    (by rw [htable]; exact hl.allocated _ hmem) (by rw [htable]; exact hnext)
    (by rw [htable]; exact hfree) (by rw [htable, hmod]; omega) h2
  rw [htable, hmod, show 0 + n + (s.table.bytesPerCluster - 0) =
    l.length * s.table.bytesPerCluster - offset by omega] at hov
  rw [htable] at h0
  refine ⟨l[l.length - 1], c, s₂, ?_, fun hcl => hl.allocated c hcl h0, ?_, ?_⟩
  · rw [List.getLast?_eq_getElem?, List.getElem?_eq_getElem hlast]
  · rw [h5, hrun, show offset + n + (rem - n) = offset + rem by omega]
  · refine ⟨?_, hov.ioOk, ?_, fun e he hec => ?_, ?_⟩
    · rw [hov.frame, h4.frame]
    · rw [← htable]
      exact hov.sameVolume
    · rw [hov.fatMap e he hec, htable]
    · have := hov.byte
      rwa [htable] at this

variable (buf) in
/-- At the last cluster of a chain in a full table, the function leaves the table. -/
theorem fatFilePwrite_full (env : Env) {l : List Nat} (parent : Ptr) (ht : s.table.Wf) (hio : s.IoOk)
    (herrno : s.errno = 0) (hx : s.files.cell file = some x) (hd : x.dentry = some d)
    (hoff : offset ≤ d.fileSize) (hl : s.table.IsChain x.startCluster l)
    (hlast : offset / s.table.bytesPerCluster + 1 = l.length) (hfull : s.table.freeClusters = []) :
    ∃ s', fatFilePwrite env file buf offset parent s = .error .outOfBounds s' := by
  have hlong : offset / s.table.bytesPerCluster < l.length := by
    rw [← hlast]
    exact Nat.lt_succ_self _
  have hseek := fatTableSeekCluster_run hl.start.not_isEoc hl.chain hl.lt_fatLen
    (Nat.lt_of_le_of_lt hoff d.fileSize_lt) hlong
  have hnext := hl.chain.next_getElem hlong
  rw [List.getElem?_eq_none (Nat.le_of_eq hlast.symm)] at hnext
  obtain ⟨s', halloc⟩ := allocAfterLast_full ht hio (hl.isCluster _ (List.getElem_mem hlong)) hnext hfull
  refine ⟨s', ?_⟩
  unfold fatFilePwrite
  rw [Cmd.bind_ok (readDentry_run hx hd), if_neg (by omega), Cmd.bind_ok (readFile_run hx),
    Cmd.bind_ok hseek, Cmd.bind_ok (getErrno_run s), if_neg (not_not.mpr herrno),
    Cmd.bind_error halloc]

/-- With a free cluster to spare, one is left after the allocation. -/
theorem Allocated.exists_free {s s' : State} {start k : Nat} {l l' : List Nat} (ht : s.table.Wf)
    (hl : s.table.IsChain start l) (hk : k < l.length) (h : Allocated start k l l' s s')
    (hfree : k + 1 < l.length ∧ 0 < s.table.freeClusters.length ∨
      1 < s.table.freeClusters.length) :
    ∃ c, s'.table.IsCluster c ∧ s'.table.fatMap c = fatClusterFree := by
  obtain ⟨new, rfl⟩ := h.isPrefix
  have hlen := h.length_eq
  rw [List.length_append] at hlen
  have hstays (c : Nat) (hc : s.table.IsCluster c) (h0 : s.table.fatMap c = fatClusterFree)
      (hnew : c ∉ new) : s'.table.IsCluster c ∧ s'.table.fatMap c = fatClusterFree := by
    refine ⟨(h.sameVolume.isCluster_iff c).mpr hc, (h.fatMap c ?_).trans h0⟩
    rw [List.mem_append]
    exact fun hmem => hmem.elim (fun hcl => hl.allocated c hcl h0) hnew
  cases new with
  | nil =>
      obtain ⟨c, hc, h0⟩ := FatTable.exists_free ht (hfree.elim And.right (by omega))
      exact ⟨c, hstays c hc h0 List.not_mem_nil⟩
  | cons b new =>
      rw [List.length_cons] at hlen
      obtain rfl : new = [] := List.eq_nil_of_length_eq_zero (by omega)
      obtain ⟨c, hne, hc, h0⟩ := FatTable.exists_free_ne ht
        (hfree.resolve_left (by rw [List.length_nil] at hlen; omega)) b
      exact ⟨c, hstays c hc h0 (by rwa [List.mem_singleton])⟩

variable (buf) in
/-- A write that is longer than the clusters the file has after the allocation. -/
theorem fatFilePwrite_overruns (env : Env) {l : List Nat} {n : Nat} (ht : s.table.Wf) (hio : s.IoOk)
    (herrno : s.errno = 0) (hx : s.files.cell file = some x) (hd : x.dentry = some d)
    (hy : s.files.cell p = some y) (hp : p ≠ file) (hoff : offset ≤ d.fileSize)
    (hl : s.table.IsChain x.startCluster l) (hlong : offset / s.table.bytesPerCluster < l.length)
    (hq : s.table.IsValidClusterNumber y.startCluster) (hql : y.startCluster ∉ l)
    (hqused : s.table.fatMap y.startCluster ≠ fatClusterFree)
    (hfree : offset / s.table.bytesPerCluster + 1 < l.length ∧ 0 < s.table.freeClusters.length ∨
      1 < s.table.freeClusters.length)
    (hn : n = max l.length (offset / s.table.bytesPerCluster + 2))
    (hover : n * s.table.bytesPerCluster < offset + buf.length) :
    ∃ s', fatFilePwrite env file buf offset (some p) s = .ok (buf.length : Int) s' ∧
      s.table.SameVolume s'.table ∧
      (∃ now, s'.files = s.files.modify file fun x =>
        { x with dentry := some (pwrittenEntry now d (offset + buf.length)) }) ∧
      ∀ m, Chain s'.table.next (some x.startCluster) m →
        (chainBytes s' m)[(n - 1) * s.table.bytesPerCluster]? =
          some (buf.getD (n * s.table.bytesPerCluster - offset) 0) := by
  have hseek := fatTableSeekCluster_run hl.start.not_isEoc hl.chain hl.lt_fatLen
    (Nat.lt_of_le_of_lt hoff d.fileSize_lt) hlong
  have ha := List.getElem?_eq_getElem hlong
  obtain ⟨s₁, l', halloc, hal⟩ := allocAfterLast_run ht.toLaidOut hio hl ha
    (hfree.imp And.left fun h => FatTable.exists_free ht (Nat.zero_lt_of_lt h))
  have hB := hal.sameVolume.bytesPerCluster
  have ht₁ := hal.sameVolume.wf ht
  have hlen : l'.length = n := hal.length_eq.trans hn.symm
  have ha' : l'[offset / s₁.table.bytesPerCluster]? =
      some l[offset / s.table.bytesPerCluster] := by
    rw [hB]
    exact List.prefix_iff_getElem?.mp hal.isPrefix _ hlong
  obtain ⟨b, c, s₂, hb, hcl, hloop, hov⟩ := pwriteLoop_overruns
    (bufferMem env.aroundBuffer buf) buf.length ht₁.toLaidOut hal.ioOk
    (by rw [hal.frame]; exact herrno) hal.isChain (by rw [hB]; omega) ha'
    (hal.exists_free ht hl hlong hfree) (by rw [hB, hlen]; exact hover)
  have hfiles : s₂.files = s.files := by rw [hov.frame, hal.frame]; rfl
  have hvol := hal.sameVolume.trans hov.sameVolume
  have hbl : b ∈ l' := List.mem_of_getLast? hb
  have hbv := hal.isChain.isValid b hbl
  refine ⟨_, fatFilePwrite_run hx hd hy hp hoff herrno hseek halloc hloop hfiles hov.ioOk,
    by rw [State.table_pwriteFinished]; exact hvol,
    ⟨env.time s₂.tick, (State.files_entryWritten _ _ _ _).trans (by rw [← hfiles]; rfl)⟩,
    fun m hm => ?_⟩
  rw [State.table_pwriteFinished] at hm
  -- the chain is the one before the loop, up to the cluster that was overwritten
  have hprefix : l' <+: m := by
    refine hal.isChain.chain.isPrefix hm fun e he => hov.sameVolume.next_eq (hov.fatMap e ?_ ?_)
    · rintro rfl
      exact hal.isChain.chain.getLast_notMem_dropLast hb he
    · rintro rfl
      exact hcl ((List.dropLast_subset l') he)
  have hmb : m[n - 1]? = some b := by
    rw [List.getLast?_eq_getElem?, hlen] at hb
    obtain ⟨h1, h2⟩ := List.getElem?_eq_some_iff.mp hb
    rw [← h2]
    exact List.prefix_iff_getElem?.mp hprefix _ h1
  have hB₂ := hvol.bytesPerCluster
  have hpos : (s₂.pwriteFinished env file x y d (offset + buf.length)).table.bytesPerCluster =
      s.table.bytesPerCluster := by rw [State.table_pwriteFinished, hB₂]
  have hdiv : (n - 1) * s.table.bytesPerCluster / s.table.bytesPerCluster = n - 1 :=
    Nat.mul_div_cancel _ s.table.bytesPerCluster_pos
  rw [getElem?_chainBytes, filePos_eq (a := b), State.table_pwriteFinished, hB₂, Nat.mul_mod_left]
  · have hv := hvol.isValid_iff
    have hb₀ := (hal.sameVolume.isValid_iff b).mp hbv
    have hby : b ≠ y.startCluster := by
      rintro rfl
      exact hqused (hal.free _ hbl hql)
    have hbyte := State.byte_pwriteFinished (s := s₂) (y := y) (hvol.wf ht).order_ge env file x d
      (offset + buf.length) ((hv b).mpr hb₀) ((hv _).mpr hq) hby s₂.table.bytesPerCluster_pos
    have hstored := hov.byte
    have hbefore : offset < n * s.table.bytesPerCluster := by
      refine (Nat.div_lt_iff_lt_mul s.table.bytesPerCluster_pos).mp (Nat.lt_of_lt_of_le ?_
        (hn ▸ Nat.le_max_right _ _))
      exact Nat.lt_add_of_pos_right Nat.zero_lt_two
    rw [hal.sameVolume.clusterOffset, ← hvol.clusterOffset, hB, hlen, ← Nat.zero_add
      (n * _ - offset), bufferMem_eq _ (by omega),
      ← Nat.add_zero (s₂.table.clusterOffset b)] at hstored
    rw [hbyte, hstored]
  · rw [hpos, hdiv, hmb]
  · rw [hpos]
    exact (Nat.mul_lt_mul_right s.table.bytesPerCluster_pos).mpr (List.getElem?_eq_some_iff.mp hmb).1

end Pwrite

end OsLabs.Fat
