import OsLabs.Fat.CreateFile
import OsLabs.Fat.ErrnoIndependence
import OsLabs.Fat.TableCopies

/-! # Seeking in a chain and searching for a free cluster

`fat_table_seek_cluster` tests for the end of the chain before it takes a step, and not after the last
one: it returns the end-of-chain mark for the position right behind the chain
(`seekRight_iff`). `fat_table_get_next_free_cluster` has no bound of its own: it leaves a table
without a free cluster (`searchRight_iff`). -/

namespace OsLabs.Fat

open Cmd

/-! ## Seeking in a chain -/

/-- `fat_table_get_next_cluster` leads from `c` through the clusters `l` to an end-of-chain mark. Where the number of
clusters is larger than the table, `0x0FFFFFFF` can pass as a valid number and is then returned as it is. -/
def EndsAfter (s : State) (mark : Nat) : Nat → List Nat → Prop
  | c, [] => c = mark ∧ FatTableIsEoc c
  | c, a :: l => c = a ∧ ¬ FatTableIsEoc a ∧
      ∃ d, fatTableGetNextCluster a s = .ok d s ∧ EndsAfter s mark d l

/-- The table leads from `c` to `0x0FFFFFF8` in fewer than the given number of steps. -/
def MeetsEnd (s : State) : Nat → Nat → Prop
  | 0, _ => False
  | steps + 1, c => c = fatClusterEndOfChain ∨
      ∃ d, fatTableGetNextCluster c s = .ok d s ∧ MeetsEnd s steps d

/-- A seek should find the cluster of the offset, or report that the chain is too short, and never
return an end-of-chain mark. -/
def SeekRight (l : List Nat) (start offset : Nat) (s : State) : Prop :=
  ∃ c t, fatTableSeekCluster start offset s = .ok c t ∧ ¬ FatTableIsEoc c ∧
    ((∃ h : offset / s.table.bytesPerCluster < l.length,
        c = l[offset / s.table.bytesPerCluster] ∧ t = s) ∨
      (l.length ≤ offset / s.table.bytesPerCluster ∧ c = 0 ∧ t = { s with errno := eoverflow }))

section Seek

variable {s : State} {l : List Nat} {start mark c k : Nat}

/-- A number that ends no chain is not the end-of-chain mark. -/
theorem ne_endOfChain (h : ¬ FatTableIsEoc c) : c ≠ fatClusterEndOfChain := fun heq => h (.inl heq)

/-- `fat_table_get_next_cluster` does not return 0. -/
theorem nextCluster_ne_zero (t : FatTable) (c : Nat) : t.nextCluster c ≠ 0 := by
  unfold FatTable.nextCluster
  split_ifs with hv
  · exact Nat.ne_of_gt (Nat.lt_of_lt_of_le Nat.two_pos hv.1)
  · decide

/-- The mark at the end of the chain. -/
theorem EndsAfter.isEoc (hl : EndsAfter s mark start l) : FatTableIsEoc mark := by
  induction l generalizing start with
  | nil =>
      obtain ⟨rfl, heoc⟩ := hl
      exact heoc
  | cons a l ih =>
      obtain ⟨-, -, d, -, hl⟩ := hl
      exact ih hl

/-- Inside the chain the loop finds the cluster. -/
theorem seekFrom_inside (hl : EndsAfter s mark start l) (hk : k < l.length) :
    seekFrom k start s = .ok l[k] s ∧ ¬ FatTableIsEoc l[k] := by
  induction l generalizing start k with
  | nil => exact absurd hk (Nat.not_lt_zero k)
  | cons a l ih =>
      obtain ⟨rfl, hne, d, hnext, hl⟩ := hl
      match k with
      | 0 => exact ⟨rfl, hne⟩
      | k + 1 =>
          rw [seekFrom, if_neg (ne_endOfChain hne), bind_ok hnext]
          exact ih hl (Nat.lt_of_succ_lt_succ hk)

/-- Behind the chain the loop goes on from the mark. -/
theorem seekFrom_length_add (hl : EndsAfter s mark start l) (k : Nat) :
    seekFrom (l.length + k) start s = seekFrom k mark s := by
  induction l generalizing start with
  | nil =>
      obtain ⟨rfl, -⟩ := hl
      rw [List.length_nil, Nat.zero_add]
  | cons a l ih =>
      obtain ⟨rfl, hne, d, hnext, hl⟩ := hl
      rw [List.length_cons, Nat.succ_add, seekFrom, if_neg (ne_endOfChain hne), bind_ok hnext]
      exact ih hl

/-- A loop that meets `0x0FFFFFF8` before its last step reports the end. -/
theorem seekFrom_of_meetsEnd (h : MeetsEnd s k c) : seekFrom k c s = .ok 0 { s with errno := eoverflow } := by
  induction k generalizing c with
  | zero => exact h.elim
  | succ k ih =>
      rw [seekFrom]
      split_ifs with hc
      · rfl
      · obtain ⟨d, hnext, hmeets⟩ := h.resolve_left hc
        rw [bind_ok hnext]
        exact ih hmeets

/-- The loop returns 0 only if it meets `0x0FFFFFF8` before its last step. -/
theorem meetsEnd_of_seekFrom {t : State} (hc : c ≠ 0) (hrun : seekFrom k c s = .ok 0 t) : MeetsEnd s k c := by
  induction k generalizing c with
  | zero =>
      cases hrun
      exact hc rfl
  | succ k ih =>
      by_cases heoc : c = fatClusterEndOfChain
      · exact .inl heoc
      · rw [seekFrom, if_neg heoc] at hrun
        obtain ⟨d, u, hnext, hrest⟩ := bind_eq_ok.mp hrun
        obtain ⟨rfl, hd, -⟩ := fatTableGetNextCluster_eq_ok hnext
        refine .inr ⟨d, hnext, ih ?_ hrest⟩
        rw [hd]
        exact nextCluster_ne_zero _ c

/-- The mark `0x0FFFFFF8` is met at once; from the other one the loop goes on only where the table has its entry. -/
theorem meetsEnd_mark (hmark : FatTableIsEoc mark) : MeetsEnd s k mark ↔
    0 < k ∧ (mark = fatClusterEndOfChain ∨ mark < s.table.fatLen ∧ MeetsEnd s k mark) := by
  cases k with
  | zero => exact iff_of_false id fun h => Nat.lt_irrefl 0 h.1
  | succ k =>
      constructor
      · intro h
        refine ⟨Nat.succ_pos k, ?_⟩
        obtain rfl | ⟨d, hnext, hmeets⟩ := h
        · exact .inl rfl
        · exact .inr ⟨(fatTableGetNextCluster_eq_ok hnext).2.2, .inr ⟨d, hnext, hmeets⟩⟩
      · rintro ⟨-, rfl | ⟨-, h⟩⟩
        · exact .inl rfl
        · exact h

/-- **A seek is right** inside the chain, and beyond the first cluster behind it if the chain ends in `0x0FFFFFF8`.
From `0x0FFFFFFF` it is right only where the table has entries that lead on from there to `0x0FFFFFF8`. -/
theorem seekRight_iff (hl : EndsAfter s mark start l) {offset : Nat}
    (hoffset : offset / s.table.bytesPerCluster < 2 ^ 32) :
    SeekRight l start offset s ↔ offset / s.table.bytesPerCluster < l.length ∨
      l.length < offset / s.table.bytesPerCluster ∧ (mark = fatClusterEndOfChain ∨
        mark < s.table.fatLen ∧ MeetsEnd s (offset / s.table.bytesPerCluster - l.length) mark) := by
  have hseek : fatTableSeekCluster start offset s =
      seekFrom (offset / s.table.bytesPerCluster) start s := by
    unfold fatTableSeekCluster
    rw [get_bind, FatTable.shiftRight_eq, Nat.mod_eq_of_lt hoffset]
  unfold SeekRight
  rw [hseek]
  generalize offset / s.table.bytesPerCluster = index
  rcases Nat.lt_or_ge index l.length with hlt | hge
  · obtain ⟨hrun, hne⟩ := seekFrom_inside hl hlt
    exact iff_of_true ⟨_, s, hrun, hne, .inl ⟨hlt, rfl, rfl⟩⟩ (.inl hlt)
  · obtain ⟨k, rfl⟩ := Nat.exists_eq_add_of_le hge
    rw [seekFrom_length_add hl, or_iff_right (Nat.not_lt_of_le hge), Nat.add_sub_cancel_left,
      Nat.lt_add_right_iff_pos, ← meetsEnd_mark hl.isEoc]
    constructor
    · rintro ⟨c, t, hrun, -, ⟨hlt, -⟩ | ⟨-, rfl, -⟩⟩
      · exact absurd hlt (Nat.not_lt_of_le hge)
      · refine meetsEnd_of_seekFrom ?_ hrun
        rintro rfl
        exact absurd hl.isEoc (by decide)
    · exact fun h => ⟨0, _, seekFrom_of_meetsEnd h, by decide, .inr ⟨hge, rfl, rfl⟩⟩

/-- A table whose number of clusters has wrapped, so that the mark `0x0FFFFFFF` of a chain passes as a cluster. -/
def wrappedTable : FatTable :=
  { smallTable.setEntry 3 fatClusterEndOfChain2 with numDataClusters := 2 ^ 32 - 32 }

/-- The fragmented chain runs through clusters 2, 6 and 3. -/
theorem endsAfter_fragmentedVolume : EndsAfter fragmentedVolume fatClusterEndOfChain 2 [2, 6, 3] :=
  ⟨rfl, by decide, 6, rfl, rfl, by decide, 3, rfl, rfl, by decide, fatClusterEndOfChain, rfl, rfl, .inl rfl⟩

/-- Where the cluster count wrapped, a chain ends in the other mark. -/
theorem endsAfter_wrappedTable (dev : Nat → UInt8) :
    EndsAfter (bareState wrappedTable dev []) fatClusterEndOfChain2 3 [3] :=
  ⟨rfl, by decide, fatClusterEndOfChain2, rfl, rfl, .inr rfl⟩

/-- In a chain of three clusters of 32 bytes, offset 70 is found and offset 128 is behind the end. Behind a chain
that ends in `0x0FFFFFFF` there is no right answer. -/
theorem seekRight_iff_fragmentedVolume : SeekRight [2, 6, 3] 2 70 fragmentedVolume ∧
    SeekRight [2, 6, 3] 2 128 fragmentedVolume ∧ ¬ SeekRight [2, 6, 3] 2 96 fragmentedVolume ∧
    ¬ SeekRight [3] 3 64 (bareState wrappedTable (fun _ => 0) []) := by
  refine ⟨?_, ?_, ?_, ?_⟩
  · exact (seekRight_iff endsAfter_fragmentedVolume (by decide)).mpr (.inl (by decide))
  · exact (seekRight_iff endsAfter_fragmentedVolume (by decide)).mpr (.inr ⟨by decide, .inl rfl⟩)
  · rw [seekRight_iff endsAfter_fragmentedVolume (by decide)]
    rintro (h | ⟨h, -⟩)
    · exact absurd h (by decide)
    · exact absurd h (by decide)
  · rw [seekRight_iff (endsAfter_wrappedTable _) (by decide)]
    rintro (h | ⟨-, h | ⟨h, -⟩⟩)
    · exact absurd h (by decide)
    · exact absurd h (by decide)
    · exact absurd h (by decide)

/-- The chain of the small volume is one cluster. -/
theorem endsAfter_smallVolume : EndsAfter smallVolume fatClusterEndOfChain 3 [3] :=
  ⟨rfl, by decide, fatClusterEndOfChain, rfl, rfl, .inl rfl⟩

/-- The file with a single cluster of 32 bytes is asked for the cluster of offset 32. -/
theorem not_forall_seekRight : ¬ ∀ (s : State) (start mark : Nat) (l : List Nat) (offset : Nat),
    EndsAfter s mark start l → offset / s.table.bytesPerCluster < 2 ^ 32 → SeekRight l start offset s := by
  intro hall
  obtain ⟨c, t, hrun, hne, -⟩ := hall smallVolume 3 fatClusterEndOfChain [3] 32 endsAfter_smallVolume (by decide)
  exact hne (by cases hrun; exact .inl rfl)

end Seek

/-! ## Searching for a free cluster -/

/-- The error number is not set to `ENOSPC`. -/
def NoNospc (s t : State) : Prop := s.errno ≠ enospc → t.errno ≠ enospc

instance : Std.Refl NoNospc := ⟨fun _ h => h⟩

instance : IsTrans State NoNospc := ⟨fun _ _ _ hst htu hs => htu (hst hs)⟩

section NoNospc

/-- A change that keeps the error number reports no lack of space. -/
theorem noNospc_modify {f : State → State} (h : ∀ s, (f s).errno = s.errno) :
    Within NoNospc (modify f : M PUnit) := by
  apply within_modify
  intro s hs
  rwa [h s]

/-- The clock reports no lack of space. -/
theorem noNospc_ask {γ : Type} (answer : Nat → γ) : Within NoNospc (ask answer) :=
  within_get_bind fun _ hs => hs

/-- Changing a file reports no lack of space. -/
theorem noNospc_updateFile (file : Nat) (f : FatFile → FatFile) :
    Within NoNospc (updateFile file f) :=
  (within_readFile file).bind fun _ => noNospc_modify fun _ => rfl

/-- Destroying a file reports no lack of space. -/
theorem noNospc_fatFileDestroy (file : Nat) : Within NoNospc (fatFileDestroy file) := by
  intro s hs
  cases hfile : s.files.cell file with
  | some x =>
      rw [fatFileDestroy_run hfile]
      exact hs
  | none =>
      have hdestroy : destroyFile file s.store = .error .doubleFree := by
        unfold destroyFile
        rw [show s.store.cell file = none from hfile]
      unfold fatFileDestroy liftTree modifyData
      rw [get_bind]
      simp only [hdestroy]
      exact hs

/-- Building a new entry reports no lack of space. -/
theorem noNospc_fatFileInitDirentry (env : Env) (isDir : Bool) (filepath : CString) (c : Nat) :
    Within NoNospc (fatFileInitDirentry env isDir filepath c) := by
  refine (noNospc_ask _).bind fun after => ?_
  cases filenameFromPath (basename filepath) after DirEntry.zero with
  | error e => exact within_throw _
  | ok entry => exact (noNospc_ask _).bind fun _ => within_pure _

/-- A failed write of an entry is reported as `EIO`, whatever its error number was. -/
theorem noNospc_fatTableSetNextCluster (c v : Nat) : Within NoNospc (fatTableSetNextCluster c v) := by
  intro s hs
  by_cases hk : s.nextCount 4 = 0
  · rw [fatTableSetNextCluster_unwritten hk]
    exact (by decide : eio ≠ enospc)
  by_cases hc : c < s.table.fatLen
  · rw [fatTableSetNextCluster_written hk hc]
    exact hs
  · rw [fatTableSetNextCluster_past hk (Nat.le_of_not_lt hc)]
    exact hs

end NoNospc

/-- The search finds the first free cluster, or returns the end-of-chain mark; the check of
`fat_file_init` that follows looks at an entry of the table, and the function reports `ENOSPC` if and
only if no cluster is free. -/
structure SearchRight (s : State) : Prop where
  smallest : fatTableGetNextFreeCluster s =
    .ok (s.table.freeClusters.head?.getD fatClusterEndOfChain) s
  checked : ∃ used, fatTableIsClusterUsed (s.table.freeClusters.head?.getD fatClusterEndOfChain) s =
    .ok used s ∧ (used = true ↔ s.table.freeClusters = [])
  reported : ∀ (env : Env) (isDir : Bool) (path : CString),
    (final (fatFileInit env isDir path { s with errno := 0 })).errno = enospc ↔
      s.table.freeClusters = []

section Search

variable {s : State}

/-- Without a free cluster the search leaves the table. -/
theorem fatTableGetNextFreeCluster_leaves (hlen : s.table.fatLen = s.table.numDataClusters + 2)
    (hu32 : s.table.numDataClusters + 2 < 2 ^ 32) (hfull : s.table.freeClusters = []) :
    fatTableGetNextFreeCluster s = .error .outOfBounds s := by
  unfold fatTableGetNextFreeCluster
  rw [get_bind]
  cases hscan : scanFree s.table (s.table.fatLen - 2) 2 with
  | error e =>
      rw [scanFree_error hscan]
      rfl
  | ok d =>
      obtain ⟨hle, hlt, hfree, -⟩ := scanFree_ok hscan
      have hvalid : s.table.IsValidClusterNumber d := by
        refine ⟨hle, ?_⟩
        rw [Nat.mod_eq_of_lt hu32]
        omega
      have hmem : d ∈ s.table.freeClusters :=
        List.mem_filter.mpr ⟨List.mem_range.mpr (by omega), by simpa using ⟨hvalid, hfree⟩⟩
      rw [hfull] at hmem
      cases hmem

/-- The first free cluster is found. -/
theorem fatTableGetNextFreeCluster_head {c : Nat}
    (hlen : s.table.fatLen = s.table.numDataClusters + 2)
    (hu32 : s.table.numDataClusters + 2 < 2 ^ 32) (hhead : s.table.freeClusters.head? = some c) :
    fatTableGetNextFreeCluster s = .ok c s ∧ fatTableIsClusterUsed c s = .ok false s := by
  have hmem := List.mem_filter.mp (List.mem_of_head? hhead)
  have hrange := List.mem_range.mp hmem.1
  obtain ⟨hvalid, hfree⟩ : s.table.IsValidClusterNumber c ∧ s.table.fatMap c = fatClusterFree := by
    simpa using hmem.2
  have htwo := hvalid.1
  obtain ⟨d, hrun, hle, hlt, hd, hmin⟩ :=
    scanFree_run (t := s.table) (s.table.fatLen - 2) (c := 2) ⟨c, htwo, by omega, hfree⟩
  have hdvalid : s.table.IsValidClusterNumber d := by
    refine ⟨hle, ?_⟩
    rw [Nat.mod_eq_of_lt hu32]
    omega
  have hdhead := freeClusters_head hdvalid (by omega) hd hmin
  obtain rfl : c = d := Option.some.inj (hhead.symm.trans hdhead)
  constructor
  · unfold fatTableGetNextFreeCluster
    rw [get_bind, hrun]
    exact (ite_run _ _ _ s).trans (if_pos hdvalid)
  · unfold fatTableIsClusterUsed
    rw [bind_ok (readEntry_run hrange), hfree]
    rfl

/-- With a free cluster `fat_file_init` does not report `ENOSPC`. -/
theorem fatFileInit_errno {c : Nat} (env : Env) (isDir : Bool) (path : CString)
    (hlen : s.table.fatLen = s.table.numDataClusters + 2)
    (hu32 : s.table.numDataClusters + 2 < 2 ^ 32) (hhead : s.table.freeClusters.head? = some c)
    (herrno : s.errno = 0) : (final (fatFileInit env isDir path s)).errno ≠ enospc := by
  have hgivesUp (file : Nat) : Within NoNospc (do fatFileDestroy file; pure none : M Ptr) :=
    (noNospc_fatFileDestroy file).bind fun _ => within_pure _
  unfold fatFileInit
  rw [bind_ok (fatFileInitEmpty_run path s)]
  obtain ⟨t, ht⟩ : ∃ t : State, t = { s with store := s.files.alloc (emptyFile path) } := ⟨_, rfl⟩
  have htable : t.table = s.table := by rw [ht]
  have hzero : t.errno = 0 := by rw [ht, herrno]
  rw [← ht, bind_ok (show getErrno t = .ok t.errno t from rfl), hzero, if_neg (by decide)]
  rw [← htable] at hlen hu32 hhead
  obtain ⟨hfree, hunused⟩ := fatTableGetNextFreeCluster_head hlen hu32 hhead
  rw [bind_ok hfree, bind_ok hunused, if_neg Bool.false_ne_true]
  refine (?_ : Within NoNospc _) t (by rw [hzero]; decide)
  refine (noNospc_fatFileInitDirentry env isDir path c).bind fun entry => ?_
  refine (noNospc_updateFile _ _).bind fun _ => ?_
  refine (noNospc_fatTableSetNextCluster _ _).bind fun _ => within_getErrno.bind fun _ => ?_
  exact within_ite (fun _ => hgivesUp _) fun _ => within_pure _

/-- **The free-cluster search is right** if and only if there is a free cluster. -/
theorem searchRight_iff (hlen : s.table.fatLen = s.table.numDataClusters + 2)
    (hu32 : s.table.numDataClusters + 2 < 2 ^ 32) : SearchRight s ↔
      ∃ c, s.table.IsValidClusterNumber c ∧ s.table.fatMap c = fatClusterFree := by
  have hvalid (c : Nat) : s.table.IsValidClusterNumber c ∧ s.table.fatMap c = fatClusterFree ↔
      c ∈ s.table.freeClusters := by
    unfold FatTable.freeClusters
    rw [List.mem_filter, List.mem_range, decide_eq_true_iff]
    constructor
    · intro h
      have hlt := h.1.2
      rw [Nat.mod_eq_of_lt hu32] at hlt
      exact ⟨by omega, h⟩
    · exact And.right
  simp only [hvalid]
  cases hfree : s.table.freeClusters with
  | nil =>
      refine iff_of_false (fun h => ?_) fun ⟨c, hc⟩ => List.not_mem_nil hc
      have hrun := h.smallest
      rw [fatTableGetNextFreeCluster_leaves hlen hu32 hfree] at hrun
      cases hrun
  | cons c rest =>
      have hhead : s.table.freeClusters.head? = some c := by rw [hfree, List.head?_cons]
      obtain ⟨hrun, hunused⟩ := fatTableGetNextFreeCluster_head hlen hu32 hhead
      have hne : s.table.freeClusters ≠ [] := by
        rw [hfree]
        exact List.cons_ne_nil c rest
      refine iff_of_true ⟨?_, ⟨false, ?_, ?_⟩, fun env isDir path => ?_⟩ ⟨c, List.mem_cons_self⟩
      · rw [hhead, Option.getD_some, hrun]
      · rw [hhead, Option.getD_some, hunused]
      · exact iff_of_false Bool.false_ne_true hne
      · refine iff_of_false ?_ hne
        exact fatFileInit_errno (s := { s with errno := 0 }) env isDir path hlen hu32 hhead rfl

/-- On the fragmented table the search finds the first of the two free clusters. -/
theorem searchRight_iff_fragmentedVolume : SearchRight fragmentedVolume ∧
    fatTableGetNextFreeCluster fragmentedVolume = .ok 4 fragmentedVolume := by
  have hright := (searchRight_iff (s := fragmentedVolume) rfl (by decide)).mpr ⟨7, by decide, by decide⟩
  exact ⟨hright, hright.smallest⟩

/-- On a full table the search reads behind the last entry. -/
theorem not_forall_searchRight : ¬ ∀ s : State, s.table.fatLen = s.table.numDataClusters + 2 →
    s.table.numDataClusters + 2 < 2 ^ 32 → SearchRight s := by
  intro hall
  have hright := hall (bareState { smallTable with fatMap := fun _ => 1 } (fun _ => 0) []) rfl
    (by decide)
  have hrun := hright.smallest
  rw [fatTableGetNextFreeCluster_leaves rfl (by decide) (by decide)] at hrun
  cases hrun

end Search

end OsLabs.Fat
