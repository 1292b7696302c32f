import OsLabs.Lib.Orbit
import OsLabs.Fat.Truncate
import OsLabs.Fat.ReadDirectory
import OsLabs.Fat.StaleErrno

/-! # Loops along the chains of any table

The entries of a table that was read from a damaged image are arbitrary: a chain may come back to one
of its clusters. Every start has an orbit all the same (`FatTable.exists_orbit`). The loops that free a
chain end on all tables, since they destroy the links they follow (`freeChain_frees`); the loop that
lists a directory ends if and only if the chain does (`listingEnds_iff`). -/

namespace OsLabs.Fat

/-! ## Orbits of a table -/

namespace FatTable

variable {t : FatTable}

/-- Every valid cluster has an orbit. -/
theorem exists_orbit {start : Nat} (hs : t.IsValidClusterNumber start) :
    ∃ l o', Orbit t.next (some start) l o' := by
  apply OsLabs.exists_orbit (Finset.range (t.numDataClusters + 2))
  · intro a b hab
    exact Finset.mem_range.mpr (Nat.lt_of_lt_of_le (next_eq_some hab).1.2 (Nat.mod_le _ _))
  · exact Finset.mem_range.mpr (Nat.lt_of_lt_of_le hs.2 (Nat.mod_le _ _))

/-- If every valid number has an entry, the valid numbers are the clusters. -/
theorem Wf.isCluster_of_isValid (ht : t.Wf) (hlen : t.numDataClusters + 2 ≤ t.fatLen) {cluster : Nat}
    (h : t.IsValidClusterNumber cluster) : t.IsCluster cluster :=
  (ht.isCluster_iff cluster).mpr ⟨h, Nat.lt_of_lt_of_le (Nat.lt_of_lt_of_le h.2 (Nat.mod_le _ _)) hlen⟩

/-- From a valid number only valid numbers are reached. -/
theorem valid_of_reaches {a b : Nat} (ha : t.IsValidClusterNumber a) (h : ReachesBy t.next a b) :
    t.IsValidClusterNumber b := by
  induction h with
  | refl => exact ha
  | tail _ hbc _ => exact (next_eq_some hbc).1

/-- The numbers on the way from a valid one are valid. -/
theorem valid_of_orbit {start : Nat} {l : List Nat} {o' : Option Nat}
    (hs : t.IsValidClusterNumber start) (h : Orbit t.next (some start) l o') {c : Nat}
    (hc : c ∈ l) : t.IsValidClusterNumber c :=
  valid_of_reaches hs (h.walk.reaches hc)

end FatTable

/-! ## Freeing -/

section Free

variable {s : State} {l m : List Nat} {start : Nat}

/-- Freeing two runs of clusters is freeing one and then the other. -/
theorem freed_append (s : State) (l m : List Nat) : s.freed (l ++ m) = (s.freed l).freed m := by
  induction l generalizing s with
  | nil => rfl
  | cons c l ih => exact ih (s.linked c fatClusterFree)

/-- The freeing loop along a walk. -/
theorem freeChainFrom_walk (hio : s.IoOk) {cur : Nat} {o' : Option Nat}
    (hl : Walk s.table.next (FatTable.cluster? cur) l o') (hnodup : l.Nodup)
    (hv : ∀ c ∈ l, s.table.IsCluster c) (fuel : Nat) :
    ∃ last, FatTable.cluster? last = o' ∧
      freeChainFrom (l.length + fuel) cur s = freeChainFrom fuel last (s.freed l) := by
  induction l generalizing s cur with
  | nil =>
      refine ⟨cur, hl, ?_⟩
      rw [List.length_nil, Nat.zero_add]
      rfl
  | cons c l ih =>
      obtain ⟨hcur, hl⟩ := hl
      obtain ⟨-, rfl⟩ := FatTable.cluster?_eq_some.mp hcur
      rw [List.nodup_cons] at hnodup
      have hc := hv cur List.mem_cons_self
      -- the rest of the walk does not depend on the entry set
      have hl' : Walk (s.linked cur fatClusterFree).table.next
          (FatTable.cluster? (s.table.nextCluster cur)) l o' := by
        apply hl.congr
        intro a ha
        apply FatTable.next_setEntry_ne
        rintro rfl
        exact hnodup.1 ha
      obtain ⟨last, hlast, hrest⟩ := ih (s := s.linked cur fatClusterFree) (hio.linked cur _) hl'
        hnodup.2 fun d hd => hv d (List.mem_cons_of_mem cur hd)
      refine ⟨last, hlast, ?_⟩
      rw [List.length_cons, show l.length + 1 + fuel = (l.length + fuel) + 1 by omega,
        freeChainFrom, if_neg hc.not_isEoc, Cmd.bind_ok (fatTableGetNextCluster_run hc.lt_fatLen),
        Cmd.bind_ok (fatTableSetNextCluster_run hio hc.lt_fatLen hc.four_mul_lt _)]
      exact hrest

/-- The freeing loop on any table: when the orbit comes back to a cluster, that cluster has been freed
before, and it is freed once more. -/
theorem freeChainFrom_orbit (ht : s.table.LaidOut) (hio : s.IoOk) (hs : ¬ FatTableIsEoc start)
    {o' : Option Nat} (hl : Orbit s.table.next (some start) l o')
    (hv : ∀ c ∈ l, s.table.IsCluster c) {fuel : Nat}
    (hfuel : (l ++ o'.toList).length < fuel) :
    freeChainFrom fuel start s = .ok ⟨⟩ (s.freed (l ++ o'.toList)) := by
  have hset := entriesSet_freed ht hio hv
  have hwalk := hl.walk
  rw [List.length_append] at hfuel
  rw [← FatTable.cluster?_of_not_isEoc hs] at hwalk
  obtain ⟨last, hlast, hrun⟩ := freeChainFrom_walk hio hwalk hl.nodup hv (fuel - l.length)
  rw [show l.length + (fuel - l.length) = fuel by omega] at hrun
  rw [hrun, freed_append]
  apply freeChainFrom_run hset.ioOk
  · intro c hc
    rw [hset.sameVolume.isCluster_iff]
    exact hv c (hl.back c (Option.mem_toList.mp hc))
  · rw [hlast]
    cases o' with
    | none => rfl
    | some c =>
        refine ⟨rfl, FatTable.next_eq_none (.inr ?_)⟩
        -- the entry of the cluster is free by now, and is read as the end of the chain
        rw [fatMap_freed (s := s) (hl.back c rfl)]
        rintro ⟨h2, -⟩
        exact absurd h2 (by decide)
  · omega

/-- The rounds of the freeing loop fit the bound of the model. -/
theorem length_orbit_lt {o' : Option Nat} (hl : Orbit s.table.next (some start) l o')
    (hv : ∀ c ∈ l, s.table.IsCluster c) :
    (l ++ o'.toList).length < (s.io.length + 1) * (s.table.fatLen + 2) := by
  have hlen := FatTable.length_le_fatLen (fun c hc => (hv c hc).lt_fatLen) hl.nodup
  have hone := Option.length_toList_le (o := o')
  have hmul : s.table.fatLen + 2 ≤ (s.io.length + 1) * (s.table.fatLen + 2) :=
    Nat.le_mul_of_pos_left _ (Nat.succ_pos _)
  rw [List.length_append]
  omega

/-- Freeing an orbit frees its clusters, the one where it closes twice. -/
theorem freeChain_orbit (ht : s.table.LaidOut) (hio : s.IoOk) (hs : ¬ FatTableIsEoc start)
    {o' : Option Nat} (hl : Orbit s.table.next (some start) l o') (hv : ∀ c ∈ l, s.table.IsCluster c) :
    freeChain start s = .ok ⟨⟩ (s.freed (l ++ o'.toList)) := by
  unfold freeChain
  rw [Cmd.get_bind]
  exact freeChainFrom_orbit ht hio hs hl hv (length_orbit_lt hl hv)

end Free

/-! ## Truncating -/

section Never

/-- Reading a file comes to an end. -/
theorem never_readFile (file : Nat) : Cmd.Never .diverges (readFile file) := by
  refine Cmd.never_get.bind fun s => ?_
  split
  · exact Cmd.never_pure _
  · exact Cmd.never_throw (by decide)

/-- Reading an entry comes to an end. -/
theorem never_readDentry (file : Nat) : Cmd.Never .diverges (readDentry file) := by
  refine (never_readFile file).bind fun f => ?_
  split
  · exact Cmd.never_pure _
  · exact Cmd.never_throw (by decide)

/-- Changing an entry comes to an end. -/
theorem never_updateDentry (file : Nat) (f : DirEntry → DirEntry) :
    Cmd.Never .diverges (updateDentry file f) :=
  (never_readDentry file).bind fun _ => (never_readFile file).bind fun _ => Cmd.never_modify _

/-- Stamping the time comes to an end. -/
theorem never_fillDentryTimeNow (env : Env) (file : Nat) (fillCreate fillModified : Bool) :
    Cmd.Never .diverges (fillDentryTimeNow env file fillCreate fillModified) := by
  have hask : Cmd.Never .diverges (ask env.time) :=
    Cmd.never_get.bind fun _ => (Cmd.never_set _).bind fun _ => Cmd.never_pure _
  exact hask.bind fun _ => never_updateDentry file _

/-- A device call comes to an end. -/
theorem never_pwrite (data : List UInt8) (offset : Nat) : Cmd.Never .diverges (pwrite data offset) := by
  have hnext : Cmd.Never .diverges nextIoResult := by
    refine Cmd.never_get.bind fun s => ?_
    split
    · exact Cmd.never_pure _
    · exact (Cmd.never_set _).bind fun _ => Cmd.never_pure _
  refine hnext.bind fun r => ?_
  cases r with
  | full => exact (Cmd.never_modify _).bind fun _ => Cmd.never_pure _
  | short k => exact (Cmd.never_modify _).bind fun _ => Cmd.never_pure _
  | fail e =>
      exact (Cmd.never_modify _).bind fun _ => (Cmd.never_modify _).bind fun _ => Cmd.never_pure _

/-- `write_dir_entry` comes to an end. -/
theorem never_writeDirEntry (parent : Ptr) (childDiskEntry : DirEntry) (nentry : Nat) :
    Cmd.Never .diverges (writeDirEntry parent childDiskEntry nentry) := by
  have hparent : Cmd.Never .diverges (nonNull parent) := by
    cases parent with
    | none => exact Cmd.never_throw (by decide)
    | some p => exact Cmd.never_pure p
  refine hparent.bind fun p => (never_readFile p).bind fun _ => Cmd.never_get.bind fun s => ?_
  apply Cmd.never_ite
  · exact Cmd.never_modify _
  · exact (never_pwrite _ _).bind fun _ => Cmd.never_when (Cmd.never_modify _)

/-- `fat_table_get_next_cluster` comes to an end. -/
theorem never_fatTableGetNextCluster (cluster : Nat) :
    Cmd.Never .diverges (fatTableGetNextCluster cluster) := by
  have hread : Cmd.Never .diverges (readEntry cluster) :=
    Cmd.never_get.bind fun s => Cmd.never_ite (Cmd.never_pure _) (Cmd.never_throw (by decide))
  exact hread.bind fun _ => Cmd.never_get.bind fun _ => Cmd.never_pure _

/-- `fat_table_seek_cluster` comes to an end: its rounds are counted. -/
theorem never_seekFrom (n cluster : Nat) : Cmd.Never .diverges (seekFrom n cluster) := by
  induction n generalizing cluster with
  | zero => exact Cmd.never_pure cluster
  | succ n ih =>
      rw [seekFrom]
      apply Cmd.never_ite
      · exact (Cmd.never_modify _).bind fun _ => Cmd.never_pure _
      · exact (never_fatTableGetNextCluster cluster).bind fun next => ih next

end Never

section Truncate

variable {s : State}

/-- The freeing loop ends from every cluster that `fat_table_get_next_cluster` returns. -/
theorem freeChain_nextCluster (ht : s.table.Wf) (hlen : s.table.numDataClusters + 2 ≤ s.table.fatLen)
    (hio : s.IoOk) {t : FatTable}
    (hv : s.table.SameVolume t) (cluster : Nat) :
    ∃ s', freeChain (t.nextCluster cluster) s = .ok ⟨⟩ s' := by
  unfold FatTable.nextCluster
  split_ifs with hnext
  · rw [hv.isValid_iff] at hnext
    obtain ⟨l, o', hl⟩ := FatTable.exists_orbit hnext
    exact ⟨_, freeChain_orbit ht.toLaidOut hio (ht.isCluster_of_isValid hlen hnext).not_isEoc hl fun c hc =>
      ht.isCluster_of_isValid hlen (FatTable.valid_of_orbit hnext hl hc)⟩
  · exact ⟨_, freeChain_run (l := []) hio (by simp) (FatTable.cluster?_eq_none.mpr (.inl rfl))⟩

/-- `fat_file_truncate` ends on every table. -/
theorem fatFileTruncate_ne_diverges (ht : s.table.Wf) (hlen : s.table.numDataClusters + 2 ≤ s.table.fatLen)
    (hio : s.IoOk) (env : Env) (file offset : Nat) (parent : Ptr) (s' : State) :
    fatFileTruncate env file offset parent s ≠ .error .diverges s' := by
  intro h
  unfold fatFileTruncate at h
  rcases Cmd.bind_eq_error.mp h with h₁ | ⟨entry, s₁, hentry, h₁⟩
  · exact never_readDentry file _ _ h₁
  obtain ⟨rfl, -⟩ := readDentry_eq_ok hentry
  rw [Cmd.get_bind, Cmd.ite_run] at h₁
  split at h₁
  · cases h₁
  rcases Cmd.bind_eq_error.mp h₁ with h₂ | ⟨f, s₂, hf, h₂⟩
  · exact never_readFile file _ _ h₂
  obtain ⟨rfl, -⟩ := readFile_eq_ok hf
  rcases Cmd.bind_eq_error.mp h₂ with h₃ | ⟨lastCluster, s₃, hseek, h₃⟩
  · exact never_seekFrom _ _ _ _ h₃
  -- the search for the last cluster changes `errno` at most
  have hsame : s₃.table = s₂.table ∧ s₃.io = s₂.io := by
    have hrun := seekFrom_eq (positionsOf s₂.table offset) f.startCluster s₂
    have hseek' : seekFrom (positionsOf s₂.table offset) f.startCluster s₂ = .ok lastCluster s₃ := hseek
    rw [hrun] at hseek'
    split at hseek' <;> cases hseek' <;> exact ⟨rfl, rfl⟩
  have ht₃ : s₃.table.Wf ∧ s₃.table.numDataClusters + 2 ≤ s₃.table.fatLen := by
    rw [hsame.1]
    exact ⟨ht, hlen⟩
  have hio₃ : s₃.IoOk := by
    intro r hr
    rw [hsame.2] at hr
    exact hio r hr
  rw [Cmd.bind_ok (getErrno_run s₃), Cmd.ite_run] at h₃
  split at h₃
  · cases h₃
  rcases Cmd.bind_eq_error.mp h₃ with h₄ | ⟨next, s₄, hnext, h₄⟩
  · exact never_fatTableGetNextCluster _ _ _ h₄
  by_cases hlt : lastCluster < s₃.table.fatLen
  · rw [fatTableGetNextCluster_run hlt] at hnext
    cases hnext
    have hle := ht₃.1.fatLen_le_eoc
    simp only [fatClusterEndOfChain] at hle
    rw [Cmd.bind_ok (fatTableSetNextCluster_run hio₃ hlt (by omega) _),
      Cmd.bind_ok (getErrno_run _), Cmd.ite_run] at h₄
    split at h₄
    · cases h₄
    obtain ⟨s₅, hfree⟩ := freeChain_nextCluster (s := s₃.linked lastCluster fatClusterEndOfChain)
      (ht₃.1.setEntry _ _) ht₃.2 (hio₃.linked _ _) (t := s₃.table) rfl lastCluster
    rw [Cmd.bind_ok hfree] at h₄
    -- behind the loop there is only the update of the directory entry
    refine absurd h₄ (Cmd.Never.bind (never_updateDentry file _) (fun _ => ?_) _ _)
    refine (never_fillDentryTimeNow env file _ _).bind fun _ => ?_
    refine (never_readFile file).bind fun f => ?_
    exact (never_readDentry file).bind fun entry => never_writeDirEntry parent entry _
  · -- the chain has ended where the file should go on: its end mark has no entry
    have hout : fatTableGetNextCluster lastCluster s₃ = .error .outOfBounds s₃ := by
      apply Cmd.bind_error
      exact (Cmd.ite_run _ _ _ s₃).trans (if_neg hlt)
    rw [hout] at hnext
    cases hnext

end Truncate

/-! ## What the freeing loops free -/

/-- The loop that frees a chain ends on every table. It makes one round for each cluster that can be
reached, and one more if the chain comes back. Exactly the entries of these clusters are free
afterwards, in memory and on the device. The loop of a truncation ends, too. -/
theorem freeChain_frees {s : State} (ht : s.table.Wf) (hlen : s.table.numDataClusters + 2 ≤ s.table.fatLen)
    (hio : s.IoOk) {start : Nat} (hs : s.table.IsValidClusterNumber start) :
    (∃ s', freeChain start s = .ok ⟨⟩ s' ∧
      freeChainFrom ({c | ReachesBy s.table.next start c}.ncard + 2) start s = .ok ⟨⟩ s' ∧
      ((∃ l, Chain s.table.next (some start) l) →
        freeChainFrom ({c | ReachesBy s.table.next start c}.ncard + 1) start s = .ok ⟨⟩ s') ∧
      (∀ c, ReachesBy s.table.next start c →
        s'.table.fatMap c = fatClusterFree ∧ s'.diskEntry c = le32Bytes fatClusterFree) ∧
      ∀ c, ¬ ReachesBy s.table.next start c →
        s'.table.fatMap c = s.table.fatMap c ∧ s'.diskEntry c = s.diskEntry c) ∧
    ∀ (env : Env) (file offset : Nat) (parent : Ptr) (s' : State),
      fatFileTruncate env file offset parent s ≠ .error .diverges s' := by
  refine ⟨?_, fatFileTruncate_ne_diverges ht hlen hio⟩
  -- The orbit of the start: its nodes, and the one where it comes back, if it does.
  obtain ⟨l, o', hl⟩ := FatTable.exists_orbit hs
  have hvalid {c : Nat} (h : ReachesBy s.table.next start c) : s.table.IsCluster c :=
    ht.isCluster_of_isValid hlen (FatTable.valid_of_reaches hs h)
  have hstart : ¬ FatTableIsEoc start := (ht.isCluster_of_isValid hlen hs).not_isEoc
  -- Every node of the orbit has an entry in the table.
  have hv : ∀ c ∈ l, s.table.IsCluster c := fun c hc => hvalid (hl.walk.reaches hc)
  have hone := Option.length_toList_le (o := o')
  have hmem : ∀ c, c ∈ l ++ o'.toList ↔ ReachesBy s.table.next start c := by
    intro c
    rw [List.mem_append, hl.mem_iff c, Option.mem_toList]
    constructor
    · rintro (hc | hc)
      · exact hc
      · exact (hl.mem_iff c).mp (hl.back c hc)
    · exact .inl
  have hset := entriesSet_freed (l := l ++ o'.toList) ht.toLaidOut hio fun c hc => hvalid ((hmem c).mp hc)
  rw [hl.ncard_eq]
  refine ⟨s.freed (l ++ o'.toList), freeChain_orbit ht.toLaidOut hio hstart hl hv, ?_, ?_, ?_, ?_⟩
  -- A chain that comes back takes one more round, at the node freed already.
  · apply freeChainFrom_orbit ht.toLaidOut hio hstart hl hv
    rw [List.length_append]
    omega
  · intro hchain
    obtain rfl := hl.chain_iff.mp hchain
    apply freeChainFrom_orbit ht.toLaidOut hio hstart hl hv
    rw [Option.toList_none, List.append_nil]
    omega
  · intro c hc
    have hfree := fatMap_freed (s := s) ((hmem c).mpr hc)
    refine ⟨hfree, ?_⟩
    rw [hset.stored c ((hmem c).mpr hc), hfree]
  · intro c hc
    have hc' : c ∉ l ++ o'.toList := fun h => hc ((hmem c).mp h)
    exact ⟨hset.fatMap c hc', hset.kept c hc'⟩

/-- The table of a damaged image: the chain of the directory comes back to its only cluster. -/
def loopTable : FatTable := smallTable.setEntry 2 2

/-- The damaged table has the layout of a good one. -/
theorem loopTable_wf : loopTable.Wf := smallTable_wf.setEntry 2 2

/-- The orbit of the damaged chain closes at once. -/
theorem loopTable_orbit : Orbit loopTable.next (some 2) [2] (some 2) where
  walk := by
    constructor
    · rfl
    · show loopTable.next 2 = some 2
      decide
  nodup := List.nodup_singleton 2
  back := by
    rintro b hb
    cases hb
    exact List.mem_singleton_self 2

/-- The small volume with the damaged table. -/
def loopVolume : State := { smallVolume with table := loopTable }

/-- The loop on itself takes two rounds: the second one frees the cluster again. -/
theorem freeChain_frees_loopVolume :
    (∃ s', freeChain 2 loopVolume = .ok ⟨⟩ s' ∧ s'.table.fatMap 2 = fatClusterFree ∧
      ∀ c, c ≠ 2 → s'.table.fatMap c = loopTable.fatMap c) ∧
    ∀ s', fatFileTruncate quietEnv 1 0 (some 0) loopVolume ≠ .error .diverges s' := by
  have hio : loopVolume.IoOk := by
    rintro r hr
    cases hr
  have hstart : loopTable.IsValidClusterNumber 2 := by decide
  obtain ⟨⟨s', hrun, -, -, hfree, hkept⟩, htrunc⟩ := freeChain_frees loopTable_wf (by decide) hio hstart
  refine ⟨⟨s', hrun, (hfree 2 Relation.ReflTransGen.refl).1, ?_⟩, htrunc quietEnv 1 0 (some 0)⟩
  intro c hc
  refine (hkept c fun hreach => hc ?_).1
  exact List.mem_singleton.mp ((loopTable_orbit.mem_iff c).mpr hreach)

/-- The loop may make more rounds than there are clusters that can be reached. -/
theorem not_forall_freeChain_rounds :
    ¬ ∀ (s : State) (start : Nat), s.table.Wf → s.IoOk → s.table.IsValidClusterNumber start →
      ∃ s', freeChainFrom ({c | ReachesBy s.table.next start c}.ncard + 1) start s = .ok ⟨⟩ s' := by
  intro h
  obtain ⟨s', hrun⟩ := h loopVolume 2 loopTable_wf (by rintro r hr; cases hr) (by decide)
  have hcard : {c | ReachesBy loopVolume.table.next 2 c}.ncard = 1 := loopTable_orbit.ncard_eq
  rw [hcard] at hrun
  cases hrun

/-! ## Listing -/

/-- The clusters that the first rounds of a loop along a chain are about, when it starts at `cluster`. -/
def roundClusters (t : FatTable) : Nat → Nat → List Nat
  | 0, _ => []
  | rounds + 1, cluster =>
      if FatTableIsEoc cluster then [] else cluster :: roundClusters t rounds (t.nextCluster cluster)

/-- The loop of `fat_file_read_children` ends after some rounds with a list of children, and no two of
these rounds read the same cluster. -/
def ListingEnds (env : Env) (dir : Nat) (s : State) (start : Nat) : Prop :=
  ∃ rounds children s',
    readChildrenFrom env dir (rounds + 1) start [] s = .ok (some children) s' ∧
      (roundClusters s.table rounds start).Nodup

section Listing

variable {s : State} {dir : Nat} {x : FatFile} {l : List Nat}

/-- Along a chain, the rounds are about its clusters. -/
theorem roundClusters_chain {t : FatTable} {cur : Nat} (hl : Chain t.next (FatTable.cluster? cur) l) :
    roundClusters t l.length cur = l := by
  induction l generalizing cur with
  | nil => rfl
  | cons c l ih =>
      obtain ⟨hcur, hl⟩ := hl
      obtain ⟨heoc, rfl⟩ := FatTable.cluster?_eq_some.mp hcur
      rw [List.length_cons, roundClusters, if_neg heoc, ih hl]

/-- If the loop returns at all, the chain ends and lies in the table. -/
theorem chain_of_readChildrenFrom (env : Env) (hio : s.IoOk) (hx : s.files.cell dir = some x)
    {fuel cur : Nat} {elems : List Nat} {r : Option (List Nat)} {s' : State}
    (h : readChildrenFrom env dir fuel cur elems s = .ok r s') :
    ∃ l, Chain s.table.next (FatTable.cluster? cur) l ∧ ∀ c ∈ l, c < s.table.fatLen := by
  induction fuel generalizing s x cur elems with
  | zero => cases h
  | succ fuel ih =>
      by_cases heoc : FatTableIsEoc cur
      · exact ⟨[], FatTable.cluster?_eq_none.mpr heoc, by simp⟩
      · obtain ⟨cs, s₂, b, hround, hcell, hlist⟩ := readChildrenFrom_round env hio heoc hx fuel elems
        rw [hround] at h
        obtain ⟨next, s₃, hnext, h⟩ := Cmd.bind_eq_ok.mp h
        obtain ⟨rfl, rfl, hlt⟩ := fatTableGetNextCluster_eq_ok hnext
        -- the rest of the rounds walks along the same table
        obtain ⟨l, hl, hin⟩ := ih (s := s₃) hlist.ioOk hcell h
        rw [hlist.table] at hl hin hlt
        exact ⟨cur :: l, ⟨FatTable.cluster?_of_not_isEoc heoc, hl⟩, List.forall_mem_cons.mpr ⟨hlt, hin⟩⟩

/-- The listing of a directory ends if and only if its chain does and has all its entries in the table: on a
chain that comes back the loop goes round for ever, and behind the table it reads what is not there. -/
theorem listingEnds_iff (env : Env) (hio : s.IoOk) (hx : s.files.cell dir = some x) (start : Nat) :
    ListingEnds env dir s start ↔
      ∃ l, Chain s.table.next (FatTable.cluster? start) l ∧ ∀ c ∈ l, c < s.table.fatLen := by
  constructor
  · rintro ⟨rounds, children, s', hrun, -⟩
    exact chain_of_readChildrenFrom env hio hx hrun
  · rintro ⟨l, hl, hin⟩
    obtain ⟨cs, s', n, b, hrun, -⟩ := readChildrenFrom_run env hio hl hin (Nat.lt_succ_self l.length) hx []
    refine ⟨l.length, [] ++ cs, s', hrun, ?_⟩
    rw [roundClusters_chain hl]
    exact hl.nodup

/-- The root directory of the fragmented volume has a chain of three clusters. -/
theorem listingEnds_iff_fragmentedVolume : ListingEnds quietEnv 0 fragmentedVolume 2 := by
  have h2 : fragmentedVolume.table.next 2 = some 6 := by decide
  have h6 : fragmentedVolume.table.next 6 = some 3 := by decide
  have h3 : fragmentedVolume.table.next 3 = none := by decide
  refine (listingEnds_iff quietEnv (by rintro r hr; cases hr) rfl 2).mpr ⟨[2, 6, 3], ⟨rfl, h2, h6, h3⟩, by decide⟩

/-- On the damaged image the listing of the root directory does not end. -/
theorem not_forall_listingEnds :
    ¬ ∀ (env : Env) (s : State) (dir : Nat) (x : FatFile), s.table.Wf → s.IoOk →
      s.files.cell dir = some x → s.table.IsValidClusterNumber x.startCluster →
      ListingEnds env dir s x.startCluster := by
  intro h
  have hio : loopVolume.IoOk := by
    rintro r hr
    cases hr
  obtain ⟨rounds, children, s', hrun, -⟩ := h quietEnv loopVolume 0
    (fileAt 2 fileAttributeDirectory rootPath) loopTable_wf hio rfl (by decide)
  obtain ⟨l, hl, -⟩ := chain_of_readChildrenFrom quietEnv hio rfl hrun
  cases loopTable_orbit.chain_iff.mp ⟨l, hl⟩

end Listing

end OsLabs.Fat
