import OsLabs.Fat.FileSpec
import OsLabs.Fat.Transfer
import OsLabs.Fat.WriteLoop

/-! # Reading a file

`fat_file_pread` on a working device. Each round of its loop reads the rest of one cluster,
or of what was asked for (`preadLoop_round`), so that the loop fills the buffer with a slice of the
chain (`preadLoop_run`); `fatFilePread_slice` says it of the whole call. -/

namespace OsLabs.Fat

/-! ## Reading a range of a chain -/

/-- From `s` to `s'`, the `n` bytes of the chain `l` from `off` on were read to `mem` from `pos` on,
and nothing else changed. -/
structure BytesRead (l : List Nat) (mem mem' : Int → UInt8) (pos off n : Nat) (s s' : State) : Prop where
  frame : s' = { s with io := s'.io }
  ioOk : s'.IoOk
  loaded : ∀ j < n, mem' ((pos + j : Nat) : Int) = s.dev.byte (filePos s.table l (off + j))
  kept : ∀ i : Int, i < pos ∨ pos + n ≤ i → mem' i = mem i

namespace BytesRead

variable {l : List Nat} {mem mem' mem'' : Int → UInt8} {pos off n m : Nat} {s s' s'' : State}

/-- Reading bytes leaves the FAT alone. -/
theorem table (h : BytesRead l mem mem' pos off n s s') : s'.table = s.table := by rw [h.frame]

/-- Reading bytes writes nothing to the device. -/
theorem dev (h : BytesRead l mem mem' pos off n s s') : s'.dev = s.dev := by rw [h.frame]

/-- No bytes are read between a state and itself. -/
theorem zero (l : List Nat) (mem : Int → UInt8) (pos off : Nat) (hio : s.IoOk) :
    BytesRead l mem mem pos off 0 s s :=
  ⟨rfl, hio, fun j hj => absurd hj (Nat.not_lt_zero j), fun _ _ => rfl⟩

/-- Two adjacent ranges read one after the other. -/
theorem append (h : BytesRead l mem mem' pos off n s s')
    (h' : BytesRead l mem' mem'' (pos + n) (off + n) m s' s'') :
    BytesRead l mem mem'' pos off (n + m) s s'' where
  frame := by
    rw [h'.frame, h.frame]
  ioOk := h'.ioOk
  loaded j hj := by
    by_cases hjn : j < n
    · rw [h'.kept _ (.inl (by omega)), h.loaded j hjn]
    · have := h'.loaded (j - n) (by omega)
      rwa [h.table, h.dev, show off + n + (j - n) = off + j by omega,
        show pos + n + (j - n) = pos + j by omega] at this
  kept i hi := by
    rw [h'.kept i (by omega), h.kept i (by omega)]

end BytesRead

/-! ## One round -/

/-- A `full_pread` on a working device reads everything it is asked for. -/
theorem fullPread_run {s : State} (hio : s.IoOk) (mem : Int → UInt8) {count : Nat} (hpos : 0 < count)
    (offset : Nat) : ∃ mem', fullPread mem count offset s =
      .ok ((count : Int), mem') { s with io := s.io.tail } ∧ Loaded s 0 offset count mem mem' := by
  obtain ⟨mem', hrun, hloaded⟩ := fullPreadLoop_full (s := s) mem 0 s.io.length (Nat.ne_of_gt hpos)
    (preadAt_full count offset (nextIoResult_run hio)) rfl
  refine ⟨mem', ?_, hloaded⟩
  unfold fullPread
  rw [Cmd.get_bind, ← Nat.cast_zero, Cmd.bind_ok hrun]
  show EStateM.Result.ok ((count : Int) - 0, mem') _ = _
  rw [Int.sub_zero]

section Round

variable {s : State} {l : List Nat} {rem off a : Nat}

/-- A round of the loop reads the rest of a cluster, or of what was asked for. -/
theorem preadLoop_round (mem : Int → UInt8) (fuel pos : Nat) (hio : s.IoOk) (hrem : 0 < rem)
    (heoc : ¬ FatTableIsEoc a) (hlt : a < s.table.fatLen) (ha : l[off / s.table.bytesPerCluster]? = some a) :
    ∃ mem' s', BytesRead l mem mem' pos off (chunkLength s.table rem off) s s' ∧
      preadLoop (fuel + 1) mem pos rem off a s =
        preadLoop fuel mem' (pos + chunkLength s.table rem off) (rem - chunkLength s.table rem off)
          (off + chunkLength s.table rem off) (s.table.nextCluster a) s' := by
  have hchunk := chunkLength_pos s.table hrem off
  obtain ⟨chunk, hrun, hloaded⟩ := fullPread_run hio (fun i => mem (pos + i)) hchunk
    (s.table.clusterOffset a + off % s.table.bytesPerCluster)
  refine ⟨fun i => chunk (i - pos), { s with io := s.io.tail }, ⟨rfl, hio.tail rfl, ?_, ?_⟩, ?_⟩
  · intro j hj
    have hlt : j < s.table.bytesPerCluster - off % s.table.bytesPerCluster :=
      Nat.lt_of_lt_of_le hj (Nat.min_le_left _ _)
    rw [hloaded, if_pos ⟨by omega, by omega⟩, filePos_add ha hlt]
    congr 1
    omega
  · intro i hi
    rw [hloaded, if_neg (by omega)]
    exact congrArg mem (show (pos : Int) + (i - pos) = i by omega)
  · have hne : a ≠ fatClusterEndOfChain := fun heq => heoc (.inl heq)
    have hnext := fatTableGetNextCluster_run (s := { s with io := s.io.tail }) hlt
    rw [preadLoop, if_neg (by omega), if_neg hne, Cmd.get_bind, clusterRemainingBytes_eq,
      FatTable.maskOffset_eq, Cmd.bind_ok hrun]
    dsimp only
    rw [if_neg (by omega), Cmd.bind_ok hnext]

end Round

/-! ## Along the chain -/

/-- The loop reads what it is asked for as long as it lies inside the chain. -/
theorem preadLoop_run {s : State} {l : List Nat} (mem : Int → UInt8) {fuel : Nat} (pos : Nat)
    {rem off a : Nat} (hio : s.IoOk) (heoc : ∀ c ∈ l, ¬ FatTableIsEoc c)
    (hin : ∀ c ∈ l, c < s.table.fatLen) {o : Option Nat} (hl : Chain s.table.next o l)
    (ha : rem = 0 ∨ l[off / s.table.bytesPerCluster]? = some a)
    (hlen : rem = 0 ∨ off + rem ≤ l.length * s.table.bytesPerCluster) (hfuel : rem < fuel) :
    ∃ mem' s', BytesRead l mem mem' pos off rem s s' ∧
      preadLoop fuel mem pos rem off a s = .ok (0, mem') s' := by
  -- every round reads at least one byte
  induction fuel generalizing s mem pos rem off a with
  | zero => cases hfuel
  | succ fuel ih =>
      rcases Nat.eq_zero_or_pos rem with rfl | hrem
      · exact ⟨mem, s, .zero l mem pos off hio, by rw [preadLoop, if_pos rfl]; rfl⟩
      · have ha' := ha.resolve_left (Nat.ne_of_gt hrem)
        have hlen' := hlen.resolve_left (Nat.ne_of_gt hrem)
        obtain ⟨hk, hak⟩ := List.getElem?_eq_some_iff.mp ha'
        have hmem : a ∈ l := List.mem_of_getElem? ha'
        have hchunk := chunkLength_pos s.table hrem off
        obtain ⟨mem₁, s₁, hread, hround⟩ := preadLoop_round mem fuel pos hio hrem
          (heoc a hmem) (hin a hmem) ha'
        have htable := hread.table
        generalize hn : chunkLength s.table rem off = n at *
        have hnle : n ≤ rem := hn ▸ Nat.min_le_right _ _
        have hB := s.table.bytesPerCluster_pos
        have hrest : ∃ mem' s', BytesRead l mem₁ mem' (pos + n) (off + n) (rem - n) s₁ s' ∧
            preadLoop fuel mem₁ (pos + n) (rem - n) (off + n) (s.table.nextCluster a) s₁ =
              .ok (0, mem') s' := by
          refine ih mem₁ (pos + n) hread.ioOk (by rwa [htable]) (by rwa [htable]) ?_ ?_ (by omega)
          · by_cases hrn : rem - n = 0
            · exact .inl hrn
            · -- the cluster is used up, and the chain goes on
              have hn' : n = s.table.bytesPerCluster - off % s.table.bytesPerCluster := by
                unfold chunkLength at hn
                omega
              have hend := add_chunk_eq (t := s.table) off
              rw [← hn'] at hend
              have hdiv : (off + n) / s.table.bytesPerCluster = off / s.table.bytesPerCluster + 1 := by
                rw [hend]
                exact Nat.mul_div_cancel _ hB
              have hk' : off / s.table.bytesPerCluster + 1 < l.length := by
                refine Nat.lt_of_mul_lt_mul_right (a := s.table.bytesPerCluster) ?_
                rw [← hend]
                omega
              have hnext := hl.next_getElem hk
              rw [hak, List.getElem?_eq_getElem hk'] at hnext
              refine .inr ?_
              rw [htable, hdiv, FatTable.nextCluster_eq_of_next hnext, List.getElem?_eq_getElem hk']
          · rw [htable]
            omega
        obtain ⟨mem', s', hread', hrun⟩ := hrest
        refine ⟨mem', s', ?_, by rw [hround, hrun]⟩
        have happ := hread.append hread'
        rwa [show n + (rem - n) = rem by omega] at happ

/-! ## The whole call -/

section Slice

variable {s : State} {file p : Nat} {x y : FatFile} {d : DirEntry} {l : List Nat}

/-- The run from the run of its loop. -/
theorem fatFilePread_run (env : Env) (mem : Int → UInt8) {size offset : Nat} (hio : s.IoOk) (herrno : s.errno = 0)
    (hx : s.files.cell file = some x) (hd : x.dentry = some d) (hy : s.files.cell p = some y)
    (hl : Chain s.table.next (FatTable.cluster? x.startCluster) l) (hin : ∀ c ∈ l, c < s.table.fatLen)
    (hlen : d.fileSize ≤ l.length * s.table.bytesPerCluster) (hoff : offset < d.fileSize)
    (hsize : 0 < size) :
    ∃ mem' s₁, BytesRead l mem mem' 0 offset (min size (d.fileSize - offset)) s s₁ ∧
      fatFilePread env file mem size offset (some p) s =
        .ok (((min size (d.fileSize - offset) : Nat) : Int), mem')
          ((s₁.ticked.updated file fun x => { x with
              dentry := some (fillDentryTime (env.time s₁.tick) false false d) }).entryWritten
            y.startCluster x.posInParent (fillDentryTime (env.time s₁.tick) false false d)) := by
  have hlt : offset < 2 ^ 32 := Nat.lt_trans hoff d.fileSize_lt
  have hk : offset / s.table.bytesPerCluster < l.length :=
    (Nat.div_lt_iff_lt_mul s.table.bytesPerCluster_pos).mpr (by omega)
  -- The start is a cluster, because the chain is not empty.
  have heoc := FatTable.not_isEoc_of_chain (fun c hc => (FatTable.cluster?_eq_some.mp hc).1) hl
  have hstart : ¬ FatTableIsEoc x.startCluster := fun h => by
    rw [FatTable.cluster?_eq_none.mpr h] at hl
    obtain rfl : l = [] := hl.unique rfl
    cases hk
  rw [FatTable.cluster?_of_not_isEoc hstart] at hl
  have hseek := fatTableSeekCluster_run hstart hl hin hlt hk
  -- From that cluster on the loop reads along the chain.
  obtain ⟨mem', s₁, hread, hloop⟩ := preadLoop_run mem 0 hio heoc hin hl
    (.inr (List.getElem?_eq_getElem hk)) (.inr (by omega))
    (Nat.lt_succ_self (min size (d.fileSize - offset)))
  have hx₁ : s₁.files.cell file = some x := by rw [hread.frame]; exact hx
  have hy₁ : s₁.files.cell p = some y := by rw [hread.frame]; exact hy
  refine ⟨mem', s₁, hread, ?_⟩
  have hmin : ¬ min size (d.fileSize - offset) = 0 := by omega
  unfold fatFilePread
  rw [Cmd.bind_ok (readDentry_run hx hd), if_neg (by omega)]
  dsimp only
  rw [if_neg hmin, Cmd.bind_ok (readFile_run hx), Cmd.bind_ok hseek, Cmd.bind_ok (getErrno_run s),
    if_neg (not_not.mpr herrno), Cmd.bind_ok hloop]
  dsimp only
  rw [stampAndWrite_run env hx₁ hd hy₁ hread.ioOk false false, Nat.cast_zero, Int.sub_zero]

/-- **Reading returns the slice.** `fat_file_pread` at an offset up to the size of the file returns the
bytes of the concatenated clusters from there on, as many as fit the buffer and belong to the file. It
changes neither the table nor the size, and on the device only the directory cluster of the parent. -/
theorem fatFilePread_slice (env : Env) (mem : Int → UInt8) (size offset : Nat) (hord : 5 ≤ s.table.clusterOrder)
    (hio : s.IoOk) (herrno : s.errno = 0) (hx : s.files.cell file = some x)
    (hd : x.dentry = some d) (hy : s.files.cell p = some y)
    (hl : l = [] ∨ Chain s.table.next (FatTable.cluster? x.startCluster) l) (hin : ∀ c ∈ l, c < s.table.fatLen)
    (hlen : d.fileSize ≤ l.length * s.table.bytesPerCluster) (hoff : offset ≤ d.fileSize) :
    ∃ (r : Nat) (mem' : Int → UInt8) (s' : State),
      fatFilePread env file mem size offset (some p) s = .ok ((r : Int), mem') s' ∧
      r = min size (d.fileSize - offset) ∧
      (∀ i : Nat, i < r → (chainBytes s l)[offset + i]? = some (mem' i)) ∧
      (∀ i : Int, i < 0 ∨ r ≤ i → mem' i = mem i) ∧
      s'.table = s.table ∧
      (∃ x' d', s'.files.cell file = some x' ∧ x'.dentry = some d' ∧ d'.fileSize = d.fileSize) ∧
      (∀ i < s.table.dataStartOffset, s'.dev.byte i = s.dev.byte i) ∧
      ∀ i, ¬ (s.table.clusterOffset y.startCluster ≤ i ∧
          i < s.table.clusterOffset y.startCluster + s.table.bytesPerCluster) →
        s'.dev.byte i = s.dev.byte i := by
  by_cases hmin : min size (d.fileSize - offset) = 0
  · -- there is nothing to read
    refine ⟨0, mem, s, ?_, hmin.symm, fun i hi => absurd hi (Nat.not_lt_zero i), fun _ _ => rfl, rfl,
      ⟨x, d, hx, hd, rfl⟩, fun _ _ => rfl, fun _ _ => rfl⟩
    unfold fatFilePread
    rw [Cmd.bind_ok (readDentry_run hx hd), if_neg (by omega)]
    dsimp only
    rw [if_pos hmin]
    rfl
  · have hl' : Chain s.table.next (FatTable.cluster? x.startCluster) l := by
      refine hl.resolve_left ?_
      rintro rfl
      simp only [List.length_nil, Nat.zero_mul] at hlen
      omega
    obtain ⟨mem', s₁, hread, hrun⟩ := fatFilePread_run env mem hio herrno hx hd hy hl' hin hlen
      (show offset < d.fileSize by omega) (show 0 < size by omega)
    have htable := hread.table
    have hout (i : Nat) (hi : ¬ (s.table.clusterOffset y.startCluster ≤ i ∧
        i < s.table.clusterOffset y.startCluster + s.table.bytesPerCluster)) :
        ((s₁.ticked.updated file fun x => { x with
            dentry := some (fillDentryTime (env.time s₁.tick) false false d) }).entryWritten
          y.startCluster x.posInParent (fillDentryTime (env.time s₁.tick) false false d)).dev.byte i =
          s.dev.byte i := by
      rw [State.byte_entryWritten (s := s₁.ticked.updated file _) (by rw [← htable] at hord; exact hord) _
        (by rw [← htable] at hi; exact hi), ← hread.dev]
      rfl
    refine ⟨_, mem', _, hrun, rfl, fun i hi => ?_, fun i hi => hread.kept i (by omega), ?_, ?_,
      fun i hi => hout i ?_, hout⟩
    · have hload := hread.loaded i hi
      rw [Nat.zero_add] at hload
      rw [hload, getElem?_chainBytes (by omega)]
    · rw [State.table_entryWritten]
      exact htable
    · have hx₁ : s₁.ticked.files.cell file = some x := by
        rw [hread.frame]
        exact hx
      refine ⟨{ x with dentry := some (fillDentryTime (env.time s₁.tick) false false d) }, _, ?_, rfl,
        DirEntry.fileSize_fillDentryTime _ _ _ _⟩
      rw [State.files_entryWritten]
      exact State.cell_updated_self hx₁ _
    · -- the table lies before the data
      have hle : s.table.dataStartOffset ≤ s.table.clusterOffset y.startCluster := Nat.le_add_right _ _
      omega

/-- Nine bytes across the border of two clusters. -/
theorem fatFilePread_slice_filledVolume : ∃ mem' s',
    fatFilePread quietEnv 1 (fun _ => 7) 9 31 (some 0) filledVolume = .ok (9, mem') s' ∧
      mem' 8 = 0 ∧ mem' 9 = 7 := by
  obtain ⟨r, mem', s', hrun, hr, hslice, hkept, -⟩ := fatFilePread_slice quietEnv (fun _ => 7) 9 31
    (show 5 ≤ filledVolume.table.clusterOrder by decide) (fun r hr => absurd hr List.not_mem_nil) rfl
    (show filledVolume.files.cell 1 = some _ from rfl) rfl
    (show filledVolume.files.cell 0 = some _ from rfl) (.inr filledTable_isChain.chain_cluster?)
    filledTable_isChain.lt_fatLen (by decide) (by decide)
  have hr' : r = 9 := hr.trans (by decide)
  subst hr'
  have hlast : (chainBytes filledVolume [3, 4])[39]? = some (mem' 8) := hslice 8 (by decide)
  rw [getElem?_chainBytes (show 39 < [3, 4].length * filledVolume.table.bytesPerCluster by decide)]
    at hlast
  have hzero : filledVolume.dev.byte (filePos filledVolume.table [3, 4] 39) = 0 := by decide
  exact ⟨mem', s', hrun, (Option.some.inj hlast).symm.trans hzero, hkept 9 (.inr (by decide))⟩

end Slice

end OsLabs.Fat
