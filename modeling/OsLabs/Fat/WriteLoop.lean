import OsLabs.Fat.Disk
import OsLabs.Fat.File

/-! # The loop of `fat_file_pwrite`

What the loop writes while the chain lasts: `pwriteLoop_within` for a write that ends inside the
chain, `pwriteLoop_advance` for the part of any write that does. `pwriteLoop_pastEnd` is what happens
behind the last cluster: the loop allocates a cluster but goes on at the last one, which it
overwrites. -/

namespace OsLabs.Fat

/-! ## Writing a range of a chain -/

/-- From `s` to `s'`, the `n` bytes of `mem` from `pos` on were stored at the positions of the chain
`l` from `off` on, and nothing else changed. -/
structure BytesWritten (l : List Nat) (mem : Int → UInt8) (pos off n : Nat) (s s' : State) : Prop where
  frame : s' = { s with dev := s'.dev, io := s'.io }
  ioOk : s'.IoOk
  stored : ∀ j < n, s'.dev.byte (filePos s.table l (off + j)) = mem ((pos + j : Nat) : Int)
  kept : ∀ i, (∀ j < n, i ≠ filePos s.table l (off + j)) → s'.dev.byte i = s.dev.byte i

namespace BytesWritten

variable {l : List Nat} {mem : Int → UInt8} {pos off n : Nat} {s s' s'' : State}

/-- Writing bytes leaves the FAT alone. -/
theorem table (h : BytesWritten l mem pos off n s s') : s'.table = s.table := by rw [h.frame]

/-- Writing bytes sets no error number. -/
theorem errno (h : BytesWritten l mem pos off n s s') : s'.errno = s.errno := by rw [h.frame]

/-- No bytes are written between a state and itself. -/
theorem zero (hio : s.IoOk) : BytesWritten l mem pos off 0 s s :=
  ⟨rfl, hio, fun j hj => absurd hj (Nat.not_lt_zero j), fun _ _ => rfl⟩

/-- Two adjacent ranges written one after the other. -/
theorem append {m : Nat} (h : BytesWritten l mem pos off n s s')
    (h' : BytesWritten l mem (pos + n) (off + n) m s' s'') (hn : l.Nodup)
    (hv : ∀ c ∈ l, s.table.IsCluster c)
    (hle : off + (n + m) ≤ l.length * s.table.bytesPerCluster) :
    BytesWritten l mem pos off (n + m) s s'' where
  frame := by
    rw [h'.frame, h.frame]
  ioOk := h'.ioOk
  stored j hj := by
    have htable := h.table
    by_cases hjn : j < n
    · rw [h'.kept, h.stored j hjn]
      intro j' hj' heq
      rw [htable] at heq
      have := filePos_inj hn (fun c hc => (hv c hc).isValid) (by omega) (by omega) heq
      omega
    · have := h'.stored (j - n) (by omega)
      rw [htable, show off + n + (j - n) = off + j by omega,
        show pos + n + (j - n) = pos + j by omega] at this
      exact this
  kept i hi := by
    rw [h'.kept, h.kept i fun j hj => hi j (by omega)]
    intro j hj
    rw [h.table, show off + n + j = off + (n + j) by omega]
    exact hi (n + j) (by omega)

end BytesWritten

/-- The positions of one cluster. -/
theorem filePos_add {t : FatTable} {l : List Nat} {off j a : Nat}
    (ha : l[off / t.bytesPerCluster]? = some a) (hj : j < t.bytesPerCluster - off % t.bytesPerCluster) :
    filePos t l (off + j) = t.clusterOffset a + off % t.bytesPerCluster + j := by
  have hB := t.bytesPerCluster_pos
  have hlt := Nat.mod_lt off hB
  have hsplit : off + j = off / t.bytesPerCluster * t.bytesPerCluster +
      (off % t.bytesPerCluster + j) := by
    have := Nat.div_add_mod' off t.bytesPerCluster
    omega
  have hm : off % t.bytesPerCluster + j < t.bytesPerCluster := by omega
  have hdiv : (off + j) / t.bytesPerCluster = off / t.bytesPerCluster := by
    rw [hsplit, Nat.mul_comm, Nat.mul_add_div hB, Nat.div_eq_of_lt hm, Nat.add_zero]
  have hmod : (off + j) % t.bytesPerCluster = off % t.bytesPerCluster + j := by
    rw [hsplit, Nat.mul_comm, Nat.mul_add_mod, Nat.mod_eq_of_lt hm]
  rw [filePos_eq (by rw [hdiv]; exact ha), hmod, Nat.add_assoc]

/-- A write inside one cluster of a chain. -/
theorem bytesWritten_chunk {s : State} (hio : s.IoOk) {l : List Nat} (mem : Int → UInt8)
    (pos off : Nat) {n a : Nat} (ha : l[off / s.table.bytesPerCluster]? = some a)
    (hn : n ≤ s.table.bytesPerCluster - off % s.table.bytesPerCluster) :
    BytesWritten l mem pos off n s
      (s.wrote (s.table.clusterOffset a + off % s.table.bytesPerCluster)
        (memBytes (fun i => mem (pos + i)) 0 n)) where
  frame := rfl
  ioOk := hio.wrote _ _
  stored j hj := by
    rw [filePos_add ha (by omega), State.byte_wrote (by rwa [length_memBytes])]
    simp [memBytes, hj]
  kept i hi := by
    refine State.byte_wrote_of_notMem ?_
    rintro ⟨hle, hlt⟩
    rw [length_memBytes] at hlt
    refine hi (i - (s.table.clusterOffset a + off % s.table.bytesPerCluster)) (by omega) ?_
    rw [filePos_add ha (by omega)]
    omega

/-! ## One round -/

section Round

variable {s : State} {l : List Nat} {mem : Int → UInt8} {fuel pos rem off : Nat}

/-- The bytes one round writes. -/
def chunkLength (t : FatTable) (rem off : Nat) : Nat :=
  min (t.bytesPerCluster - off % t.bytesPerCluster) rem

/-- The state after the write of one round. -/
def afterChunk (s : State) (cluster : Nat) (mem : Int → UInt8) (pos rem off : Nat) : State :=
  s.wrote (s.table.clusterOffset cluster + off % s.table.bytesPerCluster)
    (memBytes (fun i => mem (pos + i)) 0 (chunkLength s.table rem off))

/-- The bytes that a round writes. -/
theorem clusterRemainingBytes_eq (t : FatTable) (rem off : Nat) :
    t.clusterRemainingBytes rem off = chunkLength t rem off := by
  rw [FatTable.clusterRemainingBytes, FatTable.maskOffset_eq, chunkLength]

/-- A round writes a byte at least. -/
theorem chunkLength_pos (t : FatTable) {rem : Nat} (hrem : 0 < rem) (off : Nat) :
    0 < chunkLength t rem off := by
  have := Nat.mod_lt off t.bytesPerCluster_pos
  unfold chunkLength
  omega

/-- The write of a round, and what follows it. -/
theorem pwriteLoop_round (hio : s.IoOk) (hrem : 0 < rem) (cluster : Nat) :
    pwriteLoop mem (fuel + 1) pos rem off cluster s =
      (if rem - chunkLength s.table rem off = 0 then pure (0, off + chunkLength s.table rem off)
      else do
        let nextCluster ← fatTableGetNextCluster cluster
        if FatTableIsEoc nextCluster then do
          let nextCluster ← fatTableGetNextFreeCluster
          fatTableSetNextCluster cluster nextCluster
          let errno ← getErrno
          if errno ≠ 0 then
            pure (((rem - chunkLength s.table rem off : Nat) : Int),
              off + chunkLength s.table rem off)
          else
            pwriteLoop mem fuel (pos + chunkLength s.table rem off)
              (rem - chunkLength s.table rem off) (off + chunkLength s.table rem off) cluster
        else do
          let errno ← getErrno
          if errno ≠ 0 then
            pure (((rem - chunkLength s.table rem off : Nat) : Int),
              off + chunkLength s.table rem off)
          else
            pwriteLoop mem fuel (pos + chunkLength s.table rem off)
              (rem - chunkLength s.table rem off) (off + chunkLength s.table rem off) nextCluster :
      M (Int × Nat)) (afterChunk s cluster mem pos rem off) := by
  rw [pwriteLoop, if_neg (by omega), Cmd.get_bind, clusterRemainingBytes_eq,
    FatTable.maskOffset_eq,
    Cmd.bind_ok (fullPwrite_run hio _ (chunkLength_pos s.table hrem off) _), if_neg (by simp)]
  rfl

variable (mem fuel pos rem off) in
/-- A round that writes the rest. -/
theorem pwriteLoop_last (hio : s.IoOk) (hrem : 0 < rem)
    (hfit : rem ≤ s.table.bytesPerCluster - off % s.table.bytesPerCluster) (cluster : Nat) :
    pwriteLoop mem (fuel + 1) pos rem off cluster s =
      .ok (0, off + rem) (afterChunk s cluster mem pos rem off) := by
  have hlen : chunkLength s.table rem off = rem := Nat.min_eq_right hfit
  rw [pwriteLoop_round hio hrem, hlen, if_pos (by omega)]
  rfl

variable (mem fuel pos) in
/-- A round that goes on to the next cluster of the chain. -/
theorem pwriteLoop_next (hio : s.IoOk) (herrno : s.errno = 0)
    (hrem : s.table.bytesPerCluster - off % s.table.bytesPerCluster < rem) {cluster c : Nat}
    (hc : s.table.IsCluster cluster) (hnext : s.table.next cluster = some c) :
    pwriteLoop mem (fuel + 1) pos rem off cluster s =
      pwriteLoop mem fuel (pos + chunkLength s.table rem off) (rem - chunkLength s.table rem off)
        (off + chunkLength s.table rem off) c (afterChunk s cluster mem pos rem off) := by
  have hlen : chunkLength s.table rem off < rem := by
    unfold chunkLength
    omega
  have hnext' : s.table.nextCluster cluster = c := FatTable.nextCluster_eq_of_next hnext
  rw [pwriteLoop_round hio (by omega), if_neg (by omega),
    Cmd.bind_ok (fatTableGetNextCluster_run (s := afterChunk s cluster mem pos rem off)
      hc.lt_fatLen)]
  have heoc : ¬ FatTableIsEoc c := FatTable.not_isEoc_of_next hnext
  show (if FatTableIsEoc (s.table.nextCluster cluster) then _ else _ : M _) _ = _
  rw [hnext', if_neg heoc]
  show (if s.errno ≠ 0 then _ else _ : M _) _ = _
  rw [if_neg (not_not.mpr herrno), ← hnext']
  rfl

variable (mem fuel pos rem off) in
/-- A round behind which the chain ends: a cluster is linked, and the loop stays where it is. -/
theorem pwriteLoop_alloc (hio : s.IoOk) (herrno : s.errno = 0)
    (hrem : s.table.bytesPerCluster - off % s.table.bytesPerCluster < rem) {cluster : Nat}
    (hc : s.table.IsCluster cluster) (hnext : s.table.next cluster = none)
    (hfree : ∃ c, s.table.IsCluster c ∧ s.table.fatMap c = 0) :
    ∃ c, s.table.IsCluster c ∧ s.table.fatMap c = 0 ∧
      (∀ d, s.table.IsCluster d → d < c → s.table.fatMap d ≠ 0) ∧
      pwriteLoop mem (fuel + 1) pos rem off cluster s =
        pwriteLoop mem fuel (pos + chunkLength s.table rem off) (rem - chunkLength s.table rem off)
          (off + chunkLength s.table rem off) cluster
          ((afterChunk s cluster mem pos rem off).linked cluster c) := by
  have hlen : chunkLength s.table rem off < rem := by
    unfold chunkLength
    omega
  obtain ⟨c, hrun, hv, h0, hmin⟩ := fatTableGetNextFreeCluster_run
    (s := afterChunk s cluster mem pos rem off) hfree
  refine ⟨c, hv, h0, hmin, ?_⟩
  rw [pwriteLoop_round hio (by omega), if_neg (by omega),
    Cmd.bind_ok (fatTableGetNextCluster_run (s := afterChunk s cluster mem pos rem off)
      hc.lt_fatLen)]
  show (if FatTableIsEoc (s.table.nextCluster cluster) then _ else _ : M _) _ = _
  rw [if_pos ((FatTable.isEoc_nextCluster_iff cluster).mpr hnext), Cmd.bind_ok hrun,
    Cmd.bind_ok (fatTableSetNextCluster_run (s := afterChunk s cluster mem pos rem off)
      (hio.wrote _ _) hc.lt_fatLen hc.four_mul_lt c)]
  show (if s.errno ≠ 0 then _ else _ : M _) _ = _
  rw [if_neg (not_not.mpr herrno)]

end Round

/-! ## Along the chain -/

/-- The end of the cluster an offset lies in. -/
theorem add_chunk_eq {t : FatTable} (off : Nat) :
    off + (t.bytesPerCluster - off % t.bytesPerCluster) =
      (off / t.bytesPerCluster + 1) * t.bytesPerCluster := by
  have hlt := Nat.mod_lt off t.bytesPerCluster_pos
  have := Nat.div_add_mod' off t.bytesPerCluster
  rw [Nat.succ_mul]
  omega

section Along

variable {l : List Nat} {mem : Int → UInt8}

/-- One round that goes on to the next cluster of the chain. -/
theorem pwriteLoop_advance_one {s : State} (mem : Int → UInt8) (fuel pos : Nat) {rem off a b : Nat}
    (hio : s.IoOk) (herrno : s.errno = 0)
    (hv : ∀ c ∈ l, s.table.IsCluster c)
    {o : Option Nat} (hl : Chain s.table.next o l)
    (ha : l[off / s.table.bytesPerCluster]? = some a)
    (hb : l[off / s.table.bytesPerCluster + 1]? = some b)
    (hlt : s.table.bytesPerCluster - off % s.table.bytesPerCluster < rem) :
    ∃ s', BytesWritten l mem pos off (s.table.bytesPerCluster - off % s.table.bytesPerCluster) s s' ∧
      pwriteLoop mem (fuel + 1) pos rem off a s =
        pwriteLoop mem fuel (pos + (s.table.bytesPerCluster - off % s.table.bytesPerCluster))
          (rem - (s.table.bytesPerCluster - off % s.table.bytesPerCluster))
          (off + (s.table.bytesPerCluster - off % s.table.bytesPerCluster)) b s' := by
  have hchunk : chunkLength s.table rem off =
      s.table.bytesPerCluster - off % s.table.bytesPerCluster := Nat.min_eq_left (by omega)
  obtain ⟨hk, rfl⟩ := List.getElem?_eq_some_iff.mp ha
  have hnext := hl.next_getElem hk
  rw [hb] at hnext
  have hround := pwriteLoop_next mem fuel pos hio herrno hlt
    (hv _ (List.getElem_mem hk)) hnext
  rw [hchunk] at hround
  refine ⟨_, ?_, hround⟩
  have hwritten := bytesWritten_chunk hio mem pos off ha (Nat.le_refl _)
  rw [afterChunk, hchunk]
  exact hwritten

/-- As long as there are clusters and bytes left, the rounds advance along the chain. -/
theorem pwriteLoop_advance {s : State} (mem : Int → UInt8) {d : Nat} (fuel pos rem : Nat)
    {off a b : Nat} (hio : s.IoOk) (herrno : s.errno = 0)
    (hv : ∀ c ∈ l, s.table.IsCluster c)
    {o : Option Nat} (hl : Chain s.table.next o l)
    (ha : l[off / s.table.bytesPerCluster]? = some a)
    (hb : l[off / s.table.bytesPerCluster + d]? = some b)
    (hlt : (off / s.table.bytesPerCluster + d) * s.table.bytesPerCluster < off + rem)
    (hrem : 0 < rem) (hfuel : rem < fuel) :
    ∃ s' fuel' n, n < rem ∧ rem - n < fuel' ∧
      off + n = max off ((off / s.table.bytesPerCluster + d) * s.table.bytesPerCluster) ∧
      BytesWritten l mem pos off n s s' ∧
      pwriteLoop mem fuel pos rem off a s =
        pwriteLoop mem fuel' (pos + n) (rem - n) (off + n) b s' := by
  -- By induction over the clusters that lie between the offset and the one to be reached.
  induction d generalizing s fuel pos rem off a with
  | zero =>
      obtain rfl := Option.some.inj (ha.symm.trans hb)
      refine ⟨s, fuel, 0, hrem, hfuel, ?_, .zero hio, rfl⟩
      rw [Nat.add_zero, Nat.add_zero]
      exact (Nat.max_eq_left (Nat.div_mul_le_self _ _)).symm
  | succ d ih =>
      have hB := s.table.bytesPerCluster_pos
      have hmod := Nat.mod_lt off hB
      have hend := add_chunk_eq (t := s.table) off
      have hmono : (off / s.table.bytesPerCluster + 1) * s.table.bytesPerCluster ≤
          (off / s.table.bytesPerCluster + (d + 1)) * s.table.bytesPerCluster :=
        Nat.mul_le_mul_right _ (by omega)
      obtain ⟨fuel, rfl⟩ := Nat.exists_eq_succ_of_ne_zero (Nat.ne_of_gt (Nat.zero_lt_of_lt hfuel))
      obtain ⟨hkd, -⟩ := List.getElem?_eq_some_iff.mp hb
      have hlt : off / s.table.bytesPerCluster + 1 < l.length := by omega
      have ha' : l[off / s.table.bytesPerCluster + 1]? =
          some l[off / s.table.bytesPerCluster + 1] := List.getElem?_eq_getElem hlt
      obtain ⟨s₁, hwritten, hround⟩ := pwriteLoop_advance_one mem fuel pos
        hio herrno hv hl ha ha' (by omega : _ < rem)
      have htable := hwritten.table
      -- The rest of the first cluster is the length of the first chunk.
      generalize hn : s.table.bytesPerCluster - off % s.table.bytesPerCluster = n at *
      -- Behind it the offset stands at the start of the next cluster.
      have hoff' : (off + n) / s.table.bytesPerCluster = off / s.table.bytesPerCluster + 1 := by
        rw [hend]
        exact Nat.mul_div_cancel _ hB
      have hidx : off / s.table.bytesPerCluster + 1 + d =
          off / s.table.bytesPerCluster + (d + 1) := by omega
      obtain ⟨s', fuel', n', h1, h2, h3, h4, h5⟩ := ih (s := s₁) fuel
        (pos + n) (rem - n) hwritten.ioOk
        (by rw [hwritten.errno]; exact herrno) (by rw [htable]; exact hv) (by rw [htable]; exact hl)
        (by rw [htable, hoff']; exact ha') (by rw [htable, hoff', hidx]; exact hb)
        (by rw [htable, hoff', hidx]; omega) (by omega) (by omega)
      rw [htable, hoff', hidx, Nat.max_eq_right (by omega)] at h3
      refine ⟨s', fuel', n + n', by omega, by omega, ?_, hwritten.append h4 hl.nodup hv ?_, ?_⟩
      -- The chunks end where the cluster `b` starts.
      · rw [Nat.max_eq_right (by omega)]
        omega
      · rw [← Nat.add_assoc, h3]
        exact Nat.mul_le_mul_right _ (by omega)
      · rw [hround, h5]
        simp only [Nat.add_assoc, Nat.sub_sub]

/-- A write that ends inside the chain. -/
theorem pwriteLoop_within {s : State} (mem : Int → UInt8) (fuel pos rem : Nat)
    {off a : Nat} (hio : s.IoOk) (herrno : s.errno = 0)
    (hv : ∀ c ∈ l, s.table.IsCluster c)
    {o : Option Nat} (hl : Chain s.table.next o l)
    (ha : l[off / s.table.bytesPerCluster]? = some a)
    (hlast : rem = 0 ∨ (off + rem - 1) / s.table.bytesPerCluster < l.length) (hfuel : rem < fuel) :
    ∃ s', BytesWritten l mem pos off rem s s' ∧
      pwriteLoop mem fuel pos rem off a s = .ok (0, off + rem) s' := by
  rcases Nat.eq_zero_or_pos rem with rfl | hrem
  · obtain ⟨fuel, rfl⟩ := Nat.exists_eq_succ_of_ne_zero (Nat.ne_of_gt hfuel)
    exact ⟨s, .zero hio, rfl⟩
  · have hB := s.table.bytesPerCluster_pos
    have hlast' := hlast.resolve_left (by omega)
    have hmono : off / s.table.bytesPerCluster ≤ (off + rem - 1) / s.table.bytesPerCluster :=
      Nat.div_le_div_right (by omega)
    obtain ⟨d, hd⟩ := Nat.exists_eq_add_of_le hmono
    have hle := Nat.div_mul_le_self (off + rem - 1) s.table.bytesPerCluster
    have hlt' := Nat.lt_div_mul_add (a := off + rem - 1) hB
    rw [hd] at hlast' hle hlt'
    obtain ⟨s₁, fuel', n, h1, h2, h3, h4, h5⟩ := pwriteLoop_advance mem fuel
      pos rem hio herrno hv hl ha (List.getElem?_eq_getElem hlast') (by omega) hrem hfuel
    obtain ⟨fuel', rfl⟩ := Nat.exists_eq_succ_of_ne_zero (Nat.ne_of_gt (Nat.zero_lt_of_lt h2))
    have htable := h4.table
    -- the rest lies in the cluster reached
    have hdiv : (off + n) / s.table.bytesPerCluster = off / s.table.bytesPerCluster + d := by
      refine Nat.div_eq_of_lt_le (by omega) ?_
      rw [Nat.succ_mul]
      omega
    have hmod := Nat.div_add_mod' (off + n) s.table.bytesPerCluster
    rw [hdiv] at hmod
    have hfit : rem - n ≤ s.table.bytesPerCluster - (off + n) % s.table.bytesPerCluster := by omega
    have hrun := pwriteLoop_last (s := s₁) mem fuel' (pos + n)
      (rem - n) (off + n) h4.ioOk (by omega) (by rw [htable]; exact hfit)
      l[off / s.table.bytesPerCluster + d]
    have hwritten := bytesWritten_chunk (s := s₁) (l := l) (n := rem - n) h4.ioOk mem (pos + n) (off + n)
      (by rw [htable, hdiv]; exact List.getElem?_eq_getElem hlast') (by rw [htable]; exact hfit)
    refine ⟨_, ?_, by rw [h5, hrun, show off + n + (rem - n) = off + rem by omega]⟩
    have hlen : chunkLength s₁.table (rem - n) (off + n) = rem - n :=
      Nat.min_eq_right (by rw [htable]; exact hfit)
    rw [afterChunk, hlen]
    have happ := h4.append hwritten hl.nodup hv (by
      have := Nat.mul_le_mul_right s.table.bytesPerCluster hlast'
      rw [Nat.succ_mul] at this
      omega)
    rwa [show n + (rem - n) = rem by omega] at happ

end Along

/-! ## Behind the end of the chain -/

/-- From `s` to `s'` only the data of the cluster `c`, its entry, and the device results used up
changed. -/
structure ClusterFrame (c : Nat) (s s' : State) : Prop where
  frame : s' = { s with dev := s'.dev, io := s'.io, table := s'.table }
  ioOk : s'.IoOk
  sameVolume : s.table.SameVolume s'.table
  fatMap : ∀ d, d ≠ c → s'.table.fatMap d = s.table.fatMap d
  byte : ∀ i, s.table.dataStartOffset ≤ i →
    ¬ (s.table.clusterOffset c ≤ i ∧ i < s.table.clusterOffset c + s.table.bytesPerCluster) →
      s'.dev.byte i = s.dev.byte i

namespace ClusterFrame

variable {c : Nat} {s s' s'' : State}

/-- Two changes of one cluster are one. -/
theorem trans (h : ClusterFrame c s s') (h' : ClusterFrame c s' s'') : ClusterFrame c s s'' where
  frame := by
    rw [h'.frame, h.frame]
  ioOk := h'.ioOk
  sameVolume := h.sameVolume.trans h'.sameVolume
  fatMap d hd := (h'.fatMap d hd).trans (h.fatMap d hd)
  byte i hi hc := by
    rw [h'.byte i (by rw [h.sameVolume.dataStartOffset]; exact hi)
      (by rw [h.sameVolume.clusterOffset, h.sameVolume.bytesPerCluster]; exact hc), h.byte i hi hc]

end ClusterFrame

/-- A round changes its own cluster only. -/
theorem clusterFrame_afterChunk {s : State} (hio : s.IoOk) (c : Nat) (mem : Int → UInt8)
    (pos rem off : Nat) : ClusterFrame c s (afterChunk s c mem pos rem off) where
  frame := rfl
  ioOk := hio.wrote _ _
  sameVolume := rfl
  fatMap _ _ := rfl
  byte i _ hc := by
    refine State.byte_wrote_of_notMem fun ⟨hle, hlt⟩ => hc ⟨by omega, ?_⟩
    have := Nat.mod_lt off s.table.bytesPerCluster_pos
    rw [length_memBytes] at hlt
    unfold chunkLength at hlt
    omega

/-- Linking a cluster changes its own entry only. -/
theorem clusterFrame_linked {s : State} (hio : s.IoOk) (ht : s.table.LaidOut) {c : Nat}
    (hc : s.table.IsCluster c) (v : Nat) : ClusterFrame c s (s.linked c v) where
  frame := rfl
  ioOk := hio.linked _ _
  sameVolume := rfl
  fatMap _ hd := if_neg hd
  byte _ hi _ := State.byte_linked ht hc v hi

/-- Once the loop has reached the cluster it linked, it stays there: the entry of that cluster still
looks free, so it is linked to itself. -/
theorem pwriteLoop_stuck {s : State} (mem : Int → UInt8) (fuel pos rem : Nat) {off c : Nat}
    (ht : s.table.LaidOut) (hio : s.IoOk) (herrno : s.errno = 0) (hc : s.table.IsCluster c)
    (hentry : s.table.fatMap c = c ∨ s.table.fatMap c = 0 ∧
      ∀ d, s.table.IsCluster d → d < c → s.table.fatMap d ≠ 0)
    (hfuel : rem < fuel) :
    ∃ s', ClusterFrame c s s' ∧ pwriteLoop mem fuel pos rem off c s = .ok (0, off + rem) s' := by
  -- By induction over the rounds, which all rewrite the cluster `c`.
  induction fuel generalizing s pos rem off with
  | zero => omega
  | succ fuel ih =>
      rcases Nat.eq_zero_or_pos rem with rfl | hrem
      · exact ⟨s, ⟨rfl, hio, rfl, fun _ _ => rfl, fun _ _ _ => rfl⟩, rfl⟩
      · have hchunk := clusterFrame_afterChunk hio c mem pos rem off
        by_cases hfit : rem ≤ s.table.bytesPerCluster - off % s.table.bytesPerCluster
        · exact ⟨_, hchunk, pwriteLoop_last mem _ _ _ _ hio hrem hfit c⟩
        · have hlen := chunkLength_pos s.table hrem off
          have hlt : chunkLength s.table rem off < rem := by
            unfold chunkLength
            omega
          have hsum : off + chunkLength s.table rem off + (rem - chunkLength s.table rem off) =
              off + rem := by omega
          -- The cluster is its own successor, or it is still free and the first one a scan finds.
          rcases hentry with hself | ⟨h0, hmin⟩
          -- Linked to itself: the next round starts in the same cluster.
          · have hnext : s.table.next c = some c := by
              exact FatTable.next_of_fatMap hself hc.isValid hc.not_isEoc
            rw [pwriteLoop_next mem _ _ hio herrno (by omega) hc hnext]
            obtain ⟨s', hframe, hrun⟩ := ih (s := afterChunk s c mem pos rem off)
              (pos + chunkLength s.table rem off) (rem - chunkLength s.table rem off) ht
              hchunk.ioOk herrno hc (.inl hself) (by omega)
            exact ⟨s', hchunk.trans hframe, by rw [hrun, hsum]⟩
          · have hnext : s.table.next c = none := by
              refine FatTable.next_eq_none (.inr ?_)
              rw [h0]
              exact fun h => absurd h.1 (by decide)
            obtain ⟨c', hv', h0', hmin', hrun⟩ := pwriteLoop_alloc mem fuel pos rem
              off hio herrno (by omega) hc hnext ⟨c, hc, h0⟩
            -- The scan finds the cluster that is being written, because its entry is not set yet.
            obtain rfl : c' = c := by
              rcases Nat.lt_trichotomy c' c with h | h | h
              · exact absurd h0' (hmin c' hv' h)
              · exact h
              · exact absurd h0 (hmin' c hc h)
            -- `fat_table_set_next_cluster` links it to itself, and the first case applies from then on.
            have hlink := clusterFrame_linked (s := afterChunk s c' mem pos rem off) hchunk.ioOk ht
              hc c'
            obtain ⟨s', hframe, hrun'⟩ := ih (s := (afterChunk s c' mem pos rem off).linked c' c')
              (pos + chunkLength s.table rem off) (rem - chunkLength s.table rem off)
              (ht.setEntry _ _) hlink.ioOk herrno hc (.inl (if_pos rfl)) (by omega)
            exact ⟨s', (hchunk.trans hlink).trans hframe, by rw [hrun, hrun', hsum]⟩

/-- What a write behind the end of a chain leaves: entries other than those of the last cluster `a` and
of the cluster `c` linked to it are unchanged, and the byte `b` stands at the start of `a`. -/
structure Overwritten (a c : Nat) (b : UInt8) (s s' : State) : Prop where
  frame : s' = { s with dev := s'.dev, io := s'.io, table := s'.table }
  ioOk : s'.IoOk
  sameVolume : s.table.SameVolume s'.table
  fatMap : ∀ d, d ≠ a → d ≠ c → s'.table.fatMap d = s.table.fatMap d
  byte : s'.dev.byte (s.table.clusterOffset a) = b

/-- A round at the start of `a` stores its first byte there. -/
theorem byte_afterChunk {s : State} (mem : Int → UInt8) (pos : Nat) {rem off : Nat} (a : Nat)
    (hmod : off % s.table.bytesPerCluster = 0) (hrem : 0 < rem) :
    (afterChunk s a mem pos rem off).dev.byte (s.table.clusterOffset a) = mem ((pos : Nat) : Int) := by
  have hpos := chunkLength_pos s.table hrem off
  have hfirst : (s.wrote (s.table.clusterOffset a) (memBytes (fun i => mem (pos + i)) 0
      (chunkLength s.table rem off))).dev.byte (s.table.clusterOffset a + 0) =
      (memBytes (fun i => mem (pos + i)) 0 (chunkLength s.table rem off)).getD 0 0 :=
    State.byte_wrote (by rwa [length_memBytes])
  rw [Nat.add_zero] at hfirst
  rw [afterChunk, hmod, Nat.add_zero, hfirst]
  simp [memBytes, hpos]

/-- The rounds after the loop has linked a cluster without moving to it. -/
theorem pwriteLoop_again {s : State} (mem : Int → UInt8) (fuel pos rem : Nat) {off a c : Nat}
    (ht : s.table.LaidOut) (hio : s.IoOk) (herrno : s.errno = 0) (ha : s.table.IsCluster a)
    (hc : s.table.IsCluster c) (hac : c ≠ a) (hnext : s.table.next a = some c)
    (h0 : s.table.fatMap c = 0)
    (hmin : ∀ d, s.table.IsCluster d → d < c → s.table.fatMap d ≠ 0)
    (hmod : off % s.table.bytesPerCluster = 0) (hrem : 0 < rem) (hfuel : rem < fuel) :
    ∃ s', pwriteLoop mem fuel pos rem off a s = .ok (0, off + rem) s' ∧
      Overwritten a c (mem ((pos : Nat) : Int)) s s' := by
  have hB := s.table.bytesPerCluster_pos
  obtain ⟨fuel, rfl⟩ := Nat.exists_eq_succ_of_ne_zero (Nat.ne_of_gt (Nat.zero_lt_of_lt hfuel))
  have hframe := clusterFrame_afterChunk hio a mem pos rem off
  have hbyte := byte_afterChunk mem pos a hmod hrem
  -- The rest fits in `a`, or it runs on into `c`.
  by_cases hfit : rem ≤ s.table.bytesPerCluster - off % s.table.bytesPerCluster
  · exact ⟨_, pwriteLoop_last mem _ _ _ _ hio hrem hfit a, hframe.frame, hframe.ioOk, hframe.sameVolume,
      fun d hd _ => hframe.fatMap d hd, hbyte⟩
  · have hrun := pwriteLoop_next mem fuel pos hio herrno
      (Nat.lt_of_not_le hfit) ha hnext
    have hlen := chunkLength_pos s.table hrem off
    have hlenLt : chunkLength s.table rem off < rem := by
      unfold chunkLength
      omega
    obtain ⟨s', hframe', hrun'⟩ := pwriteLoop_stuck mem fuel
      (pos + chunkLength s.table rem off) (rem - chunkLength s.table rem off)
      (c := c) (s := afterChunk s a mem pos rem off) ht
      hframe.ioOk herrno hc (.inr ⟨h0, hmin⟩) (by omega)
    refine ⟨s', ?_, ?_, hframe'.ioOk, ?_, fun d hda hdc => ?_, ?_⟩
    · rw [hrun, hrun', Nat.add_assoc, Nat.add_sub_cancel' (Nat.le_of_lt hlenLt)]
    · rw [hframe'.frame, hframe.frame]
    · exact hframe.sameVolume.trans hframe'.sameVolume
    · rw [hframe'.fatMap d hdc, hframe.fatMap d hda]
    -- The rounds behind the first one write in `c`, and the clusters share no byte.
    · refine (hframe'.byte _ ?_ ?_).trans hbyte
      · show s.table.dataStartOffset ≤ _
        rw [FatTable.clusterOffset_eq ha.isValid]
        exact Nat.le_add_right _ _
      · rintro ⟨hle, hlt⟩
        change s.table.clusterOffset c ≤ _ at hle
        change _ < s.table.clusterOffset c + s.table.bytesPerCluster at hlt
        exact hac (FatTable.clusterOffset_disjoint (i := s.table.clusterOffset a -
          s.table.clusterOffset c) (j := 0) hc.isValid ha.isValid (by omega) hB (by omega)).1

/-- A write that goes on behind the last cluster `a` of the chain: the next bytes are written to the
start of `a` again. -/
theorem pwriteLoop_pastEnd {s : State} (mem : Int → UInt8) {fuel : Nat} (pos rem off : Nat)
    {a : Nat}
    (ht : s.table.LaidOut) (hio : s.IoOk) (herrno : s.errno = 0) (ha : s.table.IsCluster a)
    (hused : s.table.fatMap a ≠ 0) (hnext : s.table.next a = none)
    (hfree : ∃ c, s.table.IsCluster c ∧ s.table.fatMap c = 0)
    (hlt : s.table.bytesPerCluster - off % s.table.bytesPerCluster < rem) (hfuel : rem < fuel) :
    ∃ c s', s.table.IsCluster c ∧ s.table.fatMap c = 0 ∧
      pwriteLoop mem fuel pos rem off a s = .ok (0, off + rem) s' ∧
      Overwritten a c (mem ((pos + (s.table.bytesPerCluster - off % s.table.bytesPerCluster) : Nat) :
        Int)) s s' := by
  have hB := s.table.bytesPerCluster_pos
  obtain ⟨fuel, rfl⟩ := Nat.exists_eq_succ_of_ne_zero (Nat.ne_of_gt (Nat.zero_lt_of_lt hfuel))
  obtain ⟨c, hc, h0, hmin, hrun⟩ := pwriteLoop_alloc mem fuel pos rem off
    hio herrno hlt ha hnext hfree
  -- `a` is in use and `c` is free.
  have hac : c ≠ a := fun h => hused (h ▸ h0)
  have hchunk : chunkLength s.table rem off =
      s.table.bytesPerCluster - off % s.table.bytesPerCluster := Nat.min_eq_left (Nat.le_of_lt hlt)
  rw [hchunk] at hrun
  have hframe := (clusterFrame_afterChunk hio a mem pos rem off).trans
    (clusterFrame_linked (s := afterChunk s a mem pos rem off) (hio.wrote _ _) ht ha c)
  have hself : ((afterChunk s a mem pos rem off).linked a c).table.next a = some c :=
    FatTable.next_setEntry_self hc
  have hwf : ((afterChunk s a mem pos rem off).linked a c).table.LaidOut := ht.setEntry _ _
  have hmapc : ((afterChunk s a mem pos rem off).linked a c).table.fatMap c = 0 :=
    (if_neg hac).trans h0
  have hmapa : ((afterChunk s a mem pos rem off).linked a c).table.fatMap a = c := if_pos rfl
  have herrno₂ : ((afterChunk s a mem pos rem off).linked a c).errno = 0 := herrno
  have hmod : (off + (s.table.bytesPerCluster - off % s.table.bytesPerCluster)) %
      s.table.bytesPerCluster = 0 := by
    rw [add_chunk_eq, Nat.mul_mod_left]
  have hpos := Nat.mod_lt off hB
  generalize (afterChunk s a mem pos rem off).linked a c = s₂ at *
  have hvalid := hframe.sameVolume.isCluster_iff
  -- The bytes behind the chain start with the new cluster, which is written twice.
  obtain ⟨s', hrun', hover⟩ := pwriteLoop_again mem fuel
    (pos + (s.table.bytesPerCluster - off % s.table.bytesPerCluster))
    (rem - (s.table.bytesPerCluster - off % s.table.bytesPerCluster))
    hwf hframe.ioOk herrno₂ ((hvalid a).mpr ha) ((hvalid c).mpr hc) hac hself hmapc
    -- The new link is the only entry that has changed, so `c` is the first free one still.
    (fun d hd hdc => by
      by_cases hda : d = a
      · rw [hda, hmapa]
        have := hc.two_le
        omega
      · rw [hframe.fatMap d hda]
        exact hmin d ((hvalid d).mp hd) hdc)
    (by rw [hframe.sameVolume.bytesPerCluster]; exact hmod) (by omega) (by omega)
  refine ⟨c, s', hc, h0, ?_, ?_, hover.ioOk, ?_, fun d hda hdc => ?_, ?_⟩
  · rw [hrun, hrun', Nat.add_assoc, Nat.add_sub_cancel' (Nat.le_of_lt hlt)]
  · rw [hover.frame, hframe.frame]
  · exact hframe.sameVolume.trans hover.sameVolume
  · rw [hover.fatMap d hda hdc, hframe.fatMap d hda]
  · rw [← hframe.sameVolume.clusterOffset]
    exact hover.byte

end OsLabs.Fat
