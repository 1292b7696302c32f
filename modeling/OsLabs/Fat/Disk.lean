import OsLabs.Lib.Chain
import OsLabs.Fat.Table

/-! # Working devices and well-formed tables

How the primitives run when no device call fails, and the layout they work on.

* `State.IoOk s`: every device call to come is carried out whole; `State.wrote`, `State.linked`: the
  states after a `pwrite` and after `fat_table_set_next_cluster`;
* `FatTable.IsCluster t c`: a cluster that has an entry in the table;
* `FatTable.LaidOut t`, `FatTable.Wf t`: the table lies before the data, and has no entry for an end-of-chain mark;
* `FatTable.next t`: the successor of a cluster, so that `Chain t.next` are the chains of the FAT;
* `chainBytes s l`: the data clusters of a chain, one after the other. -/

namespace OsLabs.Fat

/-! ## Device calls that succeed -/

/-- Every device call to come is carried out whole. -/
def State.IoOk (s : State) : Prop := ∀ r ∈ s.io, r = .full

/-- The state after a `pwrite` carried out whole. -/
def State.wrote (s : State) (offset : Nat) (data : List UInt8) : State :=
  { s with dev := s.dev.write offset data.length data, io := s.io.tail }

/-- The state after `fat_table_set_next_cluster`. -/
def State.linked (s : State) (curCluster nextCluster : Nat) : State :=
  { s.wrote (s.table.fatOffset + 4 * curCluster) (le32Bytes nextCluster) with
    table := s.table.setEntry curCluster nextCluster }

/-- What is left of whole calls is whole calls. -/
theorem State.IoOk.tail {s s' : State} (h : s.IoOk) (hs : s'.io = s.io.tail) : s'.IoOk :=
  fun r hr => h r (List.mem_of_mem_tail (hs ▸ hr))

/-- After a `pwrite` the calls to come are whole too. -/
theorem State.IoOk.wrote {s : State} (h : s.IoOk) (offset : Nat) (data : List UInt8) :
    (s.wrote offset data).IoOk := h.tail rfl

/-- After `fat_table_set_next_cluster` the calls to come are whole too. -/
theorem State.IoOk.linked {s : State} (h : s.IoOk) (c v : Nat) : (s.linked c v).IoOk := h.tail rfl

/-- The next device call is carried out whole. -/
theorem nextIoResult_run {s : State} (h : s.IoOk) :
    nextIoResult s = .ok .full { s with io := s.io.tail } := by
  unfold nextIoResult
  rw [Cmd.get_bind]
  cases hio : s.io with
  | nil =>
      show EStateM.Result.ok IoResult.full s = _
      rw [List.tail_nil, ← hio]
  | cons r rest =>
      obtain rfl := h r (by simp [hio])
      rfl

/-- `pwrite` stores all its bytes and returns their number. -/
theorem pwrite_run {s : State} (h : s.IoOk) (data : List UInt8) (offset : Nat) :
    pwrite data offset s = .ok (data.length : Int) (s.wrote offset data) := by
  unfold pwrite
  rw [Cmd.bind_ok (nextIoResult_run h)]
  rfl

/-- `pwriteAt` at an offset that is not negative is `pwrite`. -/
theorem pwriteAt_run {s : State} (h : s.IoOk) (data : List UInt8) (offset : Nat) :
    pwriteAt data offset s = .ok (data.length : Int) (s.wrote offset data) := by
  unfold pwriteAt
  rw [if_neg (by omega), Int.toNat_natCast, pwrite_run h]

/-- `memBytes` reads as many bytes as it is asked for. -/
theorem length_memBytes (mem : Int → UInt8) (pos : Int) (count : Nat) :
    (memBytes mem pos count).length = count := by
  simp [memBytes]

/-- One round of `full_pwrite` transfers everything. -/
theorem fullPwrite_run {s : State} (h : s.IoOk) (mem : Int → UInt8) {count : Nat} (hpos : 0 < count)
    (offset : Nat) :
    fullPwrite mem count offset s =
      .ok (count : Int) (s.wrote offset (memBytes mem 0 count)) := by
  unfold fullPwrite
  have hloop : fullPwriteLoop mem (s.io.length + 2) count 0 offset s =
      .ok 0 (s.wrote offset (memBytes mem 0 count)) := by
    rw [fullPwriteLoop, if_neg (by omega), Int.toNat_natCast, Cmd.bind_ok (pwriteAt_run h _ _),
      length_memBytes, if_neg (by omega), if_neg (by omega), Int.sub_self, fullPwriteLoop,
      if_pos rfl]
    rfl
  rw [Cmd.get_bind, Cmd.bind_ok hloop, Cmd.pure_run, Int.sub_zero]

/-- The bytes of a device after a write. -/
theorem Device.byte_write (d : Device) (offset : Nat) (data : List UInt8) (i : Nat) :
    (d.write offset data.length data).byte i =
      if offset ≤ i ∧ i < offset + data.length then data.getD (i - offset) 0 else d.byte i := rfl

/-- A write leaves the bytes outside its range alone. -/
theorem State.byte_wrote_of_notMem {s : State} {offset : Nat} {data : List UInt8} {i : Nat}
    (h : ¬ (offset ≤ i ∧ i < offset + data.length)) :
    (s.wrote offset data).dev.byte i = s.dev.byte i := by
  show (s.dev.write offset data.length data).byte i = _
  rw [Device.byte_write, if_neg h]

/-- A write stores its data. -/
theorem State.byte_wrote {s : State} {offset : Nat} {data : List UInt8} {k : Nat}
    (h : k < data.length) : (s.wrote offset data).dev.byte (offset + k) = data.getD k 0 := by
  show (s.dev.write offset data.length data).byte _ = _
  rw [Device.byte_write, if_pos (by omega), Nat.add_sub_cancel_left]

/-! ## Well-formed tables -/

namespace FatTable

/-- A cluster: a valid number that has an entry in the table, below the end-of-chain marks. The number of clusters
may be larger than the table, as `read_boot_sector` reckons it from the 16 bits of `total_sectors` alone. -/
def IsCluster (t : FatTable) (cluster : Nat) : Prop :=
  t.IsValidClusterNumber cluster ∧ cluster < t.fatLen ∧ cluster < fatClusterEndOfChain

instance (t : FatTable) (cluster : Nat) : Decidable (t.IsCluster cluster) :=
  inferInstanceAs (Decidable (_ ∧ _ ∧ _))

/-- The entries of the clusters lie before the data; a cluster holds at least one directory entry. -/
structure LaidOut (t : FatTable) : Prop where
  order_ge : 5 ≤ t.clusterOrder
  before_data : t.fatOffset + 4 * min t.fatLen (t.numDataClusters + 2) ≤ t.dataStartOffset

/-- Besides, there is no entry for an end-of-chain mark. -/
structure Wf (t : FatTable) : Prop extends LaidOut t where
  fatLen_le_eoc : t.fatLen ≤ fatClusterEndOfChain

/-- A cluster number, unless it is an end-of-chain mark. -/
def cluster? (cluster : Nat) : Option Nat := if FatTableIsEoc cluster then none else some cluster

/-- The table as mapped lies before the data. -/
def BeforeData (t : FatTable) : Prop := t.fatOffset + 4 * t.fatLen ≤ t.dataStartOffset

/-- The cluster after a given one in its chain. -/
def next (t : FatTable) (cluster : Nat) : Option Nat := cluster? (t.nextCluster cluster)

variable {t : FatTable}

/-- No cluster follows just if the number is an end-of-chain mark. -/
theorem cluster?_eq_none {cluster : Nat} : cluster? cluster = none ↔ FatTableIsEoc cluster := by
  unfold cluster?
  split_ifs with h
  · exact iff_of_true rfl h
  · exact iff_of_false (by simp) h

/-- A cluster follows just if the number is not an end-of-chain mark, and then it is the number
itself. -/
theorem cluster?_eq_some {cluster c : Nat} : cluster? cluster = some c ↔ ¬ FatTableIsEoc c ∧ cluster = c := by
  unfold cluster?
  split_ifs with h
  · refine iff_of_false (by simp) ?_
    rintro ⟨hc, rfl⟩
    exact hc h
  · rw [Option.some_inj]
    constructor
    · rintro rfl
      exact ⟨h, rfl⟩
    · exact And.right

/-- A number that is not an end-of-chain mark leads on. -/
theorem cluster?_of_not_isEoc {cluster : Nat} (h : ¬ FatTableIsEoc cluster) : cluster? cluster = some cluster :=
  if_neg h

/-- A cluster has `2 ^ clusterOrder` bytes. -/
theorem bytesPerCluster_eq (t : FatTable) : t.bytesPerCluster = 2 ^ t.clusterOrder := by
  rw [bytesPerCluster, Nat.one_shiftLeft]

/-- A cluster is not empty. -/
theorem bytesPerCluster_pos (t : FatTable) : 0 < t.bytesPerCluster := by
  rw [bytesPerCluster_eq]
  exact Nat.two_pow_pos _

/-- Entries fill a cluster. -/
theorem thirty_two_dvd_bytesPerCluster (h : 5 ≤ t.clusterOrder) : 32 ∣ t.bytesPerCluster := by
  rw [bytesPerCluster_eq]
  exact Nat.pow_dvd_pow 2 h

/-- The mask of the source is the offset inside the cluster. -/
theorem maskOffset_eq (t : FatTable) (offset : Nat) :
    t.maskOffset offset = offset % t.bytesPerCluster := by
  rw [maskOffset, bytesPerCluster_eq, Nat.and_two_pow_sub_one_eq_mod]

/-- The shift of the source counts the clusters before an offset. -/
theorem shiftRight_eq (t : FatTable) (offset : Nat) :
    offset >>> t.clusterOrder = offset / t.bytesPerCluster := by
  rw [bytesPerCluster_eq, Nat.shiftRight_eq_div_pow]

/-- `fat_table_get_next_cluster` on a cluster with a successor. -/
theorem nextCluster_eq_of_next {cluster c : Nat} (h : t.next cluster = some c) : t.nextCluster cluster = c :=
  (cluster?_eq_some.mp h).2

/-- A successor is never an end-of-chain mark. -/
theorem not_isEoc_of_next {cluster c : Nat} (h : t.next cluster = some c) : ¬ FatTableIsEoc c :=
  (cluster?_eq_some.mp h).1

/-- The last cluster of a chain is followed by an end-of-chain mark. -/
theorem isEoc_nextCluster_iff (cluster : Nat) : FatTableIsEoc (t.nextCluster cluster) ↔ t.next cluster = none :=
  cluster?_eq_none.symm

/-- A successor is a valid cluster number, and the entry of the FAT is that number. -/
theorem next_eq_some {cluster c : Nat} (h : t.next cluster = some c) :
    t.IsValidClusterNumber c ∧ t.fatMap cluster = c := by
  obtain ⟨heoc, rfl⟩ := cluster?_eq_some.mp h
  by_cases hv : t.IsValidClusterNumber (t.fatMap cluster)
  · rw [nextCluster, if_pos hv]
    exact ⟨hv, rfl⟩
  · rw [nextCluster, if_neg hv] at heoc
    exact absurd (.inl rfl) heoc

/-- An entry that is a valid number and no end mark leads to the next cluster. -/
theorem next_of_fatMap {cluster c : Nat} (hmap : t.fatMap cluster = c) (hv : t.IsValidClusterNumber c)
    (hc : ¬ FatTableIsEoc c) : t.next cluster = some c := by
  rw [next, nextCluster, hmap, if_pos hv, cluster?_of_not_isEoc hc]

/-- An entry that is an end mark, or no valid number, ends the chain. -/
theorem next_eq_none {cluster : Nat}
    (h : FatTableIsEoc (t.fatMap cluster) ∨ ¬ t.IsValidClusterNumber (t.fatMap cluster)) : t.next cluster = none := by
  rw [← isEoc_nextCluster_iff, nextCluster]
  split_ifs with hv
  · exact h.resolve_right (not_not.mpr hv)
  · exact .inl rfl

/-- The position of the data of a valid cluster number. -/
theorem clusterOffset_eq {cluster : Nat} (h : t.IsValidClusterNumber cluster) :
    t.clusterOffset cluster = t.dataStartOffset + (cluster - 2) * t.bytesPerCluster := by
  have hlt := Nat.lt_trans h.2 (Nat.mod_lt _ (Nat.two_pow_pos 32))
  have h2 := h.1
  have hsub : (cluster + 2 ^ 32 - 2) % 2 ^ 32 = cluster - 2 := by omega
  rw [clusterOffset, hsub, Nat.shiftLeft_eq, ← bytesPerCluster_eq]

/-- The data of different clusters do not overlap. -/
theorem clusterOffset_disjoint {c d i j : Nat} (hc : t.IsValidClusterNumber c)
    (hd : t.IsValidClusterNumber d) (hi : i < t.bytesPerCluster) (hj : j < t.bytesPerCluster)
    (heq : t.clusterOffset c + i = t.clusterOffset d + j) : c = d ∧ i = j := by
  rw [clusterOffset_eq hc, clusterOffset_eq hd] at heq
  have hc2 := hc.1
  have hd2 := hd.1
  rcases Nat.lt_trichotomy c d with hlt | rfl | hlt
  · have := Nat.mul_le_mul_right t.bytesPerCluster (show c - 2 + 1 ≤ d - 2 by omega)
    rw [Nat.succ_mul] at this
    omega
  · exact ⟨rfl, by omega⟩
  · have := Nat.mul_le_mul_right t.bytesPerCluster (show d - 2 + 1 ≤ c - 2 by omega)
    rw [Nat.succ_mul] at this
    omega

namespace IsCluster

variable {cluster : Nat} (h : t.IsCluster cluster)

include h

/-- A cluster has a valid number. -/
theorem isValid : t.IsValidClusterNumber cluster := h.1

/-- A cluster has an entry in the FAT. -/
theorem lt_fatLen : cluster < t.fatLen := h.2.1

/-- A cluster is below the end-of-chain marks. -/
theorem lt_eoc : cluster < fatClusterEndOfChain := h.2.2

/-- Entries 0 and 1 of the FAT belong to no cluster. -/
theorem two_le : 2 ≤ cluster := h.1.1

/-- A cluster is not an end-of-chain mark. -/
theorem not_isEoc : ¬ FatTableIsEoc cluster := by
  have hlt := h.lt_eoc
  unfold FatTableIsEoc
  simp only [fatClusterEndOfChain, fatClusterEndOfChain2] at hlt ⊢
  omega

/-- The position of its entry is computed without overflow. -/
theorem four_mul_lt : 4 * cluster < 2 ^ 32 := by
  have hlt := h.lt_eoc
  simp only [fatClusterEndOfChain] at hlt
  omega

/-- A cluster is below both bounds of the search for a free one. -/
theorem lt_min : cluster < min t.fatLen (t.numDataClusters + 2) :=
  Nat.lt_min.mpr ⟨h.lt_fatLen, Nat.lt_of_lt_of_le h.1.2 (Nat.mod_le _ _)⟩

end IsCluster

namespace LaidOut

variable (ht : t.LaidOut)

include ht

/-- Directory entries fill a cluster. -/
theorem thirty_two_dvd : 32 ∣ t.bytesPerCluster := thirty_two_dvd_bytesPerCluster ht.order_ge

/-- The entry of a cluster lies before the data. -/
theorem entry_le {c : Nat} (hc : t.IsCluster c) : t.fatOffset + 4 * c + 4 ≤ t.dataStartOffset := by
  have hlt := hc.lt_min
  have hbefore := ht.before_data
  omega

/-- Entries of the table lie before the data of every cluster. -/
theorem entry_before_data {c d : Nat} (hc : t.IsCluster c) (hd : t.IsValidClusterNumber d) :
    t.fatOffset + 4 * c + 4 ≤ t.clusterOffset d := by
  rw [clusterOffset_eq hd]
  exact Nat.le_trans (ht.entry_le hc) (Nat.le_add_right _ _)

end LaidOut

/-- With no entry for an end mark, the clusters are the valid numbers with an entry. -/
theorem Wf.isCluster_iff (ht : t.Wf) (cluster : Nat) :
    t.IsCluster cluster ↔ t.IsValidClusterNumber cluster ∧ cluster < t.fatLen :=
  ⟨fun h => ⟨h.1, h.2.1⟩, fun ⟨hv, hlt⟩ => ⟨hv, hlt, Nat.lt_of_lt_of_le hlt ht.fatLen_le_eoc⟩⟩

/-- Setting an entry of the FAT leaves the others alone. -/
theorem fatMap_setEntry (t : FatTable) (c v d : Nat) :
    (t.setEntry c v).fatMap d = if d = c then v else t.fatMap d := rfl

/-- The other clusters keep their successors. -/
theorem next_setEntry_ne {c v d : Nat} (h : d ≠ c) : (t.setEntry c v).next d = t.next d := by
  unfold next nextCluster IsValidClusterNumber
  rw [fatMap_setEntry, if_neg h]
  rfl

/-- A cluster that was linked is followed by the cluster it was linked to. -/
theorem next_setEntry_self {c v : Nat} (hv : t.IsCluster v) : (t.setEntry c v).next c = some v :=
  next_of_fatMap (if_pos rfl) hv.isValid hv.not_isEoc

/-- An end-of-chain mark in an entry. -/
theorem next_setEntry_eoc (t : FatTable) (c : Nat) : (t.setEntry c fatClusterEndOfChain).next c = none := by
  refine next_eq_none (.inl ?_)
  rw [fatMap_setEntry, if_pos rfl]
  exact .inl rfl

/-- The layout does not depend on the entries. -/
theorem LaidOut.setEntry (ht : t.LaidOut) (c v : Nat) : (t.setEntry c v).LaidOut := ⟨ht.order_ge, ht.before_data⟩

/-- Well-formedness does not depend on the entries. -/
theorem Wf.setEntry (ht : t.Wf) (c v : Nat) : (t.setEntry c v).Wf := ⟨ht.toLaidOut.setEntry c v, ht.fatLen_le_eoc⟩

/-- Two tables of one volume: only the entries differ. -/
def SameVolume (t t' : FatTable) : Prop := t' = { t with fatMap := t'.fatMap }

namespace SameVolume

variable {t' t'' : FatTable}

/-- Every table is one of its own volume. -/
theorem refl (t : FatTable) : SameVolume t t := rfl

/-- Changes of entries add up to changes of entries. -/
theorem trans (h : SameVolume t t') (h' : SameVolume t' t'') : SameVolume t t'' := by
  unfold SameVolume at h h' ⊢
  rw [h', h]

/-- Nothing but the entries tells the two tables apart, whichever comes first. -/
theorem symm (h : SameVolume t t') : SameVolume t' t := by
  unfold SameVolume at h ⊢
  rw [h]

/-- Setting an entry stays on the volume. -/
theorem setEntry (t : FatTable) (c v : Nat) : SameVolume t (t.setEntry c v) := rfl

/-- The valid numbers are those of the volume. -/
theorem isValid_iff (h : SameVolume t t') (c : Nat) :
    t'.IsValidClusterNumber c ↔ t.IsValidClusterNumber c := by
  unfold SameVolume at h
  rw [h]
  exact Iff.rfl

/-- The clusters are those of the volume. -/
theorem isCluster_iff (h : SameVolume t t') (c : Nat) : t'.IsCluster c ↔ t.IsCluster c := by
  unfold SameVolume at h
  rw [h]
  exact Iff.rfl

/-- A cluster lies where it lay. -/
theorem clusterOffset (h : SameVolume t t') (c : Nat) : t'.clusterOffset c = t.clusterOffset c := by
  unfold SameVolume at h
  rw [h]
  rfl

/-- The size of a cluster is that of the volume. -/
theorem bytesPerCluster (h : SameVolume t t') : t'.bytesPerCluster = t.bytesPerCluster := by
  unfold SameVolume at h
  rw [h]
  rfl

/-- The table begins where it began. -/
theorem fatOffset (h : SameVolume t t') : t'.fatOffset = t.fatOffset := by
  unfold SameVolume at h
  rw [h]

/-- The data begin where they began. -/
theorem dataStartOffset (h : SameVolume t t') : t'.dataStartOffset = t.dataStartOffset := by
  unfold SameVolume at h
  rw [h]

/-- The table has as many entries as before. -/
theorem fatLen (h : SameVolume t t') : t'.fatLen = t.fatLen := by
  unfold SameVolume at h
  rw [h]

/-- The layout is that of the volume. -/
theorem laidOut (h : SameVolume t t') (ht : t.LaidOut) : t'.LaidOut := by
  unfold SameVolume at h
  rw [h]
  exact ⟨ht.order_ge, ht.before_data⟩

/-- Well-formedness is that of the volume. -/
theorem wf (h : SameVolume t t') (ht : t.Wf) : t'.Wf :=
  ⟨h.laidOut ht.toLaidOut, h.fatLen ▸ ht.fatLen_le_eoc⟩

/-- The successor of a cluster depends on its entry only. -/
theorem next_eq (h : SameVolume t t') {c : Nat} (hc : t'.fatMap c = t.fatMap c) :
    t'.next c = t.next c := by
  unfold next nextCluster
  rw [hc]
  exact congrArg cluster? (if_congr (h.isValid_iff _) rfl rfl)

end SameVolume

/-- Every cluster of a chain that starts with a valid one is valid. -/
theorem valid_of_chain {start : Nat} {l : List Nat} (hs : t.IsValidClusterNumber start)
    (h : Chain t.next (some start) l) {c : Nat} (hc : c ∈ l) : t.IsValidClusterNumber c := by
  obtain ⟨k, hk, rfl⟩ := List.getElem_of_mem hc
  cases k with
  | zero =>
      have := h.head
      rw [List.head?_eq_getElem?, List.getElem?_eq_getElem hk] at this
      cases this
      exact hs
  | succ k =>
      have := h.next_getElem (k := k) (by omega)
      rw [List.getElem?_eq_getElem hk] at this
      exact (next_eq_some this).1

/-- No cluster of a chain is an end mark. -/
theorem not_isEoc_of_chain {o : Option Nat} {l : List Nat} (ho : ∀ c, o = some c → ¬ FatTableIsEoc c)
    (h : Chain t.next o l) : ∀ c ∈ l, ¬ FatTableIsEoc c := by
  induction l generalizing o with
  | nil => exact fun c hc => absurd hc List.not_mem_nil
  | cons a l ih =>
      obtain ⟨rfl, hl⟩ := h
      exact List.forall_mem_cons.mpr ⟨ho a rfl, ih (fun _ => not_isEoc_of_next) hl⟩

/-- A list of different entries is no longer than the table. -/
theorem length_le_fatLen {l : List Nat} (hin : ∀ c ∈ l, c < t.fatLen) (hn : l.Nodup) : l.length ≤ t.fatLen := by
  have hsub : l ⊆ List.range t.fatLen := fun c hc => List.mem_range.mpr (hin c hc)
  have := (hn.subperm hsub).length_le
  rwa [List.length_range] at this

end FatTable

/-! ## Reading and writing the table -/

/-- An entry inside the mapped table can be read. -/
theorem readEntry_run {s : State} {c : Nat} (h : c < s.table.fatLen) :
    readEntry c s = .ok (s.table.fatMap c) s := by
  unfold readEntry
  rw [Cmd.get_bind, if_pos h]
  rfl

/-- An entry that was read. -/
theorem readEntry_eq_ok {s t : State} {c v : Nat} (h : readEntry c s = .ok v t) :
    t = s ∧ v = s.table.fatMap c ∧ c < s.table.fatLen := by
  unfold readEntry at h
  rw [Cmd.get_bind, Cmd.ite_run] at h
  split at h
  · next hlt =>
      cases h
      exact ⟨rfl, rfl, hlt⟩
  · cases h

/-- `fat_table_get_next_cluster` inside the mapped table reads an entry and changes nothing. -/
theorem fatTableGetNextCluster_run {s : State} {c : Nat} (h : c < s.table.fatLen) :
    fatTableGetNextCluster c s = .ok (s.table.nextCluster c) s := by
  unfold fatTableGetNextCluster
  rw [Cmd.bind_ok (readEntry_run h)]
  rfl

/-- A successor that was read. -/
theorem fatTableGetNextCluster_eq_ok {s t : State} {c d : Nat} (h : fatTableGetNextCluster c s = .ok d t) :
    t = s ∧ d = s.table.nextCluster c ∧ c < s.table.fatLen := by
  obtain ⟨v, u, hread, hrest⟩ := Cmd.bind_eq_ok.mp h
  obtain ⟨rfl, rfl, hlt⟩ := readEntry_eq_ok hread
  cases hrest
  exact ⟨rfl, rfl, hlt⟩

/-- An entry of the FAT takes four bytes. -/
theorem length_le32Bytes (v : Nat) : (le32Bytes v).length = 4 := rfl

/-- `fat_table_set_next_cluster` on a device that fails no call: the entry is set on the device and
in memory. -/
theorem fatTableSetNextCluster_run {s : State} (hio : s.IoOk) {c : Nat} (hc : c < s.table.fatLen)
    (h32 : 4 * c < 2 ^ 32) (v : Nat) : fatTableSetNextCluster c v s = .ok ⟨⟩ (s.linked c v) := by
  unfold fatTableSetNextCluster
  rw [Cmd.get_bind, show c * 4 % 2 ^ 32 + s.table.fatOffset = s.table.fatOffset + 4 * c by omega,
    Cmd.bind_ok (pwrite_run hio _ _), length_le32Bytes, if_neg (by decide),
    Cmd.bind_ok (readEntry_run (s := s.wrote _ _) hc)]
  rfl

/-- Linking a cluster changes no data. -/
theorem State.byte_linked {s : State} (ht : s.table.LaidOut) {c : Nat} (hc : s.table.IsCluster c)
    (v : Nat) {i : Nat} (hi : s.table.dataStartOffset ≤ i) :
    (s.linked c v).dev.byte i = s.dev.byte i := by
  refine State.byte_wrote_of_notMem fun ⟨_, hlt⟩ => ?_
  have hle := ht.entry_le hc
  rw [length_le32Bytes] at hlt
  omega

/-- A cluster number without an entry is written to the device before the program stops. -/
theorem fatTableSetNextCluster_outside {s : State} (hio : s.IoOk) {c : Nat} (hc : s.table.fatLen ≤ c)
    (v : Nat) : fatTableSetNextCluster c v s =
      .error .outOfBounds (s.wrote (c * 4 % 2 ^ 32 + s.table.fatOffset) (le32Bytes v)) := by
  unfold fatTableSetNextCluster
  rw [Cmd.get_bind, Cmd.bind_ok (pwrite_run hio _ _), length_le32Bytes, if_neg (by decide)]
  refine Cmd.bind_error ?_
  exact (Cmd.ite_run (c < s.table.fatLen) _ _ _).trans (if_neg (Nat.not_lt.mpr hc))

/-- The free search returns the first free entry. -/
theorem scanFree_ok {t : FatTable} {fuel a d : Nat} (h : scanFree t fuel a = .ok d) :
    a ≤ d ∧ d < a + fuel ∧ t.fatMap d = fatClusterFree ∧
      ∀ e, a ≤ e → e < d → t.fatMap e ≠ fatClusterFree := by
  induction fuel generalizing a with
  | zero => cases h
  | succ fuel ih =>
      rw [scanFree] at h
      split at h
      · next hused =>
          obtain ⟨hle, hlt, hfree, hmin⟩ := ih h
          refine ⟨by omega, by omega, hfree, fun e he hlt => ?_⟩
          by_cases hea : e = a
          · rwa [hea]
          · exact hmin e (by omega) hlt
      · next hfree =>
          cases h
          exact ⟨le_rfl, by omega, not_not.mp hfree, fun e he hlt => by omega⟩

/-- Without a free entry the search leaves the table. -/
theorem scanFree_error {t : FatTable} {fuel c : Nat} {e : Fault} (h : scanFree t fuel c = .error e) :
    e = .outOfBounds := by
  induction fuel generalizing c with
  | zero => cases h; rfl
  | succ fuel ih =>
      rw [scanFree] at h
      split_ifs at h
      exact ih h

/-- It has found no free entry then. -/
theorem scanFree_none {t : FatTable} {fuel c : Nat} {e : Fault} (h : scanFree t fuel c = .error e)
    (d : Nat) (hle : c ≤ d) (hlt : d < c + fuel) : t.fatMap d ≠ fatClusterFree := by
  induction fuel generalizing c with
  | zero => omega
  | succ fuel ih =>
      rw [scanFree] at h
      split_ifs at h with hused
      by_cases hdc : d = c
      · rwa [hdc]
      · exact ih h (by omega) (by omega)

/-- The free search stops at the first free entry. -/
theorem scanFree_run {t : FatTable} (fuel : Nat) {c : Nat}
    (h : ∃ d, c ≤ d ∧ d < c + fuel ∧ t.fatMap d = 0) :
    ∃ d, scanFree t fuel c = .ok d ∧ c ≤ d ∧ d < c + fuel ∧ t.fatMap d = 0 ∧
      ∀ e, c ≤ e → e < d → t.fatMap e ≠ 0 := by
  cases hrun : scanFree t fuel c with
  | ok d => exact ⟨d, rfl, scanFree_ok hrun⟩
  | error e =>
      obtain ⟨d, hle, hlt, hfree⟩ := h
      exact absurd hfree (scanFree_none hrun d hle hlt)

/-- The cluster `fat_table_get_next_free_cluster` returns, if it does. -/
def FatTable.nextFree (t : FatTable) : Nat :=
  match scanFree t (t.fatLen - 2) 2 with
  | .ok cluster => if t.IsValidClusterNumber cluster then cluster else fatClusterEndOfChain
  | .error _ => fatClusterEndOfChain

/-- A search that returns. -/
theorem fatTableGetNextFreeCluster_eq_ok {s s' : State} {d : Nat} (h : fatTableGetNextFreeCluster s = .ok d s') :
    s' = s ∧ d = s.table.nextFree := by
  unfold fatTableGetNextFreeCluster at h
  unfold FatTable.nextFree
  rw [Cmd.get_bind] at h
  cases hscan : scanFree s.table (s.table.fatLen - 2) 2 with
  | error e =>
      rw [hscan] at h
      cases h
  | ok cluster =>
      rw [hscan] at h
      simp only at h ⊢
      rw [Cmd.ite_run] at h
      split at h <;> cases h
      · rename_i hv
        exact ⟨rfl, (if_pos hv).symm⟩
      · rename_i hv
        exact ⟨rfl, (if_neg hv).symm⟩

/-- With a free cluster in the table, the first one is found. -/
theorem fatTableGetNextFreeCluster_run {s : State} (h : ∃ c, s.table.IsCluster c ∧ s.table.fatMap c = 0) :
    ∃ c, fatTableGetNextFreeCluster s = .ok c s ∧ s.table.IsCluster c ∧
      s.table.fatMap c = 0 ∧ ∀ d, s.table.IsCluster d → d < c → s.table.fatMap d ≠ 0 := by
  obtain ⟨c, hc, h0⟩ := h
  have htwo := hc.two_le
  have hlen := hc.lt_fatLen
  obtain ⟨d, hrun, h1, h2, h3, hmin⟩ :=
    scanFree_run (t := s.table) (s.table.fatLen - 2) (c := 2) ⟨c, htwo, by omega, h0⟩
  have hdc : d ≤ c := by
    by_contra hlt
    exact hmin c htwo (by omega) h0
  have hd : s.table.IsCluster d :=
    ⟨⟨h1, Nat.lt_of_le_of_lt hdc hc.isValid.2⟩, Nat.lt_of_le_of_lt hdc hlen, Nat.lt_of_le_of_lt hdc hc.lt_eoc⟩
  refine ⟨d, ?_, hd, h3, fun e he hlt => hmin e he.two_le hlt⟩
  unfold fatTableGetNextFreeCluster
  rw [Cmd.get_bind, hrun]
  exact (Cmd.ite_run _ _ _ s).trans (if_pos hd.isValid)

/-- Seeking along a chain whose clusters have entries. -/
theorem seekFrom_run {s : State} {l : List Nat} {start : Nat} (hs : ¬ FatTableIsEoc start)
    (hl : Chain s.table.next (some start) l) (hin : ∀ c ∈ l, c < s.table.fatLen) {k : Nat}
    (hk : k < l.length) : seekFrom k start s = .ok l[k] s := by
  induction k generalizing start l with
  | zero =>
      cases l with
      | nil => cases hk
      | cons a l =>
          cases hl.1
          rfl
  | succ k ih =>
      cases l with
      | nil => cases hk
      | cons a l =>
          obtain ⟨ha, hl⟩ := hl
          cases ha
          have hk' : k < l.length := Nat.lt_of_succ_lt_succ hk
          have hhead := hl.head
          obtain ⟨b, hb⟩ : ∃ b, s.table.next start = some b := by
            rw [hhead]
            exact ⟨l[0], by rw [List.head?_eq_getElem?, List.getElem?_eq_getElem (by omega)]⟩
          rw [seekFrom, if_neg fun heq => hs (.inl heq),
            Cmd.bind_ok (fatTableGetNextCluster_run (hin start List.mem_cons_self)),
            FatTable.nextCluster_eq_of_next hb]
          rw [hb] at hl
          exact ih (FatTable.not_isEoc_of_next hb) hl (fun c hc => hin c (List.mem_cons_of_mem _ hc)) hk'

/-- `fat_table_seek_cluster` inside a chain finds the cluster that holds the byte at the offset. -/
theorem fatTableSeekCluster_run {s : State} {l : List Nat} {start offset : Nat} (hs : ¬ FatTableIsEoc start)
    (hl : Chain s.table.next (some start) l) (hin : ∀ c ∈ l, c < s.table.fatLen)
    (hoff : offset < 2 ^ 32) (hk : offset / s.table.bytesPerCluster < l.length) :
    fatTableSeekCluster start offset s = .ok l[offset / s.table.bytesPerCluster] s := by
  unfold fatTableSeekCluster
  have hlt : offset / s.table.bytesPerCluster < 2 ^ 32 :=
    Nat.lt_of_le_of_lt (Nat.div_le_self _ _) hoff
  rw [Cmd.get_bind, FatTable.shiftRight_eq, Nat.mod_eq_of_lt hlt, seekFrom_run hs hl hin hk]

/-! ## The data of a chain -/

/-- The data clusters of a chain, one after the other. -/
def chainBytes (s : State) (l : List Nat) : List UInt8 :=
  l.flatMap fun c =>
    (List.range s.table.bytesPerCluster).map fun i => s.dev.byte (s.table.clusterOffset c + i)

/-- The device position of a byte of a chain. -/
def filePos (t : FatTable) (l : List Nat) (q : Nat) : Nat :=
  t.clusterOffset (l.getD (q / t.bytesPerCluster) 0) + q % t.bytesPerCluster

/-- The position of a byte from the cluster that holds it. -/
theorem filePos_eq {t : FatTable} {l : List Nat} {q a : Nat}
    (ha : l[q / t.bytesPerCluster]? = some a) :
    filePos t l q = t.clusterOffset a + q % t.bytesPerCluster := by
  rw [filePos, List.getD_eq_getElem?_getD, ha, Option.getD_some]

/-- The data of a chain are as long as its clusters together. -/
theorem length_chainBytes (s : State) (l : List Nat) :
    (chainBytes s l).length = l.length * s.table.bytesPerCluster := by
  induction l with
  | nil => simp [chainBytes]
  | cons c l ih =>
      rw [chainBytes, List.flatMap_cons, List.length_append, List.length_map, List.length_range,
        List.length_cons, Nat.succ_mul, ← ih, Nat.add_comm]
      rfl

/-- The data of two chains in a row are those of one and then of the other. -/
theorem chainBytes_append (s : State) (l m : List Nat) :
    chainBytes s (l ++ m) = chainBytes s l ++ chainBytes s m := List.flatMap_append

/-- A byte of the data of a chain is the device byte at its position. -/
theorem getElem?_chainBytes {s : State} {l : List Nat} {q : Nat}
    (hq : q < l.length * s.table.bytesPerCluster) :
    (chainBytes s l)[q]? = some (s.dev.byte (filePos s.table l q)) := by
  induction l generalizing q with
  | nil => simp at hq
  | cons c l ih =>
      have hB := s.table.bytesPerCluster_pos
      rw [chainBytes, List.flatMap_cons]
      by_cases hlt : q < s.table.bytesPerCluster
      · rw [List.getElem?_append_left (by simpa using hlt)]
        simp [filePos, hlt, Nat.div_eq_of_lt hlt, Nat.mod_eq_of_lt hlt]
      · rw [List.getElem?_append_right (by simpa using Nat.le_of_not_lt hlt), List.length_map,
          List.length_range]
        have hq' : q - s.table.bytesPerCluster < l.length * s.table.bytesPerCluster := by
          rw [List.length_cons, Nat.succ_mul] at hq
          omega
        refine (ih hq').trans ?_
        have hdiv : q / s.table.bytesPerCluster =
            (q - s.table.bytesPerCluster) / s.table.bytesPerCluster + 1 := by
          rw [← Nat.add_div_right _ hB]
          congr 1
          omega
        rw [filePos, filePos, hdiv, List.getD_cons_succ, Nat.mod_eq_sub_mod (Nat.le_of_not_lt hlt)]

/-- The data of a chain depends on the bytes of its clusters only. -/
theorem chainBytes_congr {s s' : State} {l : List Nat} (hv : s.table.SameVolume s'.table)
    (h : ∀ c ∈ l, ∀ i < s.table.bytesPerCluster, s'.dev.byte (s.table.clusterOffset c + i) =
      s.dev.byte (s.table.clusterOffset c + i)) : chainBytes s' l = chainBytes s l := by
  unfold chainBytes
  rw [hv.bytesPerCluster]
  refine List.flatMap_congr fun c hc => List.map_congr_left fun i hi => ?_
  rw [hv.clusterOffset, h c hc i (List.mem_range.mp hi)]

/-- Different positions of a chain are at different places of the device. -/
theorem filePos_inj {t : FatTable} {l : List Nat} (hn : l.Nodup)
    (hv : ∀ c ∈ l, t.IsValidClusterNumber c) {q q' : Nat} (hq : q < l.length * t.bytesPerCluster)
    (hq' : q' < l.length * t.bytesPerCluster) (h : filePos t l q = filePos t l q') : q = q' := by
  have hB := t.bytesPerCluster_pos
  have hk : q / t.bytesPerCluster < l.length := (Nat.div_lt_iff_lt_mul hB).mpr hq
  have hk' : q' / t.bytesPerCluster < l.length := (Nat.div_lt_iff_lt_mul hB).mpr hq'
  rw [filePos_eq (List.getElem?_eq_getElem hk), filePos_eq (List.getElem?_eq_getElem hk')] at h
  obtain ⟨hc, hm⟩ := FatTable.clusterOffset_disjoint (hv _ (List.getElem_mem hk))
    (hv _ (List.getElem_mem hk')) (Nat.mod_lt _ hB) (Nat.mod_lt _ hB) h
  have hdiv := (List.Nodup.getElem_inj_iff hn).mp hc
  rw [← Nat.div_add_mod q t.bytesPerCluster, ← Nat.div_add_mod q' t.bytesPerCluster, hdiv, hm]

end OsLabs.Fat
