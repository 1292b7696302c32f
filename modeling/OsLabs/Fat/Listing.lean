import OsLabs.Lib.Tagged
import OsLabs.Fat.AnyTable
import OsLabs.Fat.CreateFile

/-! # Slots of a directory

A directory is a list of slots, each in one of its clusters. `State.returned s p` is the entry that a
listing returns for the slot `p`, and `State.listing s l` lists these entries for the clusters `l`; it
is what `fat_file_read_children` makes its files of (`fatFileReadChildren_listing`, `State.Lists`). An operation that
rewrites one slot (`SlotWritten`) changes the entry returned for this slot, and, if the slot or the
entry is an end mark, those behind it in the same cluster. -/

namespace OsLabs.Fat

open Cmd

/-- The slots of the clusters `l`: cluster and index. -/
def slots (t : FatTable) (l : List Nat) : List (Nat × Nat) :=
  l.flatMap fun c => (List.range (t.bytesPerCluster / 32)).map fun i => (c, i)

/-- The slots of a directory are the places for entries in its clusters. -/
theorem mem_slots {t : FatTable} {l : List Nat} {p : Nat × Nat} :
    p ∈ slots t l ↔ p.1 ∈ l ∧ p.2 < t.bytesPerCluster / 32 := by
  unfold slots
  rw [List.mem_flatMap]
  constructor
  · rintro ⟨c, hc, hp⟩
    obtain ⟨i, hi, rfl⟩ := List.mem_map.mp hp
    exact ⟨hc, List.mem_range.mp hi⟩
  · rintro ⟨hc, hi⟩
    exact ⟨p.1, hc, List.mem_map.mpr ⟨p.2, List.mem_range.mpr hi, rfl⟩⟩

/-- The slots of two runs of clusters. -/
theorem slots_append (t : FatTable) (l m : List Nat) : slots t (l ++ m) = slots t l ++ slots t m :=
  List.flatMap_append

/-- No end mark comes before slot `i` of the cluster. -/
def State.Reached (s : State) (cluster i : Nat) : Prop :=
  ∀ j < i, ¬ (s.clusterEntry cluster j).IsEndOfDirectory

instance (s : State) (cluster i : Nat) : Decidable (s.Reached cluster i) :=
  inferInstanceAs (Decidable (∀ j < i, _))

/-- The entry that a listing returns for a slot. -/
def State.returned (s : State) (p : Nat × Nat) : Option DirEntry :=
  if s.Reached p.1 (p.2 + 1) ∧ (s.clusterEntry p.1 p.2).Yields then some (s.clusterEntry p.1 p.2)
  else none

/-- The entries that a listing of the clusters `l` returns, with their slots. -/
def State.listing (s : State) (l : List Nat) : List ((Nat × Nat) × DirEntry) :=
  tagged s.returned (slots s.table l)

section Listing

variable {s : State} {l : List Nat} {x : FatFile}

/-- A slot returns its entry where the reader comes to it and accepts it. -/
theorem returned_eq_some {p : Nat × Nat} {e : DirEntry} :
    s.returned p = some e ↔
      s.Reached p.1 (p.2 + 1) ∧ (s.clusterEntry p.1 p.2).Yields ∧ s.clusterEntry p.1 p.2 = e := by
  unfold State.returned
  split_ifs with h
  · simp [h]
  · simp only [false_iff]
    rintro ⟨hreached, hyields, -⟩
    exact h ⟨hreached, hyields⟩

/-- The children of the entries from index `k` on, up to the end mark. -/
theorem childrenOf_cutAtEnd (s : State) (x : FatFile) (c k left : Nat) :
    childrenOf x (cutAtEnd ((List.range' k left).map (s.clusterEntry c))) k =
      (List.range' k left).filterMap fun i =>
        if (∀ j, k ≤ j → j ≤ i → ¬ (s.clusterEntry c j).IsEndOfDirectory) ∧
          (s.clusterEntry c i).Yields then some ((s.clusterEntry c i).childOf x i) else none := by
  induction left generalizing k with
  | zero => rfl
  | succ left ih =>
      rw [List.range'_succ, List.map_cons, cutAtEnd_cons, List.filterMap_cons]
      by_cases hend : (s.clusterEntry c k).IsEndOfDirectory
      · -- nothing behind an end mark
        rw [if_pos hend, childrenOf_nil, if_neg fun h => h.1 k le_rfl le_rfl hend, eq_comm,
          List.filterMap_eq_nil_iff]
        intro i hi
        have hki := (List.mem_range'_1.mp hi).1
        exact if_neg fun h => h.1 k le_rfl (by omega) hend
      · rw [if_neg hend, childrenOf_cons, ih]
        have hrest : ∀ i ∈ List.range' (k + 1) left,
            ((∀ j, k + 1 ≤ j → j ≤ i → ¬ (s.clusterEntry c j).IsEndOfDirectory) ∧
              (s.clusterEntry c i).Yields) ↔
            (∀ j, k ≤ j → j ≤ i → ¬ (s.clusterEntry c j).IsEndOfDirectory) ∧
              (s.clusterEntry c i).Yields := by
          intro i hi
          refine and_congr_left fun _ => ⟨fun h j hkj hji => ?_, fun h j hkj => h j (by omega)⟩
          by_cases hjk : j = k
          · rwa [hjk]
          · exact h j (by omega) hji
        have hself : (∀ j, k ≤ j → j ≤ k → ¬ (s.clusterEntry c j).IsEndOfDirectory) := by
          intro j hkj hjk
          rwa [show j = k by omega]
        rw [List.filterMap_congr (g := fun i =>
          if (∀ j, k ≤ j → j ≤ i → ¬ (s.clusterEntry c j).IsEndOfDirectory) ∧
            (s.clusterEntry c i).Yields then some ((s.clusterEntry c i).childOf x i) else none)
          fun i hi => by simp only [hrest i hi]]
        by_cases hy : (s.clusterEntry c k).Yields
        · rw [if_pos hy, if_pos ⟨hself, hy⟩]
          rfl
        · rw [if_neg hy, if_neg fun h => hy h.2]
          rfl

/-- The children that a listing makes are those of the entries that it returns. -/
theorem childrenOf_listing (s : State) (l : List Nat) (x : FatFile) :
    (l.flatMap fun c => childrenOf x (cutAtEnd (clusterEntries s c)) 0) =
      (s.listing l).map fun p => p.2.childOf x p.1.2 := by
  unfold State.listing tagged slots
  rw [List.filterMap_flatMap, List.map_flatMap]
  refine List.flatMap_congr fun c _ => ?_
  unfold clusterEntries
  rw [List.range_eq_range', childrenOf_cutAtEnd, List.filterMap_map, List.map_filterMap]
  apply List.filterMap_congr
  intro i _
  have hreached : (∀ j, 0 ≤ j → j ≤ i → ¬ (s.clusterEntry c j).IsEndOfDirectory) ↔
      s.Reached c (i + 1) :=
    ⟨fun h j hj => h j (Nat.zero_le j) (Nat.le_of_lt_succ hj), fun h j _ hj => h j (Nat.lt_succ_of_le hj)⟩
  simp only [hreached, Function.comp_apply, State.returned]
  split_ifs with h
  · rfl
  · rfl

/-- The clusters of a directory: its chain up to an end mark, if it starts with a valid cluster number,
with the entries of all of them inside the table. -/
def State.DirClusters (s : State) (x : FatFile) (l : List Nat) : Prop :=
  if s.table.IsValidClusterNumber x.startCluster then
    Chain s.table.next (FatTable.cluster? x.startCluster) l ∧ ∀ c ∈ l, c < s.table.fatLen
  else l = []

/-- The clusters of a directory are the chain from its first one. -/
theorem State.DirClusters.chain (h : s.DirClusters x l) (hv : s.table.IsValidClusterNumber x.startCluster) :
    Chain s.table.next (FatTable.cluster? x.startCluster) l ∧ ∀ c ∈ l, c < s.table.fatLen := by
  unfold State.DirClusters at h
  rwa [if_pos hv] at h

/-- The clusters of a directory have valid numbers. -/
theorem State.DirClusters.valid (h : s.DirClusters x l) {c : Nat} (hc : c ∈ l) :
    s.table.IsValidClusterNumber c := by
  unfold State.DirClusters at h
  split_ifs at h with hv
  · have hchain := h.1
    by_cases hend : FatTableIsEoc x.startCluster
    · rw [FatTable.cluster?_eq_none.mpr hend] at hchain
      obtain rfl : l = [] := hchain.unique rfl
      cases hc
    · rw [FatTable.cluster?_of_not_isEoc hend] at hchain
      exact FatTable.valid_of_chain hv hchain hc
  · rw [h] at hc
    cases hc

/-- A directory whose first cluster is one of its clusters starts with a valid number that is no end mark. -/
theorem State.DirClusters.start_mem_iff (hl : s.DirClusters x l) :
    x.startCluster ∈ l ↔
      s.table.IsValidClusterNumber x.startCluster ∧ ¬ FatTableIsEoc x.startCluster := by
  constructor
  · intro hmem
    have hv := hl.valid hmem
    exact ⟨hv, FatTable.not_isEoc_of_chain
      (fun c hc => (FatTable.cluster?_eq_some.mp hc).1) (hl.chain hv).1 _ hmem⟩
  · rintro ⟨hv, hend⟩
    have hchain := (hl.chain hv).1
    rw [FatTable.cluster?_of_not_isEoc hend] at hchain
    exact List.mem_of_mem_head? (Option.mem_def.mpr hchain.head.symm)

/-- A directory has one run of clusters. -/
theorem State.DirClusters.unique {m : List Nat} (hl : s.DirClusters x l) (hm : s.DirClusters x m) :
    l = m := by
  unfold State.DirClusters at hl hm
  split_ifs at hl hm
  · exact hl.1.unique hm.1
  · rw [hl, hm]

/-- What `fat_file_read_children` returns: the children of the entries of the listing, in order. -/
theorem fatFileReadChildren_listing (env : Env) {dir : Nat} (hio : s.IoOk)
    (hx : s.files.cell dir = some x) (hl : s.DirClusters x l) :
    ∃ cs s', fatFileReadChildren env dir s = .ok cs s' ∧
      cs.map s'.files.cell = (s.listing l).map fun p => some (p.2.childOf x p.1.2) := by
  by_cases hv : s.table.IsValidClusterNumber x.startCluster
  · obtain ⟨hchain, hin⟩ := hl.chain hv
    obtain ⟨cs, s', x', hrun, -, -, hlisted⟩ := fatFileReadChildren_run env hio hx hv hchain hin
    refine ⟨cs, s', hrun, ?_⟩
    rw [hlisted.made, childrenOf_listing, List.map_map]
    rfl
  · unfold State.DirClusters at hl
    rw [if_neg hv] at hl
    refine ⟨[], { s with errno := eio }, ?_, ?_⟩
    · unfold fatFileReadChildren
      rw [bind_ok (readFile_run hx), get_bind, if_pos hv]
      rfl
    · rw [hl]
      rfl

/-- `es` are the entries of the directory `dir`, each with its slot: when no device call fails,
`fat_file_read_children` returns a child for each of them, in order. -/
structure State.Lists (s : State) (dir : Nat) (es : List ((Nat × Nat) × DirEntry)) : Prop where
  entries : ∃ x l, s.files.cell dir = some x ∧ s.DirClusters x l ∧ es = s.listing l
  returned : ∀ env, ∃ x cs t, s.files.cell dir = some x ∧
    fatFileReadChildren env dir { s with io := [] } = .ok cs t ∧
      cs.map t.files.cell = es.map fun p => some (p.2.childOf x p.1.2)

/-- The listing of its clusters is what the reader returns of a directory. -/
theorem State.DirClusters.lists {dir : Nat} (hl : s.DirClusters x l) (hx : s.files.cell dir = some x) :
    s.Lists dir (s.listing l) := by
  refine ⟨⟨x, l, hx, hl, rfl⟩, fun env => ?_⟩
  obtain ⟨cs, t, hrun, hmade⟩ := fatFileReadChildren_listing (s := { s with io := [] }) env
    (fun _ hr => absurd hr List.not_mem_nil) hx hl
  exact ⟨x, cs, t, hx, hrun, hmade⟩

/-- A directory with these clusters has one list of entries. -/
theorem State.Lists.eq_listing {dir : Nat} {es : List ((Nat × Nat) × DirEntry)} (h : s.Lists dir es)
    (hx : s.files.cell dir = some x) (hl : s.DirClusters x l) : es = s.listing l := by
  obtain ⟨x', l', hx', hl', rfl⟩ := h.entries
  rw [hx] at hx'
  cases hx'
  rw [hl.unique hl']

end Listing

/-! ## Rewriting a slot -/

/-- From `s` to `u` the entry `m` was stored in slot `k` of the cluster `c`, and no other slot of the
clusters `l` changed. -/
structure SlotWritten (l : List Nat) (c k : Nat) (m : DirEntry) (s u : State) : Prop where
  slot : c ∈ l → u.clusterEntry c k = m
  others : ∀ d ∈ l, ∀ i < s.table.bytesPerCluster / 32, (d, i) ≠ (c, k) →
    u.clusterEntry d i = s.clusterEntry d i

section SlotWritten

variable {s u : State} {l : List Nat} {c k d i : Nat} {m e : DirEntry}

/-- A write of 32 bytes at a slot, and nowhere else in the data area. -/
theorem slotWritten_of_byte (hsame : s.table.SameVolume u.table)
    (hl : ∀ d ∈ l, s.table.IsValidClusterNumber d ∧ s.table.IsValidClusterNumber c)
    (hk : k < s.table.bytesPerCluster / 32)
    (hbyte : ∀ i, s.table.dataStartOffset ≤ i → u.dev.byte i =
      if k * 32 + s.table.clusterOffset c ≤ i ∧ i < k * 32 + s.table.clusterOffset c + 32 then
        m.byte (i - (k * 32 + s.table.clusterOffset c)) else s.dev.byte i) :
    SlotWritten l c k m s u := by
  have hcap := Nat.div_mul_le_self s.table.bytesPerCluster 32
  have hstart {d : Nat} (hd : d ∈ l) (i : Nat) : s.table.dataStartOffset ≤ s.table.clusterOffset d + i := by
    rw [FatTable.clusterOffset_eq (hl d hd).1]
    omega
  constructor
  · intro hc
    unfold State.clusterEntry
    apply Vector.ext
    intro j hj
    rw [Vector.getElem_ofFn, hsame.clusterOffset, hbyte _ (hstart hc _), if_pos (by omega)]
    rw [show s.table.clusterOffset c + (32 * k + j) - (k * 32 + s.table.clusterOffset c) = j by omega]
    simp [DirEntry.byte, hj]
  · intro d hd i hi hne
    unfold State.clusterEntry
    congr 1
    funext j
    have hj := j.isLt
    rw [hsame.clusterOffset, hbyte _ (hstart hd _), if_neg]
    rintro ⟨hle, hlt⟩
    obtain ⟨r, hr⟩ := Nat.exists_eq_add_of_le hle
    obtain ⟨rfl, heq⟩ := FatTable.clusterOffset_disjoint (i := 32 * i + j) (j := 32 * k + r) (hl d hd).1
      (hl d hd).2 (by omega) (by omega) (by omega)
    exact hne (by rw [show i = k by omega])

/-- The entries of the cluster of the slot. -/
theorem SlotWritten.clusterEntries_eq (h : SlotWritten l c k m s u) (hc : c ∈ l)
    (hcap : u.table.bytesPerCluster = s.table.bytesPerCluster) :
    clusterEntries u c = (clusterEntries s c).set k m := by
  apply List.ext_getElem
  · simp [clusterEntries, hcap]
  · intro i hi hi'
    have hlt : i < s.table.bytesPerCluster / 32 := by simpa [clusterEntries, hcap] using hi
    rw [List.getElem_set]
    by_cases hik : k = i
    · subst hik
      rw [if_pos rfl]
      simpa [clusterEntries] using h.slot hc
    · rw [if_neg hik]
      simpa [clusterEntries] using h.others c hc i hlt fun heq => hik (Prod.mk.inj heq).2.symm

/-- The entries of another cluster. -/
theorem SlotWritten.clusterEntries_ne (h : SlotWritten l c k m s u) (hd : d ∈ l) (hne : d ≠ c)
    (hcap : u.table.bytesPerCluster = s.table.bytesPerCluster) :
    clusterEntries u d = clusterEntries s d := by
  unfold clusterEntries
  rw [hcap]
  refine List.map_congr_left fun i hi => h.others d hd i (List.mem_range.mp hi) ?_
  exact fun heq => hne (Prod.mk.inj heq).1

/-- The slot of another cluster, or one ahead of it, is returned as before. -/
theorem SlotWritten.returned_ne (h : SlotWritten l c k m s u) (hd : d ∈ l)
    (hi : i < s.table.bytesPerCluster / 32) (hne : d ≠ c ∨ i < k) :
    u.returned (d, i) = s.returned (d, i) := by
  have hentry : ∀ j ≤ i, u.clusterEntry d j = s.clusterEntry d j := by
    intro j hj
    refine h.others d hd j (by omega) fun heq => ?_
    obtain ⟨rfl, rfl⟩ := Prod.mk.inj heq
    omega
  have hreached : u.Reached d (i + 1) ↔ s.Reached d (i + 1) := by
    refine forall₂_congr fun j hj => ?_
    rw [hentry j (by omega)]
  unfold State.returned
  simp only [hreached, hentry i le_rfl]

/-- The slot itself. -/
theorem SlotWritten.returned_self (h : SlotWritten l c k m s u) (hc : c ∈ l)
    (hk : k < s.table.bytesPerCluster / 32) :
    u.returned (c, k) = some e ↔ s.Reached c k ∧ ¬ m.IsEndOfDirectory ∧ m.Yields ∧ m = e := by
  have hreached : u.Reached c (k + 1) ↔ s.Reached c k ∧ ¬ m.IsEndOfDirectory := by
    constructor
    · intro hall
      refine ⟨fun j hj => ?_, ?_⟩
      · rw [← h.others c hc j (by omega) fun heq => by cases heq; omega]
        exact hall j (by omega)
      · rw [← h.slot hc]
        exact hall k (by omega)
    · rintro ⟨hall, hm⟩ j hj
      by_cases hjk : j = k
      · rw [hjk, h.slot hc]
        exact hm
      · rw [h.others c hc j (by omega) fun heq => hjk (Prod.mk.inj heq).2]
        exact hall j (by omega)
  rw [returned_eq_some, hreached, h.slot hc, and_assoc]

/-- A slot behind it. -/
theorem SlotWritten.returned_behind (h : SlotWritten l c k m s u) (hc : c ∈ l)
    (hi : i < s.table.bytesPerCluster / 32) (hki : k < i) :
    u.returned (c, i) = some e ↔
      (∀ j < i + 1, j ≠ k → ¬ (s.clusterEntry c j).IsEndOfDirectory) ∧ ¬ m.IsEndOfDirectory ∧
        (s.clusterEntry c i).Yields ∧ s.clusterEntry c i = e := by
  have hother (j : Nat) (hj : j < i + 1) (hjk : j ≠ k) : u.clusterEntry c j = s.clusterEntry c j :=
    h.others c hc j (by omega) fun heq => hjk (Prod.mk.inj heq).2
  have hreached : u.Reached c (i + 1) ↔
      (∀ j < i + 1, j ≠ k → ¬ (s.clusterEntry c j).IsEndOfDirectory) ∧ ¬ m.IsEndOfDirectory := by
    constructor
    · intro hall
      refine ⟨fun j hj hjk => ?_, ?_⟩
      · rw [← hother j hj hjk]
        exact hall j hj
      · rw [← h.slot hc]
        exact hall k (by omega)
    · rintro ⟨hall, hm⟩ j hj
      by_cases hjk : j = k
      · rw [hjk, h.slot hc]
        exact hm
      · rw [hother j hj hjk]
        exact hall j hj hjk
  rw [returned_eq_some, hreached, hother i (by omega) (by omega), and_assoc]

end SlotWritten

end OsLabs.Fat
