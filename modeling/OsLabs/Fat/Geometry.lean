import OsLabs.Fat.Volume

/-! # The geometry a mount accepts

`read_boot_sector` derives the number of data clusters from the header, and every later bounds check
of the program is made against that number. A geometry is consistent when the clusters it admits
have their entries in the mapped table and their data inside the declared size of the volume, and
when no 32-bit computation behind it wraps.

* `BootInfo.Checked`: what the checks of `read_boot_sector` establish;
* `geometryConsistent_iff`: the exact relation between header fields that makes an accepted geometry
  consistent. -/

namespace OsLabs.Fat

/-! ## Accepted headers -/

/-- `total_sectors_32`, which `read_boot_sector` does not use. -/
def totalSectors32 (buf : Nat → UInt8) : Nat := bootU32 buf 32

/-- The declared size of the volume in sectors: the 16-bit field, or the 32-bit one if that is
`0`. -/
def declaredSectors (buf : Nat → UInt8) (vol : BootInfo) : Nat :=
  if vol.totalSectors ≠ 0 then vol.totalSectors else totalSectors32 buf

namespace BootInfo

/-- The sectors of the root directory area of older formats. -/
def rootSectors (vol : BootInfo) : Nat := (vol.maxRootEntries <<< 5) >>> vol.sectorOrder

/-- The sectors behind the reserved ones and the root directory area. -/
def dataSectors (vol : BootInfo) : Nat :=
  vol.totalSectors - (vol.reservedSectors + vol.rootSectors)

/-- What holds of the fields of an accepted header. -/
structure Checked (vol : BootInfo) : Prop where
  sectorOrder_ge : 5 ≤ vol.sectorOrder
  sectorOrder_le : vol.sectorOrder ≤ 12
  bytesPerSector_eq : vol.bytesPerSector = 2 ^ vol.sectorOrder
  sectorsPerClusterOrder_le : vol.sectorsPerClusterOrder ≤ 7
  sectorsPerCluster_eq : vol.sectorsPerCluster = 2 ^ vol.sectorsPerClusterOrder
  clusterOrder_eq : vol.clusterOrder = vol.sectorOrder + vol.sectorsPerClusterOrder
  totalSectors_lt : vol.totalSectors < 2 ^ 16
  reservedSectors_lt : vol.reservedSectors < 2 ^ 16
  maxRootEntries_lt : vol.maxRootEntries < 2 ^ 16
  numDataClusters_eq : vol.numDataClusters =
    (vol.totalSectors + 2 ^ 32 - vol.reservedSectors + 2 ^ 32 - vol.rootSectors) % 2 ^ 32
      / vol.sectorsPerCluster

end BootInfo

/-- A power of two is two to the position of its highest bit. -/
theorem eq_two_pow_bsr {n : Nat} (h : IsPowerOf2 n) : n = 2 ^ bsr n := by
  obtain ⟨k, hk⟩ := Nat.ne_zero_and_sub_one_eq_zero_iff_isPowerOfTwo.mp ⟨h.2, h.1⟩
  rw [bsr, hk, Nat.log2_two_pow]

/-- A field of two bytes has 16 bits. -/
theorem bootU16_lt (buf : Nat → UInt8) (i : Nat) : bootU16 buf i < 2 ^ 16 := by
  have h0 := (buf (i + 0)).toNat_lt
  have h1 := (buf (i + 1)).toNat_lt
  simp only [bootU16, le16OfBytes]
  omega

/-- The checks of `read_boot_sector`, read back from its result. -/
theorem readBootSector_checked {buf : Nat → UInt8} {vol : BootInfo}
    (h : readBootSector buf = some vol) : vol.Checked := by
  simp only [readBootSector, Option.bind_eq_bind, Option.bind_eq_some_iff, Option.some.injEq] at h
  obtain ⟨vol1, h1, vol2, h2, rfl⟩ := h
  simp only [readDos20Bpb] at h1
  split_ifs at h1 with hs hc ht
  simp only [Option.some.injEq] at h1
  simp only [readFat32Ebpb] at h2
  split_ifs at h2
  all_goals
    simp only [Option.some.injEq] at h2
    subst h1 h2
    have hsector : IsPowerOf2 (bootU16 buf 11) := by tauto
    have hcluster : IsPowerOf2 (bootU8 buf 13) := by tauto
    refine ⟨by dsimp only; omega, by dsimp only; omega, eq_two_pow_bsr hsector,
      by dsimp only; omega, eq_two_pow_bsr hcluster, rfl, bootU16_lt _ _, bootU16_lt _ _,
      bootU16_lt _ _, ?_⟩
    show _ >>> bsr (bootU8 buf 13) = _
    rw [Nat.shiftRight_eq_div_pow, ← eq_two_pow_bsr hcluster]
    rfl

/-! ## Consistency -/

/-- The geometry computed from a header is consistent. -/
structure GeometryConsistent (image : Nat → UInt8) (vol : BootInfo) : Prop where
  /-- The entry of every valid cluster is mapped. -/
  entryMapped : ∀ cluster, (tableOfBoot vol image).IsValidClusterNumber cluster →
    4 * cluster + 4 ≤ vol.sectorsPerFat <<< vol.sectorOrder
  /-- The data of every valid cluster lies inside the declared size. -/
  dataInside : ∀ cluster, (tableOfBoot vol image).IsValidClusterNumber cluster →
    (tableOfBoot vol image).clusterOffset cluster + (tableOfBoot vol image).bytesPerCluster ≤
      declaredSectors image vol * vol.bytesPerSector
  /-- The subtractions behind `num_data_clusters` do not wrap. -/
  dataSectors_noWrap : vol.reservedSectors + vol.rootSectors ≤ vol.totalSectors
  /-- The sum behind `data_start_offset` does not wrap. -/
  dataStart_noWrap : vol.numTables * vol.sectorsPerFat + vol.reservedSectors +
    (vol.maxRootEntries >>> (vol.sectorOrder - 5)) < 2 ^ 32

/-- The header leaves room: reserved sectors and root directory area fit the 16-bit size, the sectors
before the data can be counted in 32 bits, and unless what is left is smaller than a cluster, the
table has an entry for every cluster in it and all copies of the table fit in the sectors left over
after dividing it into clusters. -/
structure HeaderLeavesRoom (vol : BootInfo) : Prop where
  areas : vol.reservedSectors + vol.rootSectors ≤ vol.totalSectors
  start : vol.numTables * vol.sectorsPerFat + vol.reservedSectors + vol.rootSectors < 2 ^ 32
  clusters : vol.dataSectors < vol.sectorsPerCluster ∨
    4 * (vol.dataSectors / vol.sectorsPerCluster + 2) ≤ vol.sectorsPerFat * vol.bytesPerSector ∧
      vol.numTables * vol.sectorsPerFat ≤ vol.dataSectors % vol.sectorsPerCluster

namespace BootInfo.Checked

variable {vol : BootInfo}

/-- A checked volume has clusters of a sector at least. -/
theorem sectorsPerCluster_pos (hv : vol.Checked) : 0 < vol.sectorsPerCluster := by
  rw [hv.sectorsPerCluster_eq]
  exact Nat.two_pow_pos _

/-- A checked volume has sectors that are not empty. -/
theorem bytesPerSector_pos (hv : vol.Checked) : 0 < vol.bytesPerSector := by
  rw [hv.bytesPerSector_eq]
  exact Nat.two_pow_pos _

/-- The two ways the source computes the size of the root directory area agree. -/
theorem rootSectors_eq (hv : vol.Checked) :
    vol.maxRootEntries >>> (vol.sectorOrder - 5) = vol.rootSectors := by
  obtain ⟨k, hk⟩ : ∃ k, vol.sectorOrder = k + 5 :=
    ⟨vol.sectorOrder - 5, by have := hv.sectorOrder_ge; omega⟩
  rw [BootInfo.rootSectors, hk, Nat.add_sub_cancel, Nat.shiftRight_eq_div_pow,
    Nat.shiftRight_eq_div_pow, Nat.shiftLeft_eq, Nat.pow_add, Nat.mul_div_mul_right]
  decide

/-- Without a wrap, the number of data clusters is that of the data sectors. -/
theorem numDataClusters_of_le (hv : vol.Checked)
    (h : vol.reservedSectors + vol.rootSectors ≤ vol.totalSectors) :
    vol.numDataClusters = vol.dataSectors / vol.sectorsPerCluster := by
  have := hv.totalSectors_lt
  rw [hv.numDataClusters_eq, BootInfo.dataSectors]
  congr 1
  omega

/-- The size of a cluster is that of its sectors together, computed without overflow. -/
theorem bytesPerCluster_eq (hv : vol.Checked) (image : Nat → UInt8) :
    (tableOfBoot vol image).bytesPerCluster = vol.sectorsPerCluster * vol.bytesPerSector := by
  show 1 <<< vol.clusterOrder = _
  rw [Nat.one_shiftLeft, hv.clusterOrder_eq, hv.sectorsPerCluster_eq, hv.bytesPerSector_eq,
    Nat.pow_add, Nat.mul_comm]

/-- Without a wrap, the clusters after the first one follow the sectors before the data. -/
theorem clusterOffset_add_two (hv : vol.Checked) (image : Nat → UInt8) {cluster : Nat}
    (hc : cluster < 2 ^ 32)
    (h : vol.numTables * vol.sectorsPerFat + vol.reservedSectors + vol.rootSectors < 2 ^ 32) :
    (tableOfBoot vol image).clusterOffset (cluster + 2) =
      (vol.numTables * vol.sectorsPerFat + vol.reservedSectors + vol.rootSectors +
        cluster * vol.sectorsPerCluster) * vol.bytesPerSector := by
  show (_ % 2 ^ 32) <<< vol.sectorOrder + _ <<< vol.clusterOrder = _
  rw [hv.rootSectors_eq, Nat.mod_eq_of_lt h, Nat.shiftLeft_eq, Nat.shiftLeft_eq,
    hv.clusterOrder_eq, Nat.pow_add, ← hv.sectorsPerCluster_eq, ← hv.bytesPerSector_eq]
  have : (cluster + 2 + 2 ^ 32 - 2) % 2 ^ 32 = cluster := by omega
  rw [this]
  ring

/-- Without a wrap, the valid clusters are as many as fit in the data sectors. -/
theorem isValidClusterNumber_iff (hv : vol.Checked) (image : Nat → UInt8) (cluster : Nat)
    (h : vol.reservedSectors + vol.rootSectors ≤ vol.totalSectors) :
    (tableOfBoot vol image).IsValidClusterNumber cluster ↔
      ∃ k < vol.dataSectors / vol.sectorsPerCluster, cluster = k + 2 := by
  have hlt : vol.dataSectors / vol.sectorsPerCluster < 2 ^ 16 := by
    have := hv.totalSectors_lt
    have := Nat.div_le_self vol.dataSectors vol.sectorsPerCluster
    have : vol.dataSectors ≤ vol.totalSectors := Nat.sub_le _ _
    omega
  show 2 ≤ cluster ∧ cluster < (vol.numDataClusters + 2) % 2 ^ 32 ↔ _
  rw [hv.numDataClusters_of_le h]
  generalize vol.dataSectors / vol.sectorsPerCluster = n at hlt ⊢
  constructor
  · rintro ⟨h2, hc⟩
    exact ⟨cluster - 2, by omega, by omega⟩
  · rintro ⟨k, hk, rfl⟩
    omega

/-- The data of the `k`-th cluster ends inside the declared size exactly when the sectors up to
there do. -/
theorem dataInside_iff (hv : vol.Checked) (image : Nat → UInt8) {k : Nat} (hk : k < 2 ^ 16)
    (h : vol.numTables * vol.sectorsPerFat + vol.reservedSectors + vol.rootSectors < 2 ^ 32) :
    (tableOfBoot vol image).clusterOffset (k + 2) + (tableOfBoot vol image).bytesPerCluster ≤
        vol.totalSectors * vol.bytesPerSector ↔
      vol.numTables * vol.sectorsPerFat + vol.reservedSectors + vol.rootSectors +
        (k + 1) * vol.sectorsPerCluster ≤ vol.totalSectors := by
  rw [hv.clusterOffset_add_two image (by omega) h, hv.bytesPerCluster_eq, ← Nat.add_mul,
    Nat.mul_le_mul_right_iff hv.bytesPerSector_pos, Nat.add_assoc, ← Nat.succ_mul]

end BootInfo.Checked

/-- An accepted header gives a consistent geometry exactly when it leaves room. -/
theorem geometryConsistent_iff {image : Nat → UInt8} {vol : BootInfo}
    (h : readBootSector image = some vol) :
    GeometryConsistent image vol ↔ HeaderLeavesRoom vol := by
  have hv := readBootSector_checked h
  have hdiv := Nat.div_add_mod vol.dataSectors vol.sectorsPerCluster
  have hfat : vol.sectorsPerFat <<< vol.sectorOrder = vol.sectorsPerFat * vol.bytesPerSector := by
    rw [Nat.shiftLeft_eq, hv.bytesPerSector_eq]
  have htotal := hv.totalSectors_lt
  constructor
  · intro hg
    have hstart := hg.dataStart_noWrap
    rw [hv.rootSectors_eq] at hstart
    refine ⟨hg.dataSectors_noWrap, hstart, ?_⟩
    by_cases hlt : vol.dataSectors < vol.sectorsPerCluster
    · exact .inl hlt
    · -- the last cluster decides both bounds
      obtain ⟨k, hk⟩ : ∃ k, vol.dataSectors / vol.sectorsPerCluster = k + 1 :=
        Nat.exists_eq_succ_of_ne_zero fun h0 =>
          hlt ((Nat.div_eq_zero_iff_lt hv.sectorsPerCluster_pos).mp h0)
      have hvalid := (hv.isValidClusterNumber_iff image (k + 2) hg.dataSectors_noWrap).mpr
        ⟨k, by omega, rfl⟩
      have hentry := hg.entryMapped _ hvalid
      have hdata := hg.dataInside _ hvalid
      have hdata_le : vol.dataSectors ≤ vol.totalSectors := Nat.sub_le _ _
      have hk16 : k < 2 ^ 16 := by
        have := Nat.div_le_self vol.dataSectors vol.sectorsPerCluster
        omega
      have hpos : vol.totalSectors ≠ 0 := by
        have := hv.sectorsPerCluster_pos
        omega
      rw [declaredSectors, if_pos hpos, hv.dataInside_iff image hk16 hstart] at hdata
      rw [hk, Nat.mul_comm] at hdiv
      rw [hfat] at hentry
      refine .inr ⟨by rw [hk]; omega, ?_⟩
      have : vol.dataSectors = vol.totalSectors - (vol.reservedSectors + vol.rootSectors) := rfl
      omega
  · intro hr
    refine ⟨fun cluster hc => ?_, fun cluster hc => ?_, hr.areas, ?_⟩
    · obtain ⟨k, hk, rfl⟩ := (hv.isValidClusterNumber_iff image cluster hr.areas).mp hc
      rcases hr.clusters with hlt | ⟨hroom, -⟩
      · rw [Nat.div_eq_of_lt hlt] at hk
        omega
      · rw [hfat]
        omega
    · obtain ⟨k, hk, rfl⟩ := (hv.isValidClusterNumber_iff image cluster hr.areas).mp hc
      rcases hr.clusters with hlt | ⟨-, hroom⟩
      · rw [Nat.div_eq_of_lt hlt] at hk
        omega
      · have hle : (k + 1) * vol.sectorsPerCluster ≤
            vol.sectorsPerCluster * (vol.dataSectors / vol.sectorsPerCluster) := by
          rw [Nat.mul_comm]
          exact Nat.mul_le_mul_left _ hk
        have hpos : 0 < (k + 1) * vol.sectorsPerCluster :=
          Nat.mul_pos (Nat.succ_pos k) hv.sectorsPerCluster_pos
        have hareas := hr.areas
        have hdata : vol.dataSectors =
            vol.totalSectors - (vol.reservedSectors + vol.rootSectors) := rfl
        have hk16 : k < 2 ^ 16 := by
          have := Nat.div_le_self vol.dataSectors vol.sectorsPerCluster
          omega
        rw [declaredSectors, if_pos (by omega), hv.dataInside_iff image hk16 hr.start]
        omega
    · rw [hv.rootSectors_eq]
      exact hr.start

/-! ## Two headers -/

/-- A small header that leaves room: 512-byte sectors, two sectors a cluster, one reserved sector,
one table of one sector, six sectors in all. -/
def roomyHeader : Nat → UInt8
  | 12 => 2 | 13 => 2 | 14 => 1 | 16 => 1 | 19 => 6 | 22 => 1 | 44 => 2
  | _ => 0

/-- The header of an ordinary volume: 512-byte sectors, one sector a cluster, 32 reserved sectors,
two tables of 520 sectors each, and 67592 sectors in all, in the 32-bit field. -/
def ordinaryHeader : Nat → UInt8
  | 12 => 2 | 13 => 1 | 14 => 32 | 16 => 2 | 32 => 8 | 33 => 8 | 34 => 1 | 36 => 8 | 37 => 2
  | 44 => 2
  | _ => 0

/-- The fields read from `roomyHeader`. -/
def roomyBoot : BootInfo :=
  ⟨512, 9, 2, 1, 10, 1, 1, 0, 6, 1, 0, 2, 0, 2⟩

/-- The fields read from `ordinaryHeader`; the number of clusters has wrapped. -/
def ordinaryBoot : BootInfo :=
  ⟨512, 9, 1, 0, 9, 32, 2, 0, 0, 520, 0, 2, 0, 2 ^ 32 - 32⟩

/-- The small header has a consistent geometry. -/
theorem geometryConsistent_roomyHeader : GeometryConsistent roomyHeader roomyBoot :=
  (geometryConsistent_iff (by decide +kernel)).mpr ⟨by decide, by decide, .inr (by decide)⟩

/-- A mount accepts headers whose geometry is not consistent. -/
theorem not_geometryConsistent_of_readBootSector : ¬ ∀ (image : Nat → UInt8) (vol : BootInfo),
    readBootSector image = some vol → GeometryConsistent image vol := by
  intro h
  have hg := h ordinaryHeader ordinaryBoot (by decide +kernel)
  exact absurd hg.dataSectors_noWrap (by decide)

end OsLabs.Fat
