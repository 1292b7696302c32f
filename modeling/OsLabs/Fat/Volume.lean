import OsLabs.Fat.FsTree

/-! # Mounting a volume (`fat_volume.c`) -/

namespace OsLabs.Fat

/-! ## The boot sector -/

/-- The fields of `struct fat_volume_s` and of its table that `read_boot_sector` fills from the
header and that the program goes on to use. -/
structure BootInfo where
  bytesPerSector : Nat
  sectorOrder : Nat
  sectorsPerCluster : Nat
  sectorsPerClusterOrder : Nat
  clusterOrder : Nat
  reservedSectors : Nat
  numTables : Nat
  maxRootEntries : Nat
  totalSectors : Nat
  sectorsPerFat : Nat
  version : Nat
  rootDirStartCluster : Nat
  fsInfoSector : Nat
  numDataClusters : Nat
  deriving DecidableEq

/-- A `u8` of the boot sector. -/
def bootU8 (buf : Nat → UInt8) (i : Nat) : Nat := (buf i).toNat

/-- A `le16` of the boot sector. -/
def bootU16 (buf : Nat → UInt8) (i : Nat) : Nat := le16OfBytes fun k => buf (i + k)

/-- A `le32` of the boot sector. -/
def bootU32 (buf : Nat → UInt8) (i : Nat) : Nat := le32OfBytes fun k => buf (i + k)

/-- `is_power_of_2`. -/
def IsPowerOf2 (n : Nat) : Prop := n &&& (n - 1) = 0 ∧ n ≠ 0

instance (n : Nat) : Decidable (IsPowerOf2 n) := inferInstanceAs (Decidable (_ ∧ _))

/-- `bsr`: the position of the highest bit. -/
def bsr (n : Nat) : Nat := n.log2

/-- `read_dos_2_0_bpb`; the result `none` is `-1`. -/
def readDos20Bpb (buf : Nat → UInt8) : Option BootInfo :=
  let bytesPerSector := bootU16 buf 11
  let sectorOrder := bsr bytesPerSector
  if ¬ IsPowerOf2 bytesPerSector ∨ sectorOrder < 5 ∨ sectorOrder > 12 then none
  else
    let sectorsPerCluster := bootU8 buf 13
    let sectorsPerClusterOrder := bsr sectorsPerCluster
    if ¬ IsPowerOf2 sectorsPerCluster ∨ sectorsPerClusterOrder > 7 then none
    else
      let numTables := bootU8 buf 16
      if numTables ≠ 1 ∧ numTables ≠ 2 then none
      else
        some
          { bytesPerSector := bytesPerSector
            sectorOrder := sectorOrder
            sectorsPerCluster := sectorsPerCluster
            sectorsPerClusterOrder := sectorsPerClusterOrder
            clusterOrder := sectorOrder + sectorsPerClusterOrder
            reservedSectors := bootU16 buf 14
            numTables := numTables
            maxRootEntries := bootU16 buf 17
            totalSectors := bootU16 buf 19
            sectorsPerFat := bootU16 buf 22
            version := 0
            rootDirStartCluster := 0
            fsInfoSector := 0
            numDataClusters := 0 }

/-- `read_fat32_ebpb`; the result `none` is `-1`. -/
def readFat32Ebpb (vol : BootInfo) (buf : Nat → UInt8) : Option BootInfo :=
  let sectorsPerFat32 := bootU32 buf 36
  let sectorsPerFat := if sectorsPerFat32 ≠ 0 then sectorsPerFat32 else vol.sectorsPerFat
  if sectorsPerFat32 ≠ 0 ∧
      (sectorsPerFat <<< vol.sectorOrder % 2 ^ 64) >>> vol.sectorOrder ≠ sectorsPerFat then none
  else
    let version := bootU16 buf 42
    if version ≠ 0 then none
    else
      let rootDirStartCluster := bootU32 buf 44
      if rootDirStartCluster = 0 then none
      else
        let fsInfoSector := if bootU16 buf 48 = 0xffff then 0 else bootU16 buf 48
        if fsInfoSector ≠ 0 ∧ vol.sectorOrder < 9 then none
        else
          some
            { vol with
              sectorsPerFat := sectorsPerFat
              version := version
              rootDirStartCluster := rootDirStartCluster
              fsInfoSector := fsInfoSector }

/-- `read_boot_sector` on the 128 bytes it reads; the result `none` is `-1`. The number of data
sectors is computed in 32 bits, from `total_sectors` alone. -/
def readBootSector (buf : Nat → UInt8) : Option BootInfo := do
  let vol ← readDos20Bpb buf
  let vol ← readFat32Ebpb vol buf
  let rootSectors := (vol.maxRootEntries <<< 5) >>> vol.sectorOrder
  let numDataSectors :=
    (vol.totalSectors + 2 ^ 32 - vol.reservedSectors + 2 ^ 32 - rootSectors) % 2 ^ 32
  some { vol with numDataClusters := numDataSectors >>> vol.sectorsPerClusterOrder }

/-! ## The table and the root directory -/

/-- `map_fat` and the computation of `data_start_offset`: the table over a device image. The sum of
sectors is computed in 32 bits. -/
def tableOfBoot (vol : BootInfo) (image : Nat → UInt8) : FatTable :=
  let fatOffset := vol.reservedSectors <<< vol.sectorOrder
  { fatMap := fun c => le32OfBytes fun k => image (fatOffset + 4 * c + k)
    fatLen := vol.sectorsPerFat <<< vol.sectorOrder / 4
    fatOffset := fatOffset
    numDataClusters := vol.numDataClusters
    dataStartOffset :=
      ((vol.numTables * vol.sectorsPerFat + vol.reservedSectors +
        (vol.maxRootEntries >>> (vol.sectorOrder - 5))) % 2 ^ 32) <<< vol.sectorOrder
    clusterOrder := vol.clusterOrder }

/-- `init_root_dir` and `init_file_tree`. -/
def initFileTree (env : Env) (rootDirStartCluster : Nat) : M PUnit := do
  let rootEntry ← fatFileInitDirentry env true rootPath rootDirStartCluster
  let rootDir ← fatFileInitEmpty rootPath
  updateFile rootDir fun f =>
    { f with dentry := some rootEntry, startCluster := rootDirStartCluster }
  modify fun s => { s with fileTree := some none }
  fatTreeInsert none (some rootDir)

/-- The process before `fat_volume_mount` builds the file tree: the table is mapped, the heaps are
empty, and `io` lists the results of the device calls to come. -/
def bareState (table : FatTable) (image : Nat → UInt8) (io : List IoResult) : State where
  nodes := Heap.empty
  store := Heap.empty
  errno := 0
  dev := ⟨image, []⟩
  io := io
  tick := 0
  table := table
  fileTree := none

/-- `fat_volume_mount` of a device image whose boot sector and table were read without an error. -/
def fatVolumeMount (env : Env) (image : Nat → UInt8) (io : List IoResult) : Option State := do
  let vol ← readBootSector image
  match initFileTree env vol.rootDirStartCluster (bareState (tableOfBoot vol image) image io) with
  | .ok _ s => some s
  | .error _ _ => none

end OsLabs.Fat
