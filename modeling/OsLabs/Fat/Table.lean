import OsLabs.Fat.Util

/-! # The file allocation table (`fat_table.c`) -/

namespace OsLabs.Fat

/-- `FAT_CLUSTER_END_OF_CHAIN`. -/
def fatClusterEndOfChain : Nat := 0x0FFFFFF8

/-- `FAT_CLUSTER_END_OF_CHAIN2`. -/
def fatClusterEndOfChain2 : Nat := 0x0FFFFFFF

/-- `FAT_CLUSTER_FREE`. -/
def fatClusterFree : Nat := 0

namespace FatTable

/-- `fat_table_is_valid_cluster_number`; the bound is computed in 32 bits. -/
def IsValidClusterNumber (t : FatTable) (cluster : Nat) : Prop :=
  2 ≤ cluster ∧ cluster < (t.numDataClusters + 2) % 2 ^ 32

instance (t : FatTable) (cluster : Nat) : Decidable (t.IsValidClusterNumber cluster) :=
  inferInstanceAs (Decidable (_ ∧ _))

/-- The value `fat_table_get_next_cluster` makes of the entry of a cluster. -/
def nextCluster (t : FatTable) (curCluster : Nat) : Nat :=
  if t.IsValidClusterNumber (t.fatMap curCluster) then t.fatMap curCluster
  else fatClusterEndOfChain

/-- `fat_table_bytes_per_cluster`. -/
def bytesPerCluster (t : FatTable) : Nat := 1 <<< t.clusterOrder

/-- `fat_table_mask_offset`. -/
def maskOffset (t : FatTable) (offset : Nat) : Nat := offset &&& (t.bytesPerCluster - 1)

/-- `fat_table_get_cluster_remaining_bytes`. -/
def clusterRemainingBytes (t : FatTable) (bytesRemaining offset : Nat) : Nat :=
  min (t.bytesPerCluster - t.maskOffset offset) bytesRemaining

/-- `fat_table_get_clusters_for_size`. -/
def clustersForSize (t : FatTable) (fileSize : Nat) : Nat :=
  ((fileSize + (t.bytesPerCluster - 1)) >>> t.clusterOrder) % 2 ^ 32

/-- `fat_table_cluster_offset`; the subtraction is made in 32 bits. -/
def clusterOffset (t : FatTable) (cluster : Nat) : Nat :=
  t.dataStartOffset + ((cluster + 2 ^ 32 - 2) % 2 ^ 32) <<< t.clusterOrder

/-- The table after storing an entry in memory. -/
def setEntry (t : FatTable) (cluster value : Nat) : FatTable :=
  { t with fatMap := fun c => if c = cluster then value else t.fatMap c }

end FatTable

/-- `fat_table_is_EOC`. -/
def FatTableIsEoc (cluster : Nat) : Prop :=
  cluster = fatClusterEndOfChain ∨ cluster = fatClusterEndOfChain2

instance (cluster : Nat) : Decidable (FatTableIsEoc cluster) :=
  inferInstanceAs (Decidable (_ ∨ _))

/-- Read an entry of the mapped table. -/
def readEntry (cluster : Nat) : M Nat := do
  let s ← get
  if cluster < s.table.fatLen then pure (s.table.fatMap cluster) else throw .outOfBounds

/-- `fat_table_get_next_cluster`. -/
def fatTableGetNextCluster (curCluster : Nat) : M Nat := do
  let _ ← readEntry curCluster
  let s ← get
  pure (s.table.nextCluster curCluster)

/-- The loop of `fat_table_get_next_free_cluster`, with `fuel` entries of the mapped table left
from `cluster` on; past them the loop reads outside the table. -/
def scanFree (t : FatTable) : Nat → Nat → Except Fault Nat
  | 0, _ => .error .outOfBounds
  | fuel + 1, cluster =>
      if t.fatMap cluster ≠ fatClusterFree then scanFree t fuel (cluster + 1) else .ok cluster

/-- `fat_table_get_next_free_cluster`. -/
def fatTableGetNextFreeCluster : M Nat := do
  let s ← get
  match scanFree s.table (s.table.fatLen - 2) 2 with
  | .ok cluster =>
      if s.table.IsValidClusterNumber cluster then pure cluster else pure fatClusterEndOfChain
  | .error e => throw e

/-- `fat_table_is_cluster_used`. -/
def fatTableIsClusterUsed (cluster : Nat) : M Bool := do
  let entry ← readEntry cluster
  pure (entry ≠ 0)

/-- `fat_table_set_next_cluster`: first the device, then, unless that failed, the mapped table. The
product that gives the position of the entry is made in 32 bits. -/
def fatTableSetNextCluster (curCluster nextCluster : Nat) : M PUnit := do
  let s ← get
  let entryOffset := curCluster * 4 % 2 ^ 32 + s.table.fatOffset
  let writtenBytes ← pwrite (le32Bytes nextCluster) entryOffset
  if writtenBytes ≤ 0 then setErrno eio
  else do
    let _ ← readEntry curCluster
    modify fun s => { s with table := s.table.setEntry curCluster nextCluster }

/-- The loop of `fat_table_seek_cluster`, with `positionsToMove` positions left. -/
def seekFrom : Nat → Nat → M Nat
  | 0, startCluster => pure startCluster
  | positionsToMove + 1, startCluster =>
      if startCluster = fatClusterEndOfChain then do
        setErrno eoverflow
        pure 0
      else do
        let next ← fatTableGetNextCluster startCluster
        seekFrom positionsToMove next

/-- `fat_table_seek_cluster`; the number of positions is a `u32`. -/
def fatTableSeekCluster (startCluster offset : Nat) : M Nat := do
  let s ← get
  seekFrom (offset >>> s.table.clusterOrder % 2 ^ 32) startCluster

end OsLabs.Fat
