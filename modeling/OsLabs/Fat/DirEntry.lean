import Mathlib

/-! # Directory entries (`struct fat_dir_entry_s` of `fat_file.h`)

The structure is packed, so an entry is exactly its 32 bytes on disk. The fields of the source are
read and written at their offsets; the 16-bit and 32-bit ones are little endian. -/

namespace OsLabs.Fat

/-- The 32 bytes of a directory entry. -/
abbrev DirEntry := Vector UInt8 32

/-! ## Attribute flags -/

def fileAttributeReadonly : Nat := 0x01
def fileAttributeSystem : Nat := 0x04
def fileAttributeVolume : Nat := 0x08
def fileAttributeDirectory : Nat := 0x10
def fileAttributeArchive : Nat := 0x20

/-! ## Little-endian numbers -/

/-- The four bytes of a `le32`. -/
def le32Bytes (v : Nat) : List UInt8 :=
  [UInt8.ofNat v, UInt8.ofNat (v / 2 ^ 8), UInt8.ofNat (v / 2 ^ 16), UInt8.ofNat (v / 2 ^ 24)]

/-- The value of a `le32` read byte by byte. -/
def le32OfBytes (b : Nat → UInt8) : Nat :=
  (b 0).toNat + (b 1).toNat * 2 ^ 8 + (b 2).toNat * 2 ^ 16 + (b 3).toNat * 2 ^ 24

/-- Four bytes give the same number. -/
theorem le32OfBytes_congr {b b' : Nat → UInt8} (h : ∀ i < 4, b i = b' i) :
    le32OfBytes b = le32OfBytes b' := by
  unfold le32OfBytes
  rw [h 0 (by decide), h 1 (by decide), h 2 (by decide), h 3 (by decide)]

/-- The value of a `le16` read byte by byte. -/
def le16OfBytes (b : Nat → UInt8) : Nat := (b 0).toNat + (b 1).toNat * 2 ^ 8

namespace DirEntry

/-- The byte at an offset. -/
def byte (e : DirEntry) (i : Nat) : UInt8 := e.toList.getD i 0

/-- Store a byte at an offset inside the entry. -/
def setByte (e : DirEntry) (i : Nat) (b : UInt8) : DirEntry := e.setIfInBounds i b

/-- Store a `le16` at an offset. -/
def setU16 (e : DirEntry) (i v : Nat) : DirEntry :=
  (e.setByte i (UInt8.ofNat v)).setByte (i + 1) (UInt8.ofNat (v / 2 ^ 8))

/-- Store a `le32` at an offset. -/
def setU32 (e : DirEntry) (i v : Nat) : DirEntry :=
  (e.setU16 i v).setU16 (i + 2) (v / 2 ^ 16)

/-- The entry of `calloc`: all bytes zero. -/
def zero : DirEntry := Vector.replicate 32 0

/-- `base_name`, by index. -/
def baseName (e : DirEntry) : Nat → UInt8 := e.byte

/-- `extension`, by index. -/
def extension (e : DirEntry) (i : Nat) : UInt8 := e.byte (8 + i)

/-- `attribs`. -/
def attribs (e : DirEntry) : Nat := (e.byte 11).toNat

/-- `create_time`. -/
def createTime (e : DirEntry) : Nat := le16OfBytes fun i => e.byte (14 + i)

/-- `create_date`. -/
def createDate (e : DirEntry) : Nat := le16OfBytes fun i => e.byte (16 + i)

/-- `last_access_date`. -/
def lastAccessDate (e : DirEntry) : Nat := le16OfBytes fun i => e.byte (18 + i)

/-- `fat32_start_cluster_high`. -/
def fat32StartClusterHigh (e : DirEntry) : Nat := le16OfBytes fun i => e.byte (20 + i)

/-- `last_modified_time`. -/
def lastModifiedTime (e : DirEntry) : Nat := le16OfBytes fun i => e.byte (22 + i)

/-- `last_modified_date`. -/
def lastModifiedDate (e : DirEntry) : Nat := le16OfBytes fun i => e.byte (24 + i)

/-- `start_cluster_low`. -/
def startClusterLow (e : DirEntry) : Nat := le16OfBytes fun i => e.byte (26 + i)

/-- `file_size`. -/
def fileSize (e : DirEntry) : Nat := le32OfBytes fun i => e.byte (28 + i)

/-- Assign `base_name[0]`. -/
def setBaseName0 (e : DirEntry) (b : UInt8) : DirEntry := e.setByte 0 b

/-- Assign `attribs`. -/
def setAttribs (e : DirEntry) (v : Nat) : DirEntry := e.setByte 11 (UInt8.ofNat v)

/-- Assign `create_time`. -/
def setCreateTime (e : DirEntry) (v : Nat) : DirEntry := e.setU16 14 v

/-- Assign `create_date`. -/
def setCreateDate (e : DirEntry) (v : Nat) : DirEntry := e.setU16 16 v

/-- Assign `last_access_date`. -/
def setLastAccessDate (e : DirEntry) (v : Nat) : DirEntry := e.setU16 18 v

/-- Assign `last_modified_time`. -/
def setLastModifiedTime (e : DirEntry) (v : Nat) : DirEntry := e.setU16 22 v

/-- Assign `last_modified_date`. -/
def setLastModifiedDate (e : DirEntry) (v : Nat) : DirEntry := e.setU16 24 v

/-- Assign `file_size`; the field keeps the value modulo `2 ^ 32`. -/
def setFileSize (e : DirEntry) (v : Nat) : DirEntry := e.setU32 28 v

/-! ## Reading after writing -/

/-- A byte of an entry after a store of one byte. -/
@[simp] theorem byte_setByte (e : DirEntry) (i j : Nat) (b : UInt8) :
    (e.setByte i b).byte j = if i = j ∧ j < 32 then b else e.byte j := by
  unfold byte setByte
  simp only [List.getD_eq_getElem?_getD, Vector.toList_setIfInBounds, List.getElem?_set,
    Vector.length_toList]
  by_cases hij : i = j
  · subst hij
    by_cases hi : i < 32
    · simp [hi]
    · simp [hi]
  · simp [hij]

/-- Two entries with the same bytes are equal. -/
theorem ext_byte {e e' : DirEntry} (h : ∀ i < 32, e.byte i = e'.byte i) : e = e' := by
  apply Vector.ext
  intro i hi
  have := h i hi
  simpa [byte, hi] using this

/-- A byte of an entry after a store of two bytes. -/
@[simp] theorem byte_setU16 (e : DirEntry) (i v j : Nat) :
    (e.setU16 i v).byte j =
      if j < 32 ∧ j = i then UInt8.ofNat v
      else if j < 32 ∧ j = i + 1 then UInt8.ofNat (v / 2 ^ 8) else e.byte j := by
  unfold setU16
  simp only [byte_setByte]
  split_ifs <;> first | rfl | omega

/-- A byte of an entry after a store of four bytes. -/
@[simp] theorem byte_setU32 (e : DirEntry) (i v j : Nat) :
    (e.setU32 i v).byte j =
      if j < 32 ∧ j = i then UInt8.ofNat v
      else if j < 32 ∧ j = i + 1 then UInt8.ofNat (v / 2 ^ 8)
      else if j < 32 ∧ j = i + 2 then UInt8.ofNat (v / 2 ^ 16)
      else if j < 32 ∧ j = i + 3 then UInt8.ofNat (v / 2 ^ 16 / 2 ^ 8) else e.byte j := by
  unfold setU32
  simp only [byte_setU16]
  split_ifs <;> first | rfl | omega

/-- The bytes of a `le32` give its value modulo `2 ^ 32` back. -/
theorem le32_bytes_toNat (v : Nat) :
    (UInt8.ofNat v).toNat + (UInt8.ofNat (v / 2 ^ 8)).toNat * 2 ^ 8
      + (UInt8.ofNat (v / 2 ^ 16)).toNat * 2 ^ 16
      + (UInt8.ofNat (v / 2 ^ 16 / 2 ^ 8)).toNat * 2 ^ 24 = v % 2 ^ 32 := by
  simp only [UInt8.toNat_ofNat']
  omega

/-- `file_size` after an assignment. -/
@[simp] theorem fileSize_setFileSize (e : DirEntry) (v : Nat) :
    (e.setFileSize v).fileSize = v % 2 ^ 32 := by
  rw [← le32_bytes_toNat v]
  simp [fileSize, setFileSize, le32OfBytes]

/-- A size has 32 bits. -/
theorem fileSize_lt (e : DirEntry) : e.fileSize < 2 ^ 32 := by
  have h (i : Nat) : (e.byte (28 + i)).toNat < 256 := (e.byte (28 + i)).toNat_lt
  have h0 := h 0
  have h1 := h 1
  have h2 := h 2
  have h3 := h 3
  simp only [fileSize, le32OfBytes]
  omega

end DirEntry

end OsLabs.Fat
