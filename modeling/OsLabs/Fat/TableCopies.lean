import OsLabs.Fat.Layout
import OsLabs.Fat.Transfer

/-! # The two copies of the table

The table is mapped privately, so that its entries exist twice: in memory and on the device.
`fat_table_set_next_cluster` writes the device first, and stores the entry in memory unless nothing
was written. A write that stores a part of the four bytes counts as a whole one, and the position of
an entry is computed in 32 bits: `allRight_iff` says after which calls the copies agree. -/

namespace OsLabs.Fat

open Cmd

/-! ## The bytes of an entry -/

/-- Four bytes are determined by their number. -/
theorem le32OfBytes_inj {b b' : Nat → UInt8} :
    le32OfBytes b = le32OfBytes b' ↔ ∀ i < 4, b i = b' i := by
  refine ⟨fun h => ?_, le32OfBytes_congr⟩
  have hlt (c : Nat → UInt8) (i : Nat) : (c i).toNat < 256 := (c i).toNat_lt
  have h0 := hlt b 0
  have h1 := hlt b 1
  have h2 := hlt b 2
  have h3 := hlt b 3
  have h0' := hlt b' 0
  have h1' := hlt b' 1
  have h2' := hlt b' 2
  have h3' := hlt b' 3
  unfold le32OfBytes at h
  intro i hi
  apply UInt8.toNat.inj
  obtain rfl | rfl | rfl | rfl : i = 0 ∨ i = 1 ∨ i = 2 ∨ i = 3 := by omega
  all_goals omega

/-- Byte `j` of a number. -/
def le32Byte (v j : Nat) : UInt8 := (le32Bytes v).getD j 0

/-- A number of 32 bits comes back from its bytes. -/
theorem le32OfBytes_le32Byte {v : Nat} (hv : v < 2 ^ 32) : le32OfBytes (le32Byte v) = v := by
  simp [le32OfBytes, le32Byte, le32Bytes]
  omega

/-- Byte `j` of the entry of a cluster on the device. -/
def State.entryByte (s : State) (c j : Nat) : UInt8 := s.dev.byte (s.table.fatOffset + 4 * c + j)

/-- Every entry in memory is the number stored on the device. -/
def CopiesAgree (s : State) : Prop :=
  ∀ c < s.table.fatLen, s.table.fatMap c = le32OfBytes (s.entryByte c)

/-- The table is mapped from the device. -/
theorem copiesAgree_tableOfBoot (vol : BootInfo) (image : Nat → UInt8) (io : List IoResult) :
    CopiesAgree (bareState (tableOfBoot vol image) image io) := fun _ _ => rfl

/-! ## Storing an entry, for every result of the write -/

/-- How many of `count` bytes the next device call transfers; one that fails transfers none. -/
def State.nextCount (s : State) (count : Nat) : Nat :=
  match s.io with
  | [] => count
  | .full :: _ => count
  | .short k :: _ => min k count
  | .fail _ :: _ => 0

/-- The state after the `pwrite` of `fat_table_set_next_cluster`, but for the error number. -/
def State.tableWritten (s : State) (c v : Nat) : State :=
  { s with
    dev := s.dev.write (c * 4 % 2 ^ 32 + s.table.fatOffset) 4 ((le32Bytes v).take (s.nextCount 4))
    io := s.io.tail }

section SetEntry

variable {s : State} {c v : Nat}

/-- A device call transfers no more than it is asked for. -/
theorem nextCount_le (s : State) (count : Nat) : s.nextCount count ≤ count := by
  unfold State.nextCount
  split
  · exact Nat.le_refl _
  · exact Nat.le_refl _
  · exact Nat.min_le_right _ _
  · exact Nat.zero_le _

/-- The result of the write of an entry is positive if and only if anything was stored. -/
theorem pwrite_entry (s : State) (c v : Nat) : ∃ (n : Int) (e : Int),
    pwrite (le32Bytes v) (c * 4 % 2 ^ 32 + s.table.fatOffset) s =
      .ok n { s.tableWritten c v with errno := e } ∧
    (n ≤ 0 ↔ s.nextCount 4 = 0) ∧ (0 < n → e = s.errno) := by
  unfold pwrite
  cases hio : s.io with
  | nil =>
      rw [bind_ok (nextIoResult_nil hio)]
      refine ⟨4, s.errno, ?_, ?_, fun _ => rfl⟩
      · simp [State.tableWritten, State.nextCount, hio, le32Bytes]
      · simp [State.nextCount, hio]
  | cons r rest =>
      rw [bind_ok (nextIoResult_cons hio)]
      cases r with
      | full =>
          refine ⟨4, s.errno, ?_, ?_, fun _ => rfl⟩
          · simp only [State.tableWritten, State.nextCount, hio]
            rfl
          · simp [State.nextCount, hio]
      | short k =>
          refine ⟨min k 4, s.errno, ?_, ?_, fun _ => rfl⟩
          · have htake : (le32Bytes v).take k = (le32Bytes v).take (min k 4) :=
              List.take_eq_take_min
            simp [State.tableWritten, State.nextCount, hio, ← htake, length_le32Bytes]
          · simp [State.nextCount, hio]
      | fail e =>
          refine ⟨-1, e + 1, ?_, ?_, fun h => absurd h (by decide)⟩
          · simp only [State.tableWritten, State.nextCount, hio]
            rfl
          · simp [State.nextCount, hio]

/-- Nothing was written: the error is reported. -/
theorem fatTableSetNextCluster_unwritten (hk : s.nextCount 4 = 0) :
    fatTableSetNextCluster c v s = .ok ⟨⟩ { s.tableWritten c v with errno := eio } := by
  obtain ⟨n, e, hrun, hn, -⟩ := pwrite_entry s c v
  unfold fatTableSetNextCluster
  rw [get_bind, bind_ok hrun, if_pos (hn.mpr hk)]
  rfl

/-- Anything was written: the whole entry is stored in memory. -/
theorem fatTableSetNextCluster_written (hk : s.nextCount 4 ≠ 0) (hc : c < s.table.fatLen) :
    fatTableSetNextCluster c v s =
      .ok ⟨⟩ { s.tableWritten c v with table := s.table.setEntry c v } := by
  obtain ⟨n, e, hrun, hn, he⟩ := pwrite_entry s c v
  have hpos : ¬ n ≤ 0 := fun h => hk (hn.mp h)
  obtain rfl := he (by omega)
  unfold fatTableSetNextCluster
  rw [get_bind, bind_ok hrun, if_neg hpos]
  exact bind_ok (readEntry_run (s := s.tableWritten c v) hc)

/-- The program stops at a cluster without an entry in memory. -/
theorem fatTableSetNextCluster_past (hk : s.nextCount 4 ≠ 0) (hc : s.table.fatLen ≤ c) :
    fatTableSetNextCluster c v s = .error .outOfBounds (s.tableWritten c v) := by
  obtain ⟨n, e, hrun, hn, he⟩ := pwrite_entry s c v
  have hpos : ¬ n ≤ 0 := fun h => hk (hn.mp h)
  obtain rfl := he (by omega)
  unfold fatTableSetNextCluster
  rw [get_bind, bind_ok hrun, if_neg hpos]
  apply bind_error
  exact (ite_run (c < s.table.fatLen) _ _ _).trans (if_neg (Nat.not_lt.mpr hc))

/-- The write reaches the entry whose number is `c` without its two highest bits. -/
theorem entryByte_tableWritten (s : State) (c v d : Nat) {j : Nat} (hj : j < 4) :
    (s.tableWritten c v).entryByte d j =
      if d = c % 2 ^ 30 ∧ j < s.nextCount 4 then le32Byte v j else s.entryByte d j := by
  have hk := nextCount_le s 4
  have hlen : ((le32Bytes v).take (s.nextCount 4)).length = s.nextCount 4 := by
    rw [List.length_take, length_le32Bytes, Nat.min_eq_left hk]
  have hpos : c * 4 % 2 ^ 32 = 4 * (c % 2 ^ 30) := by omega
  have hbyte : (s.tableWritten c v).entryByte d j =
      if c * 4 % 2 ^ 32 + s.table.fatOffset ≤ s.table.fatOffset + 4 * d + j ∧
          s.table.fatOffset + 4 * d + j < c * 4 % 2 ^ 32 + s.table.fatOffset +
            ((le32Bytes v).take (s.nextCount 4)).length then
        ((le32Bytes v).take (s.nextCount 4)).getD
          (s.table.fatOffset + 4 * d + j - (c * 4 % 2 ^ 32 + s.table.fatOffset)) 0
      else s.entryByte d j := rfl
  rw [hbyte, hlen, hpos]
  by_cases h : d = c % 2 ^ 30 ∧ j < s.nextCount 4
  · obtain ⟨rfl, hjk⟩ := h
    rw [if_pos ⟨by omega, by omega⟩, if_pos ⟨rfl, hjk⟩, Nat.add_comm (4 * _),
      Nat.add_sub_cancel_left, List.getD_eq_getElem?_getD, List.getElem?_take_of_lt hjk,
      ← List.getD_eq_getElem?_getD]
    rfl
  · rw [if_neg h, if_neg]
    rintro ⟨hle, hlt⟩
    exact h ⟨by omega, by omega⟩

/-- A write that stores nothing changes no byte. -/
theorem byte_tableWritten_of_unwritten (hk : s.nextCount 4 = 0) (i : Nat) :
    (s.tableWritten c v).dev.byte i = s.dev.byte i := by
  have hdata : (le32Bytes v).take (s.nextCount 4) = [] := by rw [hk, List.take_zero]
  unfold State.tableWritten
  rw [hdata]
  exact if_neg fun ⟨hle, hlt⟩ => Nat.not_lt.mpr hle hlt

end SetEntry

/-! ## Runs of calls -/

/-- What a call that stores `v` in the entry of `c` should leave: the copies agree, and hold `v`
unless an error is reported and nothing has changed. -/
def StoreRight (c v : Nat) (s : State) : Prop :=
  ∃ t, fatTableSetNextCluster c v s = .ok ⟨⟩ t ∧ CopiesAgree t ∧
    (t.table.fatMap c = v ∨
      (t.errno = eio ∧ t.table = s.table ∧ ∀ i, t.dev.byte i = s.dev.byte i))

/-- The call stores nothing, or the bytes that it does not store are those of the old entry anyway.
From cluster `2 ^ 30` on the position wraps, and the call may only repeat what is there. -/
def StoresAlike (c v : Nat) (s : State) : Prop :=
  s.nextCount 4 = 0 ∨ c < s.table.fatLen ∧
    if c < 2 ^ 30 then ∀ j < 4, s.nextCount 4 ≤ j → s.entryByte c j = le32Byte v j
    else s.table.fatMap c = v ∧ ∀ j < s.nextCount 4, s.entryByte (c % 2 ^ 30) j = le32Byte v j

/-- Every call of a sequence does what it should. -/
def AllRight : List (Nat × Nat) → State → Prop
  | [], _ => True
  | (c, v) :: calls, s => StoreRight c v s ∧ AllRight calls (final (fatTableSetNextCluster c v s))

/-- Every call of a sequence meets the condition in the state before it. -/
def AllAlike : List (Nat × Nat) → State → Prop
  | [], _ => True
  | (c, v) :: calls, s => StoresAlike c v s ∧ AllAlike calls (final (fatTableSetNextCluster c v s))

section Calls

variable {s : State} {c v : Nat}

/-- An unwritten entry is unchanged in both copies. -/
theorem storeRight_of_unwritten (h : CopiesAgree s) (hk : s.nextCount 4 = 0) :
    StoreRight c v s := by
  refine ⟨_, fatTableSetNextCluster_unwritten hk, fun d hd => ?_,
    .inr ⟨rfl, rfl, byte_tableWritten_of_unwritten hk⟩⟩
  refine (h d hd).trans (le32OfBytes_congr fun i _ => ?_)
  exact (byte_tableWritten_of_unwritten hk _).symm

/-- After a call that writes, the copies agree if the entry it writes on the device, and the one it
stores in memory, agree with the other copy. -/
theorem copiesAgree_written_iff (h : CopiesAgree s) (hv : v < 2 ^ 32) (hk : s.nextCount 4 ≠ 0)
    (hc : c < s.table.fatLen) :
    CopiesAgree { s.tableWritten c v with table := s.table.setEntry c v } ↔ StoresAlike c v s := by
  -- an entry agrees if its bytes on the device are those of the number in memory
  have hagree : CopiesAgree { s.tableWritten c v with table := s.table.setEntry c v } ↔
      ∀ d < s.table.fatLen, ∀ j < 4, (if d = c then le32Byte v j else s.entryByte d j) =
        if d = c % 2 ^ 30 ∧ j < s.nextCount 4 then le32Byte v j else s.entryByte d j := by
    refine forall_congr' fun d => forall_congr' fun hd => ?_
    have hmem : (s.table.setEntry c v).fatMap d =
        le32OfBytes fun j => if d = c then le32Byte v j else s.entryByte d j := by
      rw [FatTable.fatMap_setEntry]
      split
      · exact (le32OfBytes_le32Byte hv).symm
      · exact h d hd
    show (s.table.setEntry c v).fatMap d = le32OfBytes ((s.tableWritten c v).entryByte d) ↔ _
    rw [hmem, le32OfBytes_inj]
    refine forall_congr' fun j => forall_congr' fun hj => ?_
    rw [entryByte_tableWritten s c v d hj]
  have hwrap : c % 2 ^ 30 ≤ c := Nat.mod_le _ _
  rw [hagree, StoresAlike, or_iff_right hk, and_iff_right hc]
  split
  · next hlow =>
      rw [Nat.mod_eq_of_lt hlow]
      constructor
      · intro hall j hj hjk
        have := hall c hc j hj
        rw [if_pos rfl, if_neg fun hlt => Nat.not_lt.mpr hjk hlt.2] at this
        exact this.symm
      · intro hkept d hd j hj
        by_cases hdc : d = c
        · rw [if_pos hdc, hdc]
          split
          · rfl
          · next hjk => exact (hkept j hj (Nat.le_of_not_lt fun hlt => hjk ⟨rfl, hlt⟩)).symm
        · rw [if_neg hdc, if_neg fun hlt => hdc hlt.1]
  · next hhigh =>
      have hne : c ≠ c % 2 ^ 30 := by omega
      have hold : s.table.fatMap c = v ↔ ∀ j < 4, s.entryByte c j = le32Byte v j := by
        rw [h c hc, ← le32OfBytes_inj, le32OfBytes_le32Byte hv]
      rw [hold]
      constructor
      · intro hall
        refine ⟨fun j hj => ?_, fun j hj => ?_⟩
        · have := hall c hc j hj
          rw [if_pos rfl, if_neg fun hlt => hne hlt.1] at this
          exact this.symm
        · have := hall (c % 2 ^ 30) (by omega) j (Nat.lt_of_lt_of_le hj (nextCount_le s 4))
          rwa [if_neg hne.symm, if_pos ⟨rfl, hj⟩] at this
      · rintro ⟨hsame, hrepeat⟩ d hd j hj
        by_cases hdc : d = c
        · rw [if_pos hdc, hdc, if_neg fun hlt => hne hlt.1]
          exact (hsame j hj).symm
        · rw [if_neg hdc]
          split
          · next hlt =>
              rw [hlt.1]
              exact hrepeat j hlt.2
          · rfl

/-- A store is right just if it stores alike on the device and in memory. -/
theorem storeRight_iff (h : CopiesAgree s) (hv : v < 2 ^ 32) :
    StoreRight c v s ↔ StoresAlike c v s := by
  by_cases hk : s.nextCount 4 = 0
  · exact iff_of_true (storeRight_of_unwritten h hk) (.inl hk)
  by_cases hc : c < s.table.fatLen
  · rw [← copiesAgree_written_iff h hv hk hc]
    constructor
    · rintro ⟨t, hrun, hagree, -⟩
      rw [fatTableSetNextCluster_written hk hc] at hrun
      obtain ⟨-, rfl⟩ := EStateM.Result.ok.inj hrun
      exact hagree
    · intro hagree
      exact ⟨_, fatTableSetNextCluster_written hk hc, hagree, .inl (if_pos rfl)⟩
  · -- without an entry in memory the program stops
    refine iff_of_false ?_ fun halike => hc (halike.resolve_left hk).1
    rintro ⟨t, hrun, -⟩
    rw [fatTableSetNextCluster_past hk (Nat.le_of_not_lt hc)] at hrun
    cases hrun

/-- **The two copies of the table agree after every call** if and only if every call meets its
condition in the state it finds: the device stores nothing, or it stores all bytes in which the old
and the new entry differ. -/
theorem allRight_iff {calls : List (Nat × Nat)} (h : CopiesAgree s)
    (hv : ∀ call ∈ calls, call.2 < 2 ^ 32) : AllRight calls s ↔ AllAlike calls s := by
  induction calls generalizing s with
  | nil => exact Iff.rfl
  | cons call calls ih =>
      obtain ⟨hv, hvs⟩ := List.forall_mem_cons.mp hv
      have hstep := storeRight_iff (c := call.1) h hv
      constructor
      · rintro ⟨hright, hrest⟩
        refine ⟨hstep.mp hright, ?_⟩
        obtain ⟨t, hrun, hagree, -⟩ := hright
        rw [hrun] at hrest ⊢
        exact (ih hagree hvs).mp hrest
      · rintro ⟨halike, hrest⟩
        have hright := hstep.mpr halike
        refine ⟨hright, ?_⟩
        obtain ⟨t, hrun, hagree, -⟩ := hright
        rw [hrun] at hrest ⊢
        exact (ih hagree hvs).mpr hrest

/-- A volume whose table is all zero in both copies. -/
def zeroVolume (io : List IoResult) : State :=
  bareState { smallTable with fatMap := fun _ => 0 } (fun _ => 0) io

/-- The copies of the volume with an empty table agree, whatever the device will answer. -/
theorem copiesAgree_zeroVolume (io : List IoResult) : CopiesAgree (zeroVolume io) := by
  intro c _
  show 0 = le32OfBytes fun _ => 0
  simp [le32OfBytes]

/-- A whole write and a failed one. -/
theorem allRight_zeroVolume :
    AllRight [(2, 3), (3, fatClusterEndOfChain)] (zeroVolume [.full, .fail 4]) :=
  (allRight_iff (copiesAgree_zeroVolume _) (by decide)).mpr
    ⟨.inr ⟨by decide, fun j hj hle => absurd hle (Nat.not_le.mpr hj)⟩, .inl (by decide), trivial⟩

/-- One byte of an end-of-chain mark is written, and the whole mark is stored in memory. -/
theorem not_forall_allRight : ¬ ∀ (s : State) (calls : List (Nat × Nat)), CopiesAgree s →
    (∀ call ∈ calls, s.table.IsValidClusterNumber call.1 ∧ call.2 < 2 ^ 32) → AllRight calls s := by
  intro hall
  have hright := hall (zeroVolume [.short 1]) [(2, fatClusterEndOfChain)] (copiesAgree_zeroVolume _)
    (by decide)
  have hstored := (storeRight_iff (copiesAgree_zeroVolume _) (by decide)).mp hright.1
  obtain ⟨-, hkept⟩ := hstored.resolve_left (by decide)
  exact absurd (hkept 1 (by decide) (by decide)) (by decide)

end Calls

end OsLabs.Fat
