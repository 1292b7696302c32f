import OsLabs.Fat.LookupSpec
import OsLabs.Fat.Transfer
import OsLabs.Fat.WriteFile

/-! # The size after a write that falls short

`fat_file_pwrite` when the device stops in the middle of it. `pwriteCalls` are the transfers and the
links of table entries that a write makes, and `accepted` counts the bytes of the transfers that the
device carries out whole and of the one in which it stops. The loop keeps both apart in its offset and
in its number of bytes remaining (`pwriteLoop_accepted`), but the size is computed as if both had been
updated together (`fatFilePwrite_sizeRight_iff`). -/

namespace OsLabs.Fat

/-! ## One transfer -/

/-- `full_pwrite` returns the bytes moved. -/
theorem fullPwrite_transferred {s : State} {n : Nat} (mem : Int → UInt8) (offset : Nat)
    (h : Uninterrupted s.io n) :
    ∃ s', fullPwrite mem n offset s = .ok ((transferred s.io n).1 : Int) s' ∧
      AfterTransfer s.io n s s' := by
  obtain ⟨s', hrun, -, hafter⟩ := fullPwriteLoop_uninterrupted mem 0 offset rfl
    (Nat.le_refl (s.io.length + 2)) h
  refine ⟨s', ?_, hafter⟩
  have hle := transferred_le s.io n
  unfold fullPwrite
  rw [Cmd.get_bind, ← Nat.cast_zero, Cmd.bind_ok hrun, Nat.cast_sub hle, Int.sub_sub_self]
  rfl

/-! ## The calls of a write -/

/-- What a write asks the device for: to transfer a chunk, or to link an entry of the table. -/
inductive PwriteCall
  | chunk (n : Nat)
  | link
  deriving DecidableEq, Repr

/-- The calls of the loop of `fat_file_pwrite`, as long as none falls short. -/
def loopCalls : Nat → FatTable → Nat → Nat → Nat → List PwriteCall
  | 0, _, _, _, _ => []
  | fuel + 1, t, bytesRemaining, offset, cluster =>
      if bytesRemaining = 0 then []
      else
        .chunk (t.clusterRemainingBytes bytesRemaining offset) ::
          if bytesRemaining - t.clusterRemainingBytes bytesRemaining offset = 0 then []
          else if FatTableIsEoc (t.nextCluster cluster) then
            .link :: loopCalls fuel (t.setEntry cluster t.nextFree)
              (bytesRemaining - t.clusterRemainingBytes bytesRemaining offset)
              (offset + t.clusterRemainingBytes bytesRemaining offset) cluster
          else
            loopCalls fuel t (bytesRemaining - t.clusterRemainingBytes bytesRemaining offset)
              (offset + t.clusterRemainingBytes bytesRemaining offset) (t.nextCluster cluster)

/-- The calls of a write of `size` bytes at `offset`, which lies in `cluster`: at the end of a chain two
entries are linked ahead of the loop. -/
def pwriteCalls (t : FatTable) (size offset cluster : Nat) : List PwriteCall :=
  if FatTableIsEoc (t.nextCluster cluster) then
    .link :: .link :: loopCalls (size + 1)
      ((t.setEntry cluster t.nextFree).setEntry t.nextFree fatClusterEndOfChain) size offset cluster
  else loopCalls (size + 1) t size offset cluster

/-- The bytes of the chunks that the device carries out whole, and of the chunk in which it stops. -/
def accepted : List PwriteCall → List IoResult → Nat × Nat
  | [], _ => (0, 0)
  | .link :: calls, io => accepted calls io.tail
  | .chunk n :: calls, io =>
      if (transferred io n).1 = n then
        (n + (accepted calls (transferred io n).2).1, (accepted calls (transferred io n).2).2)
      else (0, (transferred io n).1)

/-- Only a transfer may fall short, and none is interrupted. -/
def OnlyChunksStop : List PwriteCall → List IoResult → Prop
  | [], _ => True
  | .link :: calls, io => (∀ r ∈ io.head?, r = .full) ∧ OnlyChunksStop calls io.tail
  | .chunk n :: calls, io =>
      Uninterrupted io n ∧ ((transferred io n).1 = n → OnlyChunksStop calls (transferred io n).2)

section Calls

variable {s s' : State} {c d : Nat}

/-- Linking an entry when the next device call is carried out whole. -/
theorem fatTableSetNextCluster_eq_ok (hio : ∀ r ∈ s.io.head?, r = .full)
    (h : fatTableSetNextCluster c d s = .ok ⟨⟩ s') :
    s'.io = s.io.tail ∧ s'.table = s.table.setEntry c d ∧ s'.errno = s.errno ∧ s'.files = s.files := by
  have hnext : nextIoResult s = .ok .full { s with io := s.io.tail } := by
    cases hs : s.io with
    | nil =>
        rw [nextIoResult_nil hs, List.tail_nil, ← hs]
    | cons r rest =>
        rw [nextIoResult_cons hs, hio r (by rw [hs]; rfl)]
        rfl
  have hwrite : pwrite (le32Bytes d) (c * 4 % 2 ^ 32 + s.table.fatOffset) s =
      .ok (4 : Int) (s.wrote (c * 4 % 2 ^ 32 + s.table.fatOffset) (le32Bytes d)) := by
    unfold pwrite
    rw [Cmd.bind_ok hnext]
    rfl
  unfold fatTableSetNextCluster at h
  rw [Cmd.get_bind, Cmd.bind_ok hwrite, if_neg (by decide)] at h
  by_cases hlt : c < s.table.fatLen
  · rw [Cmd.bind_ok (readEntry_run (s := s.wrote _ _) hlt)] at h
    cases h
    exact ⟨rfl, rfl, rfl, rfl⟩
  · obtain ⟨v, t, hread, -⟩ := Cmd.bind_eq_ok.mp h
    have hfault : readEntry c (s.wrote (c * 4 % 2 ^ 32 + s.table.fatOffset) (le32Bytes d)) =
        .error .outOfBounds (s.wrote (c * 4 % 2 ^ 32 + s.table.fatOffset) (le32Bytes d)) :=
      (Cmd.ite_run (c < s.table.fatLen) _ _ _).trans (if_neg hlt)
    rw [hfault] at hread
    cases hread

end Calls

/-! ## The loop -/

section Loop

variable {s s' : State} {fuel pos rem off cluster : Nat} {o : Int × Nat}

/-- A round asks for a byte at least. -/
theorem clusterRemainingBytes_pos (t : FatTable) (hrem : 0 < rem) (off : Nat) :
    0 < t.clusterRemainingBytes rem off := by
  rw [clusterRemainingBytes_eq]
  exact chunkLength_pos t hrem off

/-- A round asks for no more than is left. -/
theorem clusterRemainingBytes_le (t : FatTable) (rem off : Nat) : t.clusterRemainingBytes rem off ≤ rem :=
  Nat.min_le_right _ _

/-- The loop counts the chunks carried out whole in its offset, and these and the bytes of the chunk in
which the device stops in the bytes remaining. -/
theorem pwriteLoop_accepted (mem : Int → UInt8) (herrno : s.errno = 0)
    (hio : OnlyChunksStop (loopCalls fuel s.table rem off cluster) s.io)
    (hrun : pwriteLoop mem fuel pos rem off cluster s = .ok o s') {whole part : Nat}
    (hacc : accepted (loopCalls fuel s.table rem off cluster) s.io = (whole, part)) :
    whole + part ≤ rem ∧ o = (((rem - whole - part : Nat) : Int), off + whole) ∧
      s'.files = s.files := by
  induction fuel generalizing s pos rem off cluster whole part with
  | zero => cases hrun
  | succ fuel ih =>
      rw [pwriteLoop] at hrun
      rw [loopCalls] at hio hacc
      by_cases h0 : rem = 0
      · subst h0
        cases hacc
        cases hrun
        exact ⟨Nat.le_refl 0, rfl, rfl⟩
      rw [if_neg h0] at hrun hio hacc
      have hpos := clusterRemainingBytes_pos s.table (Nat.pos_of_ne_zero h0) off
      have hle := clusterRemainingBytes_le s.table rem off
      rw [Cmd.get_bind] at hrun
      generalize s.table.clusterRemainingBytes rem off = n at hrun hio hacc hpos hle
      obtain ⟨hun, hio⟩ := hio
      obtain ⟨t, hwrite, htio, honly, herr⟩ := fullPwrite_transferred (fun i => mem (pos + i))
        (s.table.clusterOffset cluster + s.table.maskOffset off) hun
      have hwritten := transferred_le s.io n
      rw [Cmd.bind_ok hwrite] at hrun
      rw [accepted] at hacc
      by_cases hall : (transferred s.io n).1 = n
      · rw [if_pos hall] at hacc
        have hio' := hio hall
        rw [hall, if_neg (not_not.mpr rfl)] at hrun
        rw [← htio] at hacc hio'
        rw [← honly.table] at hio' hacc
        have herr' : t.errno = 0 := (herr hall).trans herrno
        by_cases hlast : rem - n = 0
        · -- the chunk was the last one
          rw [if_pos hlast] at hrun hacc
          rw [accepted] at hacc
          cases hrun
          cases hacc
          refine ⟨by omega, ?_, honly.files⟩
          rw [show rem - (n + 0) - 0 = 0 by omega]
          rfl
        · rw [if_neg hlast] at hrun hacc hio'
          obtain ⟨next, u, hnext, hrest⟩ := Cmd.bind_eq_ok.mp hrun
          obtain ⟨rfl, rfl, -⟩ := fatTableGetNextCluster_eq_ok hnext
          rw [Cmd.ite_run] at hrest
          by_cases heoc : FatTableIsEoc (u.table.nextCluster cluster)
          · -- a cluster is linked, and the loop goes on with the same one
            rw [if_pos heoc] at hrest hacc hio'
            obtain ⟨free, u₁, hfree, hrest₁⟩ := Cmd.bind_eq_ok.mp hrest
            obtain ⟨rfl, rfl⟩ := fatTableGetNextFreeCluster_eq_ok hfree
            obtain ⟨⟨⟩, u₂, hset, hrest₂⟩ := Cmd.bind_eq_ok.mp hrest₁
            obtain ⟨hhead, hio''⟩ := hio'
            obtain ⟨h1, h2, h3, h4⟩ := fatTableSetNextCluster_eq_ok hhead hset
            rw [Cmd.bind_ok (getErrno_run u₂), if_neg (by rw [h3]; exact not_not.mpr herr')] at hrest₂
            rw [accepted] at hacc
            rw [← h1, ← h2] at hio'' hacc
            have hih := ih (by rw [h3]; exact herr') hio'' hrest₂ rfl
            cases hacc
            obtain ⟨h5, h6, h7⟩ := hih
            refine ⟨by omega, ?_, h7.trans (h4.trans honly.files)⟩
            rw [h6, Nat.sub_sub rem n, Nat.add_assoc off n]
          · rw [if_neg heoc] at hrest hacc hio'
            rw [Cmd.bind_ok (getErrno_run u), if_neg (not_not.mpr herr')] at hrest
            have hih := ih herr' hio' hrest rfl
            cases hacc
            obtain ⟨h5, h6, h7⟩ := hih
            refine ⟨by omega, ?_, h7.trans honly.files⟩
            rw [h6, Nat.sub_sub rem n, Nat.add_assoc off n]
      · -- the device stops in this chunk
        rw [if_neg hall] at hacc
        rw [if_pos (by omega)] at hrun
        cases hrun
        cases hacc
        refine ⟨by omega, ?_, honly.files⟩
        rw [Nat.sub_zero, Nat.add_zero, Nat.cast_sub (by omega)]

end Loop

/-! ## The whole function -/

/-- Both states have the same files in memory. -/
def SameFiles (s s' : State) : Prop := s'.files = s.files

instance : Std.Refl SameFiles := ⟨fun _ => rfl⟩

instance : IsTrans State SameFiles := ⟨fun _ _ _ h h' => Eq.trans h' h⟩

/-- A change that keeps the files. -/
theorem sameFiles_modify {f : State → State} (h : ∀ s, (f s).files = s.files) :
    Cmd.Within SameFiles (modify f : M PUnit) := h

/-- A device call keeps the files in memory. -/
theorem sameFiles_pwrite (data : List UInt8) (offset : Nat) : Cmd.Within SameFiles (pwrite data offset) := by
  have hnext : Cmd.Within SameFiles nextIoResult := by
    refine Cmd.within_get_bind fun s => ?_
    cases s.io with
    | nil => exact Std.Refl.refl s
    | cons r rest => rfl
  have hwrote (k : Nat) : Cmd.Within SameFiles (modify fun s =>
      { s with dev := s.dev.write offset data.length (data.take k) } : M PUnit) :=
    sameFiles_modify fun _ => rfl
  refine hnext.bind fun r => ?_
  cases r with
  | full =>
      have hall := hwrote data.length
      rw [List.take_length] at hall
      exact hall.bind fun _ => Cmd.within_pure _
  | short k => exact (hwrote k).bind fun _ => Cmd.within_pure _
  | fail e =>
      have herr : Cmd.Within SameFiles (setErrno (e + 1)) := sameFiles_modify fun _ => rfl
      exact (hwrote 0).bind fun _ => herr.bind fun _ => Cmd.within_pure _

/-- The entry of a file is written to its directory. -/
theorem sameFiles_writeDirEntry (parent : Ptr) (childDiskEntry : DirEntry) (nentry : Nat) :
    Cmd.Within SameFiles (writeDirEntry parent childDiskEntry nentry) := by
  refine (within_nonNull parent).bind fun p => (within_readFile p).bind fun y => ?_
  refine Cmd.within_get_bind fun s => ?_
  have hrest : Cmd.Within SameFiles (if s.table.bytesPerCluster ≤ nentry * 32 then setErrno enospc
      else do
        let entryOffset := nentry * 32 + s.table.clusterOffset y.startCluster
        let writtenBytes ← pwrite childDiskEntry.toList entryOffset
        Cmd.when (0 ≤ writtenBytes ∧ writtenBytes < 32) (setErrno eio)) := by
    refine Cmd.within_ite (fun _ => sameFiles_modify fun _ => rfl) fun _ => ?_
    refine (sameFiles_pwrite _ _).bind fun _ => ?_
    exact Cmd.within_when fun _ => sameFiles_modify fun _ => rfl
  exact hrest s

/-- The size stored is that of the old content and of the `r` bytes written at `offset`. -/
def SizeRight (file : Nat) (d : DirEntry) (offset : Nat) (r : Int) (s' : State) : Prop :=
  ∃ d', s'.entry file = some d' ∧ (d'.fileSize : Int) = max (d.fileSize : Int) (offset + r)

/-- The size is right just if the file ends behind what was accepted, or where it ended. -/
theorem sizeRight_iff {s' : State} {file offset whole part : Nat} {d d' : DirEntry}
    (hd' : s'.entry file = some d') :
    SizeRight file d offset ((whole + part : Nat) : Int) s' ↔
      d'.fileSize = max d.fileSize (offset + whole + part) := by
  have hmax : max (d.fileSize : Int) (offset + ((whole + part : Nat) : Int)) =
      ((max d.fileSize (offset + whole + part) : Nat) : Int) := by
    rw [Nat.cast_max, Nat.add_assoc offset, Nat.cast_add offset]
  unfold SizeRight
  rw [hmax]
  constructor
  · rintro ⟨e, he, heq⟩
    cases hd'.symm.trans he
    exact Int.ofNat_inj.mp heq
  · intro heq
    exact ⟨d', hd', congrArg Nat.cast heq⟩

/-- The size that is stored when the device stops `k` bytes before the end of the buffer. -/
theorem sub_emod_eq_iff (q k : Nat) :
    (((q : Int) - k) % 2 ^ 32).toNat % 2 ^ 32 = q ↔ q < 2 ^ 32 ∧ 2 ^ 32 ∣ k := by
  omega

section Pwrite

variable {s s' s₁ : State} {file a offset : Nat} {x : FatFile} {d : DirEntry} {buf : List UInt8}

/-- The allocation ahead of the loop links the first two calls. -/
theorem allocAfterLast_calls {size : Nat} (hio : OnlyChunksStop (pwriteCalls s.table size offset a) s.io)
    (h : allocAfterLast a s = .ok ⟨⟩ s₁) :
    OnlyChunksStop (loopCalls (size + 1) s₁.table size offset a) s₁.io ∧
      accepted (loopCalls (size + 1) s₁.table size offset a) s₁.io =
        accepted (pwriteCalls s.table size offset a) s.io ∧
      s₁.errno = s.errno ∧ s₁.files = s.files := by
  obtain ⟨next, u, hnext, hrest⟩ := Cmd.bind_eq_ok.mp h
  obtain ⟨rfl, rfl, -⟩ := fatTableGetNextCluster_eq_ok hnext
  unfold pwriteCalls at hio ⊢
  by_cases heoc : FatTableIsEoc (u.table.nextCluster a)
  · rw [Cmd.when_pos heoc] at hrest
    rw [if_pos heoc] at hio ⊢
    obtain ⟨free, u₁, hfree, hrest₁⟩ := Cmd.bind_eq_ok.mp hrest
    obtain ⟨rfl, rfl⟩ := fatTableGetNextFreeCluster_eq_ok hfree
    obtain ⟨⟨⟩, u₂, hset, hset'⟩ := Cmd.bind_eq_ok.mp hrest₁
    obtain ⟨hhead, hhead', hio⟩ := hio
    obtain ⟨h1, h2, h3, h4⟩ := fatTableSetNextCluster_eq_ok hhead hset
    rw [← h1] at hhead' hio
    obtain ⟨h5, h6, h7, h8⟩ := fatTableSetNextCluster_eq_ok hhead' hset'
    rw [accepted, accepted, h6, h2, h5, h1]
    rw [h1] at hio
    exact ⟨hio, rfl, h7.trans h3, h8.trans h4⟩
  · rw [Cmd.when_neg heoc] at hrest
    rw [if_neg heoc] at hio ⊢
    cases hrest
    exact ⟨hio, rfl, rfl, rfl⟩

/-- The end of the function keeps the size that is in the entry by then. -/
theorem stampAndWrite_size (env : Env) {parent : Ptr} {r v : Int} (hx : s.files.cell file = some x)
    (hd : x.dentry = some d)
    (h : (do
      fillDentryTimeNow env file false true
      let f ← readFile file
      let entry ← readDentry file
      writeDirEntry parent entry f.posInParent
      pure r : M Int) s = .ok v s') :
    v = r ∧ ∃ d', s'.entry file = some d' ∧ d'.fileSize = d.fileSize := by
  rw [Cmd.bind_ok (fillDentryTimeNow_run env hx hd false true)] at h
  have hcell := State.cell_updated_self (s := s.ticked) hx fun x =>
    { x with dentry := some (fillDentryTime (env.time s.tick) false true d) }
  rw [Cmd.bind_ok (readFile_run hcell), Cmd.bind_ok (readDentry_run hcell rfl)] at h
  obtain ⟨⟨⟩, u, hwrite, hrest⟩ := Cmd.bind_eq_ok.mp h
  cases hrest
  have hfiles : s'.files = _ := (sameFiles_writeDirEntry _ _ _).ok hwrite
  refine ⟨rfl, fillDentryTime (env.time s.tick) false true d, ?_, DirEntry.fileSize_fillDentryTime _ _ _ _⟩
  unfold State.entry
  rw [hfiles, hcell]
  rfl

/-- A write of which the device accepts `whole` bytes in chunks that are carried out whole and `part`
bytes of the chunk in which it stops. The size is right if no accepted byte is behind the old end of the
file, and otherwise only if the device does not stop at all: the number of bytes remaining is
subtracted from an offset that does not count the bytes of the last chunk. (A buffer of four gigabytes
or more can hide this, when what remains from that chunk on is a multiple of `2 ^ 32`.) -/
theorem fatFilePwrite_sizeRight_iff (env : Env) {parent : Ptr} {l : List Nat} {r : Int}
    {whole part : Nat} (herrno : s.errno = 0) (hx : s.files.cell file = some x)
    (hd : x.dentry = some d) (hoff : offset ≤ d.fileSize) (hl : s.table.IsChain x.startCluster l)
    (ha : l[offset / s.table.bytesPerCluster]? = some a)
    (hio : OnlyChunksStop (pwriteCalls s.table buf.length offset a) s.io)
    (hacc : accepted (pwriteCalls s.table buf.length offset a) s.io = (whole, part))
    (hrun : fatFilePwrite env file buf offset parent s = .ok r s') :
    r = ((whole + part : Nat) : Int) ∧
      (SizeRight file d offset r s' ↔
        offset + whole + part ≤ d.fileSize ∨
          offset + whole + part < 2 ^ 32 ∧ 2 ^ 32 ∣ buf.length - whole) := by
  obtain ⟨hlong, rfl⟩ := List.getElem?_eq_some_iff.mp ha
  have hlt := d.fileSize_lt
  have hseek := fatTableSeekCluster_run hl.start.not_isEoc hl.chain hl.lt_fatLen (Nat.lt_of_le_of_lt hoff hlt)
    hlong
  -- Before the loop the call only links a cluster, and the counts pass through it.
  unfold fatFilePwrite at hrun
  rw [Cmd.bind_ok (readDentry_run hx hd), if_neg (by omega), Cmd.bind_ok (readFile_run hx),
    Cmd.bind_ok hseek, Cmd.bind_ok (getErrno_run s), if_neg (not_not.mpr herrno)] at hrun
  obtain ⟨⟨⟩, s₁, halloc, h₁⟩ := Cmd.bind_eq_ok.mp hrun
  obtain ⟨hio₁, hacc₁, herrno₁, hfiles₁⟩ := allocAfterLast_calls hio halloc
  obtain ⟨⟨rem, last⟩, s₂, hloop, h₂⟩ := Cmd.bind_eq_ok.mp h₁
  obtain ⟨hle, ho, hfiles₂⟩ := pwriteLoop_accepted _ (herrno₁.trans herrno) hio₁ hloop
    (hacc₁.trans hacc)
  cases ho
  have hx₂ : s₂.files.cell file = some x := by rw [hfiles₂, hfiles₁, hx]
  have hret : (buf.length : Int) - ((buf.length - whole - part : Nat) : Int) =
      ((whole + part : Nat) : Int) := by omega
  obtain ⟨⟨⟩, s₃, hwhen, h₃⟩ := Cmd.bind_eq_ok.mp h₂
  have hend : (offset : Int) + buf.length - ((buf.length - whole - part : Nat) : Int) =
      ((offset + whole + part : Nat) : Int) := by omega
  rw [hend] at hwhen
  -- The new end of the file is compared as an unsigned number of 64 bits.
  by_cases hgrow : ((offset + whole + part : Nat) : Int) % 2 ^ 64 > (d.fileSize : Int)
  · have hmore : d.fileSize < offset + whole + part := by
      by_contra hle
      rw [Int.emod_eq_of_lt (by omega) (by omega)] at hgrow
      omega
    rw [Cmd.when_pos hgrow, updateDentry_run hx₂ hd] at hwhen
    cases hwhen
    obtain ⟨rfl, d', hd', hsize⟩ := stampAndWrite_size env (State.cell_updated_self hx₂ _) rfl h₃
    -- The stored size is the end of the whole chunks less what the last one still lacked.
    have hlast : ((offset + whole : Nat) : Int) - ((buf.length - whole - part : Nat) : Int) =
        ((offset + whole + part : Nat) : Int) - ((buf.length - whole : Nat) : Int) := by omega
    rw [DirEntry.fileSize_setFileSize, hlast] at hsize
    refine ⟨hret, ?_⟩
    rw [hret, sizeRight_iff hd', hsize, Nat.max_eq_right (Nat.le_of_lt hmore), sub_emod_eq_iff]
    exact (or_iff_right (Nat.not_le.mpr hmore)).symm
  -- The file keeps its size, which is right when the bytes end inside it.
  · rw [Cmd.when_neg hgrow] at hwhen
    cases hwhen
    obtain ⟨rfl, d', hd', hsize⟩ := stampAndWrite_size env hx₂ hd h₃
    refine ⟨hret, ?_⟩
    rw [hret, sizeRight_iff hd', hsize, eq_comm, max_eq_left_iff]
    constructor
    · exact .inl
    · rintro (hle | ⟨h32, -⟩)
      · exact hle
      · rw [Int.emod_eq_of_lt (by omega) (by omega)] at hgrow
        omega

end Pwrite

/-! ## A device that stops -/

/-- The filled volume on a device that links two clusters, accepts four bytes and then fails. -/
def stoppedVolume : State := { filledVolume with io := [.full, .full, .short 4, .fail 4] }

/-- The entry of the file of forty bytes. -/
def filledEntry : DirEntry := (DirEntry.zero.setAttribs fileAttributeArchive).setFileSize 40

/-- Ten bytes written in the second cluster of the file. -/
theorem stoppedVolume_calls {offset : Nat} (h : offset = 32 ∨ offset = 40) :
    OnlyChunksStop (pwriteCalls stoppedVolume.table 10 offset 4) stoppedVolume.io ∧
      accepted (pwriteCalls stoppedVolume.table 10 offset 4) stoppedVolume.io = (0, 4) := by
  have hcalls : pwriteCalls stoppedVolume.table 10 offset 4 = [.link, .link, .chunk 10] := by
    rcases h with rfl | rfl <;> decide +kernel
  rw [hcalls]
  refine ⟨?_, rfl⟩
  simp [OnlyChunksStop, stoppedVolume, Uninterrupted, transferred]

/-- Ten bytes appended to the file, of which the device accepts four: the file shrinks. -/
theorem stoppedVolume_run :
    ∃ s', fatFilePwrite quietEnv 1 (List.replicate 10 1) 40 (some 0) stoppedVolume = .ok 4 s' ∧
      (s'.entry 1).map DirEntry.fileSize = some 34 := by
  have hrun : (Cmd.ret? (fatFilePwrite quietEnv 1 (List.replicate 10 1) 40 (some 0) stoppedVolume)) =
      some 4 := by decide +kernel
  have hsize : ((Cmd.final (fatFilePwrite quietEnv 1 (List.replicate 10 1) 40 (some 0)
      stoppedVolume)).entry 1).map DirEntry.fileSize = some 34 := by decide +kernel
  obtain ⟨s', hs'⟩ := Cmd.ret?_eq_some hrun
  rw [hs'] at hsize
  exact ⟨s', hs', hsize⟩

/-- The write that grows the file is recorded with a wrong size, one that ends inside the file is not. -/
theorem fatFilePwrite_sizeRight_iff_stoppedVolume :
    (∃ s', fatFilePwrite quietEnv 1 (List.replicate 10 1) 40 (some 0) stoppedVolume = .ok 4 s' ∧
      ¬ SizeRight 1 filledEntry 40 4 s') ∧
    ∃ s', fatFilePwrite quietEnv 1 (List.replicate 10 1) 32 (some 0) stoppedVolume = .ok 4 s' ∧
      SizeRight 1 filledEntry 32 4 s' := by
  have hsize : filledEntry.fileSize = 40 := DirEntry.fileSize_setFileSize _ _
  constructor
  · obtain ⟨s', hrun, -⟩ := stoppedVolume_run
    obtain ⟨hio, hacc⟩ := stoppedVolume_calls (.inr rfl)
    obtain ⟨-, hiff⟩ := fatFilePwrite_sizeRight_iff quietEnv (d := filledEntry) rfl rfl rfl
      (by rw [hsize]) filledTable_isChain (by decide) hio hacc hrun
    refine ⟨s', hrun, ?_⟩
    rw [hiff, hsize]
    decide
  · obtain ⟨s', hrun⟩ := Cmd.ret?_eq_some (by decide +kernel : Cmd.ret? (fatFilePwrite quietEnv 1
      (List.replicate 10 1) 32 (some 0) stoppedVolume) = some 4)
    obtain ⟨hio, hacc⟩ := stoppedVolume_calls (.inl rfl)
    obtain ⟨-, hiff⟩ := fatFilePwrite_sizeRight_iff quietEnv (d := filledEntry) rfl rfl rfl
      (by rw [hsize]; decide) filledTable_isChain (by decide) hio hacc hrun
    refine ⟨s', hrun, ?_⟩
    rw [hiff, hsize]
    decide

/-- The size that a write stores may be wrong when the device stops in the middle. -/
theorem not_forall_sizeRight :
    ¬ ∀ (env : Env) (s s' : State) (file offset a : Nat) (x : FatFile) (d : DirEntry) (buf : List UInt8)
      (parent : Ptr) (l : List Nat) (r : Int), s.table.Wf → s.errno = 0 →
      s.files.cell file = some x → x.dentry = some d → offset ≤ d.fileSize →
      s.table.IsChain x.startCluster l → l[offset / s.table.bytesPerCluster]? = some a →
      OnlyChunksStop (pwriteCalls s.table buf.length offset a) s.io →
      fatFilePwrite env file buf offset parent s = .ok r s' → SizeRight file d offset r s' := by
  intro h
  obtain ⟨s', hrun, hstored⟩ := stoppedVolume_run
  have hsize : filledEntry.fileSize = 40 := DirEntry.fileSize_setFileSize _ _
  obtain ⟨d', hd', hright⟩ := h quietEnv stoppedVolume s' 1 40 4 _ filledEntry (List.replicate 10 1)
    (some 0) [3, 4] 4 filledTable_wf rfl rfl rfl (by rw [hsize]) filledTable_isChain (by decide)
    (stoppedVolume_calls (.inr rfl)).1 hrun
  rw [hd', Option.map_some, Option.some.injEq] at hstored
  rw [hstored, hsize] at hright
  omega

end OsLabs.Fat
