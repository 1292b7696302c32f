import OsLabs.Fat.LookupSpec
import OsLabs.Fat.Transfer

/-! # The error numbers that the commands on files report

None of the commands on clusters, entries and contents sets `errno` to zero: each leaves it alone, or
reports one of its own errors or that of a device call it has made. `ErrnoFrom` keeps account of the device
results used up on the way, and `ErrnoFrom.ne_zero` is the consequence: an error once reported stays. -/

namespace OsLabs.Fat

open Cmd

/-! ## Error numbers -/

/-- The error numbers that the commands on files report: their own ones, and those of the device calls. -/
def Reported (io : List IoResult) (v : Int) : Prop :=
  v = eio ∨ v = enospc ∨ v = einval ∨ ∃ e : Nat, IoResult.fail e ∈ io ∧ v = e + 1

/-- From `s` to `s'` device results were used up, and the error number was kept or reported. -/
def ErrnoFrom (s s' : State) : Prop :=
  ∃ used, s.io = used ++ s'.io ∧ (s'.errno = s.errno ∨ Reported used s'.errno)

/-- What more results report includes this. -/
theorem Reported.mono {io io' : List IoResult} {v : Int} (h : Reported io v) (hio : io ⊆ io') :
    Reported io' v := by
  rcases h with h | h | h | ⟨e, he, h⟩
  · exact .inl h
  · exact .inr (.inl h)
  · exact .inr (.inr (.inl h))
  · exact .inr (.inr (.inr ⟨e, hio he, h⟩))

instance : Std.Refl ErrnoFrom := ⟨fun _ => ⟨[], rfl, .inl rfl⟩⟩

instance : IsTrans State ErrnoFrom where
  trans s t u h h' := by
    obtain ⟨used, hio, herrno⟩ := h
    obtain ⟨used', hio', herrno'⟩ := h'
    refine ⟨used ++ used', by rw [hio, hio', List.append_assoc], ?_⟩
    rcases herrno' with heq | hrep
    · rw [heq]
      exact herrno.imp_right fun hrep => hrep.mono (List.subset_append_left used used')
    · exact .inr (hrep.mono (List.subset_append_right used used'))

/-- An error that was reported is not taken back. -/
theorem ErrnoFrom.ne_zero {s s' : State} (h : ErrnoFrom s s') (hs : s.errno ≠ 0) : s'.errno ≠ 0 := by
  obtain ⟨used, -, herrno⟩ := h
  rcases herrno with heq | heq | heq | heq | ⟨e, -, heq⟩
  · rwa [heq]
  · rw [heq]
    decide
  · rw [heq]
    decide
  · rw [heq]
    decide
  · omega

/-- Only a device call may report that a directory is not empty. -/
theorem ErrnoFrom.ne_enotempty {s s' : State} (h : ErrnoFrom s s') (hs : s.errno ≠ enotempty)
    (hio : ∀ used, s.io = used ++ s'.io → IoResult.fail 38 ∉ used) : s'.errno ≠ enotempty := by
  obtain ⟨used, hused, herrno⟩ := h
  rcases herrno with heq | heq | heq | heq | ⟨e, he, heq⟩
  · rwa [heq]
  · rw [heq]
    decide
  · rw [heq]
    decide
  · rw [heq]
    decide
  · intro hempty
    obtain rfl : e = 38 := by
      have hval : ((e : Int) + 1) = 39 := heq.symm.trans hempty
      omega
    exact hio used hused he

section ErrnoFrom

/-- What changes neither the device results nor the error number. -/
theorem errnoFrom_modify {f : State → State} (hio : ∀ s, (f s).io = s.io)
    (herr : ∀ s, (f s).errno = s.errno) : Within ErrnoFrom (modify f : M PUnit) := by
  intro s
  exact ⟨[], (hio s).symm, .inl (herr s)⟩

/-- The error numbers that the code sets itself are reported ones. -/
theorem errnoFrom_setErrno {e : Int} (he : e = eio ∨ e = enospc ∨ e = einval) :
    Within ErrnoFrom (setErrno e) := by
  intro s
  refine ⟨[], rfl, .inr ?_⟩
  rcases he with he | he | he
  · exact .inl he
  · exact .inr (.inl he)
  · exact .inr (.inr (.inl he))

/-- `pwrite` reports what the device call failed with. -/
theorem errnoFrom_pwrite (data : List UInt8) (offset : Nat) :
    Within ErrnoFrom (pwrite data offset) := by
  intro s
  unfold pwrite
  cases hio : s.io with
  | nil =>
      rw [Cmd.bind_ok (nextIoResult_nil hio)]
      exact ⟨[], rfl, .inl rfl⟩
  | cons r rest =>
      rw [Cmd.bind_ok (nextIoResult_cons hio)]
      cases r with
      | full => exact ⟨[.full], hio, .inl rfl⟩
      | short k => exact ⟨[.short k], hio, .inl rfl⟩
      | fail e => exact ⟨[.fail e], hio, .inr (.inr (.inr (.inr ⟨e, List.mem_cons_self, rfl⟩)))⟩

/-- Changing a file reports nothing. -/
theorem errnoFrom_updateFile (file : Nat) (f : FatFile → FatFile) :
    Within ErrnoFrom (updateFile file f) :=
  (within_readFile file).bind fun _ => errnoFrom_modify (fun _ => rfl) fun _ => rfl

/-- Changing an entry reports nothing. -/
theorem errnoFrom_updateDentry (file : Nat) (f : DirEntry → DirEntry) :
    Within ErrnoFrom (updateDentry file f) :=
  (within_readDentry file).bind fun _ => errnoFrom_updateFile file _

/-- `write_dir_entry` reports what the device call failed with, or `EIO`. -/
theorem errnoFrom_writeDirEntry (parent : Ptr) (entry : DirEntry) (nentry : Nat) :
    Within ErrnoFrom (writeDirEntry parent entry nentry) := by
  refine (within_nonNull parent).bind fun p => (within_readFile p).bind fun y => ?_
  refine Cmd.within_get.bind fun s => ?_
  refine Cmd.within_ite (fun _ => errnoFrom_setErrno (.inr (.inl rfl))) fun _ => ?_
  refine (errnoFrom_pwrite _ _).bind fun _ => ?_
  exact Cmd.within_when fun _ => errnoFrom_setErrno (.inl rfl)

/-- `fat_table_get_next_cluster` reports nothing. -/
theorem errnoFrom_fatTableGetNextCluster (c : Nat) : Within ErrnoFrom (fatTableGetNextCluster c) := by
  have hread : Within ErrnoFrom (readEntry c) :=
    Cmd.within_get_bind fun s => (Cmd.within_ite (fun _ => Cmd.within_pure _) fun _ =>
      Cmd.within_throw _ : Within ErrnoFrom _) s
  exact hread.bind fun _ => Cmd.within_get.bind fun _ => Cmd.within_pure _

/-- `fat_table_set_next_cluster` reports what the device call failed with, or `EIO`. -/
theorem errnoFrom_fatTableSetNextCluster (c d : Nat) :
    Within ErrnoFrom (fatTableSetNextCluster c d) := by
  have hread : Within ErrnoFrom (readEntry c) :=
    Cmd.within_get_bind fun s => (Cmd.within_ite (fun _ => Cmd.within_pure _) fun _ =>
      Cmd.within_throw _ : Within ErrnoFrom _) s
  refine Cmd.within_get.bind fun s => (errnoFrom_pwrite _ _).bind fun _ => ?_
  refine Cmd.within_ite (fun _ => errnoFrom_setErrno (.inl rfl)) fun _ => hread.bind fun _ => ?_
  exact errnoFrom_modify (fun _ => rfl) fun _ => rfl

/-- Giving back a chain reports what setting its entries reports. -/
theorem errnoFrom_freeChain (c : Nat) : Within ErrnoFrom (freeChain c) := by
  have hloop (fuel c : Nat) : Within ErrnoFrom (freeChainFrom fuel c) := by
    induction fuel generalizing c with
    | zero => exact Cmd.within_throw _
    | succ fuel ih =>
        rw [freeChainFrom]
        refine Cmd.within_ite (fun _ => Cmd.within_pure _) fun _ => ?_
        refine (errnoFrom_fatTableGetNextCluster c).bind fun next => ?_
        exact (errnoFrom_fatTableSetNextCluster c _).bind fun _ => ih next
  exact Cmd.within_get.bind fun s => hloop _ c

/-! ## Writing contents -/

/-- `pwrite` at a negative offset reports `EINVAL`. -/
theorem errnoFrom_pwriteAt (data : List UInt8) (offset : Int) : Within ErrnoFrom (pwriteAt data offset) := by
  refine Cmd.within_ite (fun _ => ?_) fun _ => errnoFrom_pwrite _ _
  exact (errnoFrom_setErrno (.inr (.inr rfl))).bind fun _ => Cmd.within_pure _

/-- Every round of `full_pwrite` reports what its call failed with. -/
theorem errnoFrom_fullPwriteLoop (mem : Int → UInt8) (fuel : Nat) (n pos offset : Int) :
    Within ErrnoFrom (fullPwriteLoop mem fuel n pos offset) := by
  induction fuel generalizing n pos offset with
  | zero => exact Cmd.within_throw _
  | succ fuel ih =>
      rw [fullPwriteLoop]
      refine Cmd.within_ite (fun _ => Cmd.within_pure _) fun _ => ?_
      refine (errnoFrom_pwriteAt _ _).bind fun r => Cmd.within_ite (fun _ => ?_) fun _ => ?_
      · exact (errnoFrom_setErrno (.inl rfl)).bind fun _ => Cmd.within_pure _
      · refine Cmd.within_ite (fun _ => within_getErrno.bind fun errno => ?_) fun _ => ih _ _ _
        exact Cmd.within_ite (fun _ => ih _ _ _) fun _ => Cmd.within_pure _

/-- `full_pwrite` reports what its calls failed with. -/
theorem errnoFrom_fullPwrite (mem : Int → UInt8) (count : Nat) (offset : Int) :
    Within ErrnoFrom (fullPwrite mem count offset) :=
  Cmd.within_get.bind fun _ => (errnoFrom_fullPwriteLoop _ _ _ _ _).bind fun _ => Cmd.within_pure _

/-- The search for a free cluster reports nothing. -/
theorem errnoFrom_fatTableGetNextFreeCluster : Within ErrnoFrom fatTableGetNextFreeCluster := by
  refine Cmd.within_get_bind fun s => ?_
  cases scanFree s.table (s.table.fatLen - 2) 2 with
  | error e => exact Std.Refl.refl s
  | ok c => exact Cmd.within_ite (fun _ => Cmd.within_pure _) (fun _ => Cmd.within_pure _) s

/-- A round of the loop of `fat_file_pwrite`, behind its transfer. -/
theorem errnoFrom_pwriteRound (mem : Int → UInt8) (fuel pos n offset c k : Nat) (written : Int)
    (hloop : ∀ pos n offset c, Within ErrnoFrom (pwriteLoop mem fuel pos n offset c)) :
    Within ErrnoFrom (if written ≠ k then pure ((n : Int) - written, offset)
      else if n - k = 0 then pure (0, offset + k)
      else do
        let nextCluster ← fatTableGetNextCluster c
        if FatTableIsEoc nextCluster then do
          let nextCluster ← fatTableGetNextFreeCluster
          fatTableSetNextCluster c nextCluster
          let errno ← getErrno
          if errno ≠ 0 then pure (((n - k : Nat) : Int), offset + k)
          else pwriteLoop mem fuel (pos + k) (n - k) (offset + k) c
        else do
          let errno ← getErrno
          if errno ≠ 0 then pure (((n - k : Nat) : Int), offset + k)
          else pwriteLoop mem fuel (pos + k) (n - k) (offset + k) nextCluster) := by
  refine Cmd.within_ite (fun _ => Cmd.within_pure _) fun _ => ?_
  refine Cmd.within_ite (fun _ => Cmd.within_pure _) fun _ => ?_
  refine (errnoFrom_fatTableGetNextCluster _).bind fun next => Cmd.within_ite (fun _ => ?_) fun _ => ?_
  · refine errnoFrom_fatTableGetNextFreeCluster.bind fun free =>
      (errnoFrom_fatTableSetNextCluster _ _).bind fun _ => within_getErrno.bind fun errno => ?_
    exact Cmd.within_ite (fun _ => Cmd.within_pure _) fun _ => hloop _ _ _ _
  · refine within_getErrno.bind fun errno => ?_
    exact Cmd.within_ite (fun _ => Cmd.within_pure _) fun _ => hloop _ _ _ _

/-- Every round of writing reports what its transfer reports, or that the volume is full. -/
theorem errnoFrom_pwriteLoop (mem : Int → UInt8) (fuel pos n offset c : Nat) :
    Within ErrnoFrom (pwriteLoop mem fuel pos n offset c) := by
  induction fuel generalizing pos n offset c with
  | zero => exact Cmd.within_throw _
  | succ fuel ih =>
      refine Cmd.within_ite (fun _ => Cmd.within_pure _) fun _ => Cmd.within_get.bind fun s => ?_
      exact (errnoFrom_fullPwrite _ _ _).bind fun r => errnoFrom_pwriteRound _ _ _ _ _ _ _ _ ih

/-- What `fat_file_pwrite` does behind its loop. -/
theorem errnoFrom_pwriteEnd (env : Env) (file : Nat) (parent : Ptr) (p : Prop) [Decidable p]
    (g : DirEntry → DirEntry) (ret : Int) : Within ErrnoFrom (do
      Cmd.when p (updateDentry file g)
      fillDentryTimeNow env file false true
      let f ← readFile file
      let entry ← readDentry file
      writeDirEntry parent entry f.posInParent
      pure ret) := by
  have hask : Within ErrnoFrom (ask env.time) := errnoFrom_modify (f := State.ticked) (fun _ => rfl) fun _ => rfl
  refine Within.bind (R := ErrnoFrom) (Cmd.within_when fun _ => errnoFrom_updateDentry _ _) fun _ => ?_
  refine (hask.bind fun _ => errnoFrom_updateDentry _ _).bind fun _ => ?_
  refine (within_readFile file).bind fun y => (within_readDentry file).bind fun _ => ?_
  exact (errnoFrom_writeDirEntry _ _ _).bind fun _ => Cmd.within_pure _

end ErrnoFrom

end OsLabs.Fat
