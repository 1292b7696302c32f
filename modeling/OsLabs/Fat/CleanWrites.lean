import OsLabs.Fat.ErrnoIndependence
import OsLabs.Fat.ErrorNumbers
import OsLabs.Fat.ShortWrites
import OsLabs.Fat.TableCopies

/-! # Writes that report no error

When does `fat_file_pwrite` return and leave `errno` at zero? It has to stay within the mapped table
(`WriteInTable`), the device has to carry out its calls (`CarriedOut`), and the place of the entry has to be
in the first cluster of the directory. `fatFilePwrite_clean_iff` says that nothing else is needed. -/

namespace OsLabs.Fat

open Cmd

/-! ## Calls that are carried out -/

/-- How many of `count` bytes the first of the device calls transfers. -/
def firstCount (count : Nat) : List IoResult → Nat
  | [] => count
  | .full :: _ => count
  | .short k :: _ => min k count
  | .fail _ :: _ => 0

/-- A transfer of one call counts what its first result moves. -/
theorem nextCount_eq (s : State) (count : Nat) : s.nextCount count = firstCount count s.io := by
  unfold State.nextCount
  rcases s.io with _ | ⟨_ | _ | _, _⟩ <;> rfl

/-- The device carries out the calls of a write without an error, and leaves `rest` of its results: the
chunks are transferred whole, and something is stored of each entry. -/
def CarriedOut : List PwriteCall → List IoResult → List IoResult → Prop
  | [], io, rest => rest = io
  | .link :: calls, io, rest => firstCount 4 io ≠ 0 ∧ CarriedOut calls io.tail rest
  | .chunk n :: calls, io, rest =>
      Uninterrupted io n ∧ (transferred io n).1 = n ∧ CarriedOut calls (transferred io n).2 rest

/-- A device without failing calls carries out everything. -/
theorem carriedOut_nil (calls : List PwriteCall) : CarriedOut calls [] [] := by
  induction calls with
  | nil => rfl
  | cons call calls ih =>
      cases call with
      | link => exact ⟨show (4 : Nat) ≠ 0 by decide, ih⟩
      | chunk n => exact ⟨trivial, rfl, ih⟩

section Transfer

variable {s s' : State} {mem : Int → UInt8} {n fuel : Nat}

/-- A loop that leaves the error number at zero has transferred everything. -/
theorem fullPwriteLoop_clean {io : List IoResult} {r : Int} (pos offset : Nat) (hio : s.io = io)
    (hrun : fullPwriteLoop mem fuel n pos offset s = .ok r s') (hclean : s'.errno = 0) :
    Uninterrupted io n ∧ (transferred io n).1 = n := by
  -- by induction on the results: all but those of short calls decide at once
  induction io generalizing s fuel n pos offset with
  | nil => exact ⟨trivial, rfl⟩
  | cons result rest ih =>
      by_cases hn : n = 0
      · subst hn
        refine ⟨?_, by rw [transferred_zero]⟩
        cases result with
        | full => exact trivial
        | short k => exact .inr (.inl (Nat.zero_le k))
        | fail e => exact .inl rfl
      cases fuel with
      | zero => cases hrun
      | succ fuel =>
          have hnext := nextIoResult_cons hio
          cases result with
          | full => exact ⟨trivial, by rw [transferred_full hn]⟩
          | fail e =>
              have hcall := pwriteAt_fail (memBytes mem pos n) offset hnext
              rw [fullPwriteLoop, if_neg (by omega), Int.toNat_natCast, Cmd.bind_ok hcall,
                if_neg (by decide), if_pos (by decide)] at hrun
              have hkeeps := (Within.bind (R := ErrnoFrom) within_getErrno fun errno =>
                Cmd.within_ite (fun _ => errnoFrom_fullPwriteLoop _ _ _ _ _) fun _ =>
                  Cmd.within_pure _).ok hrun
              exact absurd hclean (hkeeps.ne_zero (by simp only; omega))
          | short k =>
              have hcall := pwriteAt_short (memBytes mem pos n) offset hnext
              rw [List.length_take, length_memBytes] at hcall
              by_cases hk : k = 0
              · subst hk
                rw [fullPwriteLoop, if_neg (by omega), Int.toNat_natCast, Cmd.bind_ok hcall, Nat.zero_min,
                  if_pos (by omega)] at hrun
                cases hrun
                exact absurd hclean (by decide : eio ≠ 0)
              · by_cases hle : n ≤ k
                · exact ⟨.inr (.inl hle), by rw [transferred_short_all hn hle]⟩
                · rw [Nat.min_eq_left (by omega)] at hcall
                  rw [fullPwriteLoop_moved (by omega) (by omega) hcall] at hrun
                  obtain ⟨hun, hall⟩ := ih (pos + k) (offset + k) rfl hrun
                  rw [transferred_short hk (by omega)]
                  exact ⟨.inr (.inr hun), by simp only; omega⟩

/-- `full_pwrite` leaves the error number at zero exactly when it transfers everything. -/
theorem fullPwrite_clean {r : Int} (offset : Nat) (hrun : fullPwrite mem n offset s = .ok r s')
    (hclean : s'.errno = 0) : Uninterrupted s.io n ∧ (transferred s.io n).1 = n := by
  unfold fullPwrite at hrun
  rw [Cmd.get_bind] at hrun
  obtain ⟨left, t, hloop, hrest⟩ := Cmd.bind_eq_ok.mp hrun
  cases hrest
  exact fullPwriteLoop_clean 0 offset rfl hloop hclean

end Transfer

section Link

variable {s s' : State} {c d : Nat}

/-- An entry is stored without an error exactly when something of it is written, and it is one of the
table. -/
theorem fatTableSetNextCluster_clean (herrno : s.errno = 0) :
    (∃ s', fatTableSetNextCluster c d s = .ok ⟨⟩ s' ∧ s'.errno = 0) ↔
      firstCount 4 s.io ≠ 0 ∧ c < s.table.fatLen := by
  rw [← nextCount_eq]
  constructor
  · rintro ⟨s', hrun, hclean⟩
    by_cases hk : s.nextCount 4 = 0
    · rw [fatTableSetNextCluster_unwritten hk] at hrun
      cases hrun
      exact absurd hclean (by decide : eio ≠ 0)
    · refine ⟨hk, Nat.lt_of_not_le fun hc => ?_⟩
      rw [fatTableSetNextCluster_past hk hc] at hrun
      cases hrun
  · rintro ⟨hk, hc⟩
    exact ⟨_, fatTableSetNextCluster_written hk hc, herrno⟩

/-- What such a call leaves behind. -/
theorem fatTableSetNextCluster_after (hk : firstCount 4 s.io ≠ 0) (hc : c < s.table.fatLen) :
    ∃ t, fatTableSetNextCluster c d s = .ok ⟨⟩ t ∧ t.io = s.io.tail ∧ t.table = s.table.setEntry c d ∧
      t.errno = s.errno ∧ t.files = s.files := by
  rw [← nextCount_eq] at hk
  exact ⟨_, fatTableSetNextCluster_written hk hc, rfl, rfl, rfl, rfl⟩

end Link

/-! ## The loop -/

/-- The loop of `fat_file_pwrite` stays in the mapped table, and finds a cluster when it looks for one. -/
def LoopInTable : Nat → FatTable → Nat → Nat → Nat → Prop
  | 0, _, _, _, _ => False
  | fuel + 1, t, bytesRemaining, offset, cluster =>
      bytesRemaining - t.clusterRemainingBytes bytesRemaining offset = 0 ∨
        ¬ AllocFaults t cluster ∧
          if FatTableIsEoc (t.nextCluster cluster) then
            LoopInTable fuel (t.setEntry cluster t.nextFree)
              (bytesRemaining - t.clusterRemainingBytes bytesRemaining offset)
              (offset + t.clusterRemainingBytes bytesRemaining offset) cluster
          else
            LoopInTable fuel t (bytesRemaining - t.clusterRemainingBytes bytesRemaining offset)
              (offset + t.clusterRemainingBytes bytesRemaining offset) (t.nextCluster cluster)

/-- Whether a search leaves the table can be computed. -/
def decideScanFault (t : FatTable) : Decidable (∃ e, scanFree t (t.fatLen - 2) 2 = .error e) :=
  match scanFree t (t.fatLen - 2) 2 with
  | .error e => .isTrue ⟨e, rfl⟩
  | .ok _ => .isFalse nofun

instance (t : FatTable) (c : Nat) : Decidable (AllocFaults t c) :=
  @instDecidableOr _ _ _ (@instDecidableAnd _ _ _ (decideScanFault t))

/-- Whether the loop stays in the table can be computed. -/
def decideLoopInTable : (fuel : Nat) → (t : FatTable) → (bytesRemaining offset cluster : Nat) →
    Decidable (LoopInTable fuel t bytesRemaining offset cluster)
  | 0, _, _, _, _ => .isFalse id
  | fuel + 1, t, bytesRemaining, offset, cluster =>
      haveI (t : FatTable) (bytesRemaining offset cluster : Nat) :=
        decideLoopInTable fuel t bytesRemaining offset cluster
      inferInstanceAs (Decidable (bytesRemaining - t.clusterRemainingBytes bytesRemaining offset = 0 ∨
        ¬ AllocFaults t cluster ∧
          if FatTableIsEoc (t.nextCluster cluster) then
            LoopInTable fuel (t.setEntry cluster t.nextFree)
              (bytesRemaining - t.clusterRemainingBytes bytesRemaining offset)
              (offset + t.clusterRemainingBytes bytesRemaining offset) cluster
          else
            LoopInTable fuel t (bytesRemaining - t.clusterRemainingBytes bytesRemaining offset)
              (offset + t.clusterRemainingBytes bytesRemaining offset) (t.nextCluster cluster)))

instance (fuel : Nat) (t : FatTable) (bytesRemaining offset cluster : Nat) :
    Decidable (LoopInTable fuel t bytesRemaining offset cluster) :=
  decideLoopInTable fuel t bytesRemaining offset cluster

section Loop

variable {s s' : State} {fuel rem off cluster : Nat} {o : Int × Nat} {rest : List IoResult}

/-- A search for a free cluster that does not leave the table. -/
theorem fatTableGetNextFreeCluster_found (h : ¬ ∃ e, scanFree s.table (s.table.fatLen - 2) 2 = .error e) :
    fatTableGetNextFreeCluster s = .ok s.table.nextFree s := by
  unfold fatTableGetNextFreeCluster FatTable.nextFree
  rw [Cmd.get_bind]
  cases hscan : scanFree s.table (s.table.fatLen - 2) 2 with
  | error e => exact absurd ⟨e, hscan⟩ h
  | ok c =>
      dsimp only
      split_ifs with hvalid
      · rfl
      · rfl

/-- One that returns has not left it. -/
theorem not_scanFree_error {d : Nat} (h : fatTableGetNextFreeCluster s = .ok d s') :
    ¬ ∃ e, scanFree s.table (s.table.fatLen - 2) 2 = .error e := by
  rintro ⟨e, he⟩
  unfold fatTableGetNextFreeCluster at h
  rw [Cmd.get_bind, he] at h
  cases h

/-- The loop that stays in the table, on a device that carries out its calls. -/
theorem pwriteLoop_clean (mem : Int → UInt8) (pos : Nat) (herrno : s.errno = 0)
    (htable : LoopInTable fuel s.table rem off cluster)
    (hcalls : CarriedOut (loopCalls fuel s.table rem off cluster) s.io rest) :
    ∃ s', pwriteLoop mem fuel pos rem off cluster s = .ok ((0 : Int), off + rem) s' ∧ s'.errno = 0 ∧
      s'.io = rest ∧ s'.files = s.files ∧ s'.table.bytesPerCluster = s.table.bytesPerCluster := by
  induction fuel generalizing s pos rem off cluster with
  | zero => exact htable.elim
  | succ fuel ih =>
      rw [pwriteLoop]
      rw [loopCalls] at hcalls
      rw [LoopInTable] at htable
      by_cases h0 : rem = 0
      · subst h0
        rw [if_pos rfl] at hcalls
        exact ⟨s, rfl, herrno, hcalls.symm, rfl, rfl⟩
      rw [if_neg h0] at hcalls ⊢
      have hle := clusterRemainingBytes_le s.table rem off
      rw [Cmd.get_bind]
      -- the bytes of this round, from here on a number
      generalize s.table.clusterRemainingBytes rem off = n at hcalls htable hle
      obtain ⟨hun, hall, hcalls⟩ := hcalls
      obtain ⟨t, hwrite, htio, honly, herr⟩ := fullPwrite_transferred (fun i => mem (pos + i))
        (s.table.clusterOffset cluster + s.table.maskOffset off) hun
      rw [hall] at hwrite
      rw [Cmd.bind_ok hwrite, if_neg (not_not.mpr rfl)]
      have herr' : t.errno = 0 := (herr hall).trans herrno
      rw [← htio] at hcalls
      by_cases hlast : rem - n = 0
      · rw [if_pos hlast] at hcalls
        refine ⟨t, ?_, herr', hcalls.symm, honly.files, by rw [honly.table]⟩
        rw [if_pos hlast, show off + n = off + rem by omega]
        rfl
      -- the next cluster of the chain, or one that is linked behind it
      · rw [if_neg hlast] at hcalls ⊢
        obtain ⟨hin, htable⟩ := htable.resolve_left hlast
        rw [← honly.table] at hin htable hcalls ⊢
        have hlt : cluster < t.table.fatLen := Nat.lt_of_not_le fun hge => hin (.inl hge)
        have hend : off + n + (rem - n) = off + rem := by omega
        rw [Cmd.bind_ok (fatTableGetNextCluster_run hlt), Cmd.ite_run]
        by_cases heoc : FatTableIsEoc (t.table.nextCluster cluster)
        · -- a cluster is linked, and the loop goes on with the same one
          rw [if_pos heoc] at htable hcalls ⊢
          have hscan : ¬ ∃ e, scanFree t.table (t.table.fatLen - 2) 2 = .error e :=
            fun hscan => hin (.inr ⟨heoc, hscan⟩)
          obtain ⟨hfirst, hcalls⟩ := hcalls
          obtain ⟨u, hset, huio, hutable, huerr, hufiles⟩ := fatTableSetNextCluster_after hfirst hlt
          rw [← huio, ← hutable] at hcalls
          rw [← hutable] at htable
          obtain ⟨s', hrun, hclean, hio, hfiles, hbytes⟩ := ih (pos + n) (huerr.trans herr') htable hcalls
          refine ⟨s', ?_, hclean, hio, hfiles.trans (hufiles.trans honly.files), ?_⟩
          · rw [Cmd.bind_ok (fatTableGetNextFreeCluster_found hscan), Cmd.bind_ok hset,
              Cmd.bind_ok (getErrno_run u), if_neg (not_not.mpr (huerr.trans herr')), hrun, hend]
          · rw [hbytes, hutable]
            rfl
        · rw [if_neg heoc] at htable hcalls ⊢
          obtain ⟨s', hrun, hclean, hio, hfiles, hbytes⟩ := ih (pos + n) herr' htable hcalls
          refine ⟨s', ?_, hclean, hio, hfiles.trans honly.files, hbytes⟩
          rw [Cmd.bind_ok (getErrno_run t), if_neg (not_not.mpr herr'), hrun, hend]

/-- A loop that leaves the error number at zero has stayed in the table, and its calls have been carried
out. -/
theorem loopInTable_of_clean (mem : Int → UInt8) {pos : Nat} (herrno : s.errno = 0)
    (hrun : pwriteLoop mem fuel pos rem off cluster s = .ok o s') (hclean : s'.errno = 0) :
    LoopInTable fuel s.table rem off cluster ∧
      ∃ rest, CarriedOut (loopCalls fuel s.table rem off cluster) s.io rest := by
  induction fuel generalizing s pos rem off cluster with
  | zero => cases hrun
  | succ fuel ih =>
      rw [pwriteLoop] at hrun
      rw [loopCalls, LoopInTable]
      by_cases h0 : rem = 0
      · subst h0
        exact ⟨.inl (Nat.zero_sub _), s.io, rfl⟩
      rw [if_neg h0] at hrun ⊢
      rw [Cmd.get_bind] at hrun
      generalize s.table.clusterRemainingBytes rem off = n at hrun
      obtain ⟨written, t, hwrite, hrun⟩ := Cmd.bind_eq_ok.mp hrun
      -- what comes behind the transfer does not take an error back
      have hbehind := (errnoFrom_pwriteRound mem fuel pos rem off cluster n written
        (errnoFrom_pwriteLoop mem fuel)).ok hrun
      have hzero : t.errno = 0 := by_contra fun hne => hbehind.ne_zero hne hclean
      obtain ⟨hun, hall⟩ := fullPwrite_clean _ hwrite hzero
      obtain ⟨t', hwrite', htio, honly, -⟩ := fullPwrite_transferred (fun i => mem (pos + i))
        (s.table.clusterOffset cluster + s.table.maskOffset off) hun
      obtain ⟨rfl, rfl⟩ := EStateM.Result.ok.inj (hwrite.symm.trans hwrite')
      rw [hall, if_neg (not_not.mpr rfl)] at hrun
      by_cases hlast : rem - n = 0
      · rw [if_pos hlast]
        exact ⟨.inl hlast, _, hun, hall, rfl⟩
      rw [if_neg hlast] at hrun ⊢
      obtain ⟨next, u, hnext, hrun⟩ := Cmd.bind_eq_ok.mp hrun
      obtain ⟨rfl, rfl, hlt⟩ := fatTableGetNextCluster_eq_ok hnext
      rw [Cmd.ite_run] at hrun
      rw [← honly.table]
      by_cases heoc : FatTableIsEoc (u.table.nextCluster cluster)
      · rw [if_pos heoc] at hrun ⊢
        rw [if_pos heoc]
        obtain ⟨free, v, hfree, hrun⟩ := Cmd.bind_eq_ok.mp hrun
        have hscan := not_scanFree_error hfree
        obtain ⟨rfl, rfl⟩ := fatTableGetNextFreeCluster_eq_ok hfree
        obtain ⟨⟨⟩, w, hset, hrun⟩ := Cmd.bind_eq_ok.mp hrun
        rw [Cmd.bind_ok (getErrno_run w)] at hrun
        by_cases hw : w.errno = 0
        · obtain ⟨hfirst, -⟩ := (fatTableSetNextCluster_clean hzero).mp ⟨w, hset, hw⟩
          obtain ⟨w', hset', hwio, hwtable, -⟩ := fatTableSetNextCluster_after
            (d := v.table.nextFree) hfirst hlt
          obtain ⟨-, rfl⟩ := EStateM.Result.ok.inj (hset.symm.trans hset')
          rw [if_neg (not_not.mpr hw)] at hrun
          obtain ⟨htable, rest, hcalls⟩ := ih hw hrun
          rw [hwtable, hwio] at hcalls
          rw [hwtable] at htable
          rw [htio] at hfirst hcalls
          exact ⟨.inr ⟨fun h => h.elim (Nat.not_le.mpr hlt) fun h => hscan h.2, htable⟩, rest, hun, hall,
            hfirst, hcalls⟩
        · rw [if_pos hw] at hrun
          cases hrun
          exact absurd hclean hw
      · rw [if_neg heoc] at hrun ⊢
        rw [if_neg heoc]
        rw [Cmd.bind_ok (getErrno_run u), if_neg (not_not.mpr hzero)] at hrun
        obtain ⟨htable, rest, hcalls⟩ := ih hzero hrun
        rw [htio] at hcalls
        exact ⟨.inr ⟨fun h => h.elim (Nat.not_le.mpr hlt) fun h => heoc h.1, htable⟩, rest, hun, hall, hcalls⟩

end Loop

/-! ## The allocation and the entry -/

/-- The table after the allocation ahead of the loop. -/
def FatTable.withSuccessor (t : FatTable) (c : Nat) : FatTable :=
  if FatTableIsEoc (t.nextCluster c) then
    (t.setEntry c t.nextFree).setEntry t.nextFree fatClusterEndOfChain
  else t

/-- A write of `size` bytes at `offset`, which lies in `cluster`, stays in the mapped table, and finds a
cluster when it looks for one. -/
structure WriteInTable (t : FatTable) (size offset cluster : Nat) : Prop where
  alloc : ¬ AllocFaults t cluster
  fresh : FatTableIsEoc (t.nextCluster cluster) → t.nextFree < t.fatLen
  loop : LoopInTable (size + 1) (t.withSuccessor cluster) size offset cluster

instance (t : FatTable) (size offset cluster : Nat) : Decidable (WriteInTable t size offset cluster) :=
  decidable_of_iff (¬ AllocFaults t cluster ∧ (FatTableIsEoc (t.nextCluster cluster) → t.nextFree < t.fatLen) ∧
      LoopInTable (size + 1) (t.withSuccessor cluster) size offset cluster)
    ⟨fun ⟨halloc, hfresh, hloop⟩ => ⟨halloc, hfresh, hloop⟩, fun h => ⟨h.alloc, h.fresh, h.loop⟩⟩

section Ends

variable {s s' : State} {c size offset file p : Nat} {x y : FatFile} {d : DirEntry} {rest : List IoResult}

/-- An allocation whose calls are carried out ends cleanly, with the calls of the loop still to
come. -/
theorem allocAfterLast_clean (herrno : s.errno = 0) (hin : WriteInTable s.table size offset c)
    (hcalls : CarriedOut (pwriteCalls s.table size offset c) s.io rest) :
    ∃ t, allocAfterLast c s = .ok ⟨⟩ t ∧ t.errno = 0 ∧ t.files = s.files ∧
      t.table = s.table.withSuccessor c ∧ CarriedOut (loopCalls (size + 1) t.table size offset c) t.io rest := by
  have hlt : c < s.table.fatLen := Nat.lt_of_not_le fun hge => hin.alloc (.inl hge)
  unfold allocAfterLast
  unfold pwriteCalls at hcalls
  unfold FatTable.withSuccessor
  rw [Cmd.bind_ok (fatTableGetNextCluster_run hlt)]
  by_cases heoc : FatTableIsEoc (s.table.nextCluster c)
  · rw [if_pos heoc] at hcalls ⊢
    rw [Cmd.when_pos heoc]
    have hscan : ¬ ∃ e, scanFree s.table (s.table.fatLen - 2) 2 = .error e :=
      fun hscan => hin.alloc (.inr ⟨heoc, hscan⟩)
    obtain ⟨hfirst, hsecond, hcalls⟩ := hcalls
    obtain ⟨t, hset, htio, httable, hterr, htfiles⟩ := fatTableSetNextCluster_after
      (d := s.table.nextFree) hfirst hlt
    rw [← htio] at hsecond
    have hfresh : s.table.nextFree < t.table.fatLen := by
      rw [httable]
      exact hin.fresh heoc
    obtain ⟨v, hset', hvio, hvtable, hverr, hvfiles⟩ := fatTableSetNextCluster_after
      (d := fatClusterEndOfChain) hsecond hfresh
    have htable : v.table = (s.table.setEntry c s.table.nextFree).setEntry s.table.nextFree
        fatClusterEndOfChain := by
      rw [hvtable, httable]
    rw [Cmd.bind_ok (fatTableGetNextFreeCluster_found hscan), Cmd.bind_ok hset]
    refine ⟨v, hset', by rw [hverr, hterr, herrno], hvfiles.trans htfiles, htable, ?_⟩
    rw [htable, hvio, htio]
    exact hcalls
  · rw [if_neg heoc] at hcalls ⊢
    rw [Cmd.when_neg heoc]
    exact ⟨s, rfl, herrno, rfl, rfl, hcalls⟩

/-- An allocation that ended cleanly was inside the table and carried out its calls. -/
theorem allocAfterLast_of_clean (size offset : Nat) (herrno : s.errno = 0) (hrun : allocAfterLast c s = .ok ⟨⟩ s')
    (hclean : s'.errno = 0) :
    ¬ AllocFaults s.table c ∧ (FatTableIsEoc (s.table.nextCluster c) → s.table.nextFree < s.table.fatLen) ∧
      s'.table = s.table.withSuccessor c ∧
      ∀ rest, CarriedOut (loopCalls (size + 1) s'.table size offset c) s'.io rest →
        CarriedOut (pwriteCalls s.table size offset c) s.io rest := by
  unfold pwriteCalls FatTable.withSuccessor
  obtain ⟨next, u, hnext, hrun⟩ := Cmd.bind_eq_ok.mp hrun
  obtain ⟨rfl, rfl, hlt⟩ := fatTableGetNextCluster_eq_ok hnext
  by_cases heoc : FatTableIsEoc (u.table.nextCluster c)
  · rw [Cmd.when_pos heoc] at hrun
    obtain ⟨free, v, hfree, hrun⟩ := Cmd.bind_eq_ok.mp hrun
    have hscan := not_scanFree_error hfree
    obtain ⟨rfl, rfl⟩ := fatTableGetNextFreeCluster_eq_ok hfree
    obtain ⟨⟨⟩, t, hset, hset'⟩ := Cmd.bind_eq_ok.mp hrun
    have hterr : t.errno = 0 := by_contra fun hne =>
      ((errnoFrom_fatTableSetNextCluster _ _).ok hset').ne_zero hne hclean
    obtain ⟨hfirst, -⟩ := (fatTableSetNextCluster_clean herrno).mp ⟨t, hset, hterr⟩
    obtain ⟨t', ht', htio, httable, -⟩ := fatTableSetNextCluster_after (d := v.table.nextFree) hfirst hlt
    obtain ⟨-, rfl⟩ := EStateM.Result.ok.inj (hset.symm.trans ht')
    obtain ⟨hsecond, hfresh⟩ := (fatTableSetNextCluster_clean hterr).mp ⟨s', hset', hclean⟩
    obtain ⟨w, hw, hwio, hwtable, -⟩ := fatTableSetNextCluster_after (d := fatClusterEndOfChain) hsecond hfresh
    obtain ⟨-, rfl⟩ := EStateM.Result.ok.inj (hset'.symm.trans hw)
    rw [httable] at hwtable hfresh
    rw [if_pos heoc, if_pos heoc]
    refine ⟨fun h => h.elim (Nat.not_le.mpr hlt) fun h => hscan h.2, fun _ => hfresh, hwtable, fun rest h => ?_⟩
    rw [hwtable, hwio, htio] at h
    rw [htio] at hsecond
    exact ⟨hfirst, hsecond, h⟩
  · rw [Cmd.when_neg heoc] at hrun
    cases hrun
    rw [if_neg heoc, if_neg heoc]
    exact ⟨fun h => h.elim (Nat.not_le.mpr hlt) fun h => heoc h.1, fun h => absurd h heoc, rfl, fun _ => id⟩

/-- What a `pwrite` returns and leaves in the error number. -/
theorem pwrite_count (s : State) (data : List UInt8) (offset : Nat) : ∃ n u,
    pwrite data offset s = .ok n u ∧
      (n = (firstCount data.length s.io : Int) ∧ u.errno = s.errno ∨
        n = -1 ∧ u.errno ≠ 0 ∧ firstCount data.length s.io = 0) := by
  unfold pwrite
  cases hio : s.io with
  | nil =>
      rw [Cmd.bind_ok (nextIoResult_nil hio)]
      exact ⟨_, _, rfl, .inl ⟨rfl, rfl⟩⟩
  | cons r rest =>
      rw [Cmd.bind_ok (nextIoResult_cons hio)]
      cases r with
      | full => exact ⟨_, _, rfl, .inl ⟨rfl, rfl⟩⟩
      | short k => exact ⟨_, _, rfl, .inl ⟨by rw [List.length_take]; rfl, rfl⟩⟩
      | fail e => exact ⟨_, _, rfl, .inr ⟨rfl, show (e : Int) + 1 ≠ 0 by omega, rfl⟩⟩

/-- An update leaves no file out. -/
theorem cell_updated_some (file : Nat) (hy : s.files.cell p = some y) (f : FatFile → FatFile) :
    ∃ y', (s.updated file f).files.cell p = some y' := by
  by_cases hp : p = file
  · rw [← hp]
    exact ⟨_, State.cell_updated_self hy f⟩
  · exact ⟨y, (State.cell_updated_ne hp f).trans hy⟩

/-- An entry is written without an error exactly when its place is in the first cluster of the directory,
and it is transferred whole. -/
theorem writeDirEntry_clean (herrno : s.errno = 0) (hy : s.files.cell p = some y) (entry : DirEntry)
    (nentry : Nat) :
    (∃ u, writeDirEntry (some p) entry nentry s = .ok ⟨⟩ u ∧ u.errno = 0) ↔
      nentry * 32 < s.table.bytesPerCluster ∧ firstCount 32 s.io = 32 := by
  have hlen : entry.toList.length = 32 := Vector.length_toList
  unfold writeDirEntry
  rw [Cmd.bind_ok (nonNull_run p s), Cmd.bind_ok (readFile_run hy), Cmd.get_bind, Cmd.ite_run]
  by_cases hslot : s.table.bytesPerCluster ≤ nentry * 32
  · rw [if_pos hslot]
    constructor
    · rintro ⟨u, hrun, hclean⟩
      cases hrun
      exact absurd hclean (by decide : enospc ≠ 0)
    · rintro ⟨hlt, -⟩
      exact absurd hslot (Nat.not_le.mpr hlt)
  rw [if_neg hslot]
  refine Iff.trans ?_ (and_iff_right (Nat.lt_of_not_le hslot)).symm
  obtain ⟨n, u, hrun, hn⟩ := pwrite_count s entry.toList (nentry * 32 + s.table.clusterOffset y.startCluster)
  rw [Cmd.bind_ok hrun]
  rw [hlen] at hn
  rcases hn with ⟨rfl, herr⟩ | ⟨rfl, herr, hnone⟩
  · have hle : firstCount 32 s.io ≤ 32 := by
      rw [← nextCount_eq]
      exact nextCount_le s 32
    by_cases hall : firstCount 32 s.io = 32
    · rw [Cmd.when_neg (by omega)]
      exact iff_of_true ⟨u, rfl, herr.trans herrno⟩ hall
    · rw [Cmd.when_pos (by omega)]
      refine iff_of_false ?_ hall
      rintro ⟨v, hv, hclean⟩
      cases hv
      exact absurd hclean (by decide : eio ≠ 0)
  · rw [Cmd.when_neg (by decide), hnone]
    refine iff_of_false ?_ (by decide)
    rintro ⟨v, hv, hclean⟩
    cases hv
    exact herr hclean

/-- What `fat_file_pwrite` does behind its loop. -/
theorem pwriteEnd_clean (env : Env) (herrno : s.errno = 0) (hx : s.files.cell file = some x)
    (hd : x.dentry = some d) (hy : s.files.cell p = some y) (P : Prop) [Decidable P]
    (g : DirEntry → DirEntry) (r : Int) :
    (∃ v u, (do
      Cmd.when P (updateDentry file g)
      fillDentryTimeNow env file false true
      let f ← readFile file
      let entry ← readDentry file
      writeDirEntry (some p) entry f.posInParent
      pure r : M Int) s = .ok v u ∧ u.errno = 0) ↔
      x.posInParent * 32 < s.table.bytesPerCluster ∧ firstCount 32 s.io = 32 := by
  -- the new size is stored, or not
  obtain ⟨t, x', d', hwhen, herr, hio, htable, hx', hd', hpos, y', hy'⟩ : ∃ t x' d',
      Cmd.when P (updateDentry file g) s = .ok ⟨⟩ t ∧ t.errno = s.errno ∧ t.io = s.io ∧
        t.table = s.table ∧ t.files.cell file = some x' ∧ x'.dentry = some d' ∧
        x'.posInParent = x.posInParent ∧ ∃ y', t.files.cell p = some y' := by
    by_cases hP : P
    · rw [Cmd.when_pos hP, updateDentry_run hx hd]
      exact ⟨_, _, _, rfl, rfl, rfl, rfl, State.cell_updated_self hx _, rfl, rfl, cell_updated_some file hy _⟩
    · rw [Cmd.when_neg hP]
      exact ⟨s, x, d, rfl, rfl, rfl, rfl, hx, hd, rfl, y, hy⟩
  have hcell := State.cell_updated_self (s := t.ticked) hx' fun x =>
    { x with dentry := some (fillDentryTime (env.time t.tick) false true d') }
  obtain ⟨y'', hy''⟩ := cell_updated_some (s := t.ticked) file hy' fun x =>
    { x with dentry := some (fillDentryTime (env.time t.tick) false true d') }
  rw [Cmd.bind_ok hwhen, Cmd.bind_ok (fillDentryTimeNow_run env hx' hd' false true),
    Cmd.bind_ok (readFile_run hcell), Cmd.bind_ok (readDentry_run hcell rfl)]
  have hclean := writeDirEntry_clean (s := t.ticked.updated file fun x =>
    { x with dentry := some (fillDentryTime (env.time t.tick) false true d') }) (herr.trans herrno) hy''
    (fillDentryTime (env.time t.tick) false true d') x'.posInParent
  rw [← hpos, ← htable, ← hio]
  refine Iff.trans ?_ hclean
  constructor
  · rintro ⟨v, u, hrun, hu⟩
    obtain ⟨⟨⟩, w, hwrite, hrest⟩ := Cmd.bind_eq_ok.mp hrun
    cases hrest
    exact ⟨_, hwrite, hu⟩
  · rintro ⟨u, hwrite, hu⟩
    exact ⟨r, u, Cmd.bind_ok hwrite, hu⟩

/-- What is needed for a write of `size` bytes at `offset` in the file `x` to report no error: the chain has
a cluster there, the write stays in the mapped table, the device carries out its calls, and the place of
the entry of the file is in the first cluster of the directory. -/
def State.WritesClean (s : State) (x : FatFile) (size offset : Nat) : Prop :=
  ∃ c rest, seekFound s.table (positionsOf s.table offset) x.startCluster = .ok (some c) ∧
    WriteInTable s.table size offset c ∧ CarriedOut (pwriteCalls s.table size offset c) s.io rest ∧
    x.posInParent * 32 < s.table.bytesPerCluster ∧ firstCount 32 rest = 32

/-- A new successor changes no size of a cluster. -/
theorem withSuccessor_bytesPerCluster (t : FatTable) (c : Nat) :
    (t.withSuccessor c).bytesPerCluster = t.bytesPerCluster := by
  unfold FatTable.withSuccessor
  split_ifs <;> rfl

/-- **Writes without an error.** From an `errno` of zero, `fat_file_pwrite` returns and leaves it at zero
exactly when `WritesClean` holds. -/
theorem fatFilePwrite_clean_iff (env : Env) (buf : List UInt8) (herrno : s.errno = 0)
    (hx : s.files.cell file = some x) (hd : x.dentry = some d) (hy : s.files.cell p = some y)
    (hoff : offset ≤ d.fileSize) :
    (∃ r u, fatFilePwrite env file buf offset (some p) s = .ok r u ∧ u.errno = 0) ↔
      s.WritesClean x buf.length offset := by
  constructor
  · rintro ⟨r, u, hrun, hclean⟩
    cases hseek : seekFound s.table (positionsOf s.table offset) x.startCluster with
    | error e =>
        rw [fatFilePwrite_seekFault env buf (some p) hx hd hoff hseek] at hrun
        cases hrun
    | ok found =>
        cases found with
        | none =>
            rw [fatFilePwrite_seekPastEnd env buf (some p) hx hd hoff hseek] at hrun
            cases hrun
            exact absurd hclean (by decide : eoverflow ≠ 0)
        | some c =>
            unfold fatFilePwrite at hrun
            rw [Cmd.bind_ok (readDentry_run hx hd), if_neg (Nat.not_lt.mpr hoff),
              Cmd.bind_ok (readFile_run hx), Cmd.bind_ok (fatTableSeekCluster_found hseek),
              Cmd.bind_ok (getErrno_run s), if_neg (not_not.mpr herrno)] at hrun
            obtain ⟨⟨⟩, s₁, halloc, hrun⟩ := Cmd.bind_eq_ok.mp hrun
            obtain ⟨⟨left, last⟩, s₂, hloop, hend⟩ := Cmd.bind_eq_ok.mp hrun
            -- an error behind is not taken back
            have hzero₂ : s₂.errno = 0 := by_contra fun hne =>
              ((errnoFrom_pwriteEnd env file (some p) _ _ _).ok hend).ne_zero hne hclean
            have hzero₁ : s₁.errno = 0 := by_contra fun hne =>
              ((errnoFrom_pwriteLoop _ _ _ _ _ _).ok hloop).ne_zero hne hzero₂
            obtain ⟨hin, hfresh, htable, hcalls⟩ := allocAfterLast_of_clean buf.length offset herrno
              halloc hzero₁
            obtain ⟨hloopIn, rest, hrest⟩ := loopInTable_of_clean _ hzero₁ hloop hzero₂
            obtain ⟨s₂', hloop', -, hio, hfiles, hbytes⟩ := pwriteLoop_clean _ 0 hzero₁ hloopIn hrest
            obtain ⟨-, rfl⟩ := EStateM.Result.ok.inj (hloop.symm.trans hloop')
            have hwrite : WriteInTable s.table buf.length offset c :=
              ⟨hin, hfresh, by rw [← htable]; exact hloopIn⟩
            obtain ⟨s₁', halloc', -, hfiles₁, -⟩ := allocAfterLast_clean herrno hwrite (hcalls rest hrest)
            obtain ⟨-, rfl⟩ := EStateM.Result.ok.inj (halloc.symm.trans halloc')
            obtain ⟨hslot, hentry⟩ := (pwriteEnd_clean env hzero₂ (by rw [hfiles, hfiles₁, hx]) hd
              (by rw [hfiles, hfiles₁, hy]) _ _ _).mp ⟨r, u, hend, hclean⟩
            rw [hbytes, htable, withSuccessor_bytesPerCluster] at hslot
            rw [hio] at hentry
            exact ⟨c, rest, hseek, hwrite, hcalls rest hrest, hslot, hentry⟩
  · rintro ⟨c, rest, hseek, hin, hcalls, hslot, hentry⟩
    obtain ⟨s₁, halloc, hzero₁, hfiles₁, htable, hcalls₁⟩ := allocAfterLast_clean herrno hin hcalls
    have hloopIn := hin.loop
    rw [← htable] at hloopIn
    obtain ⟨s₂, hloop, hzero₂, hio, hfiles₂, hbytes⟩ := pwriteLoop_clean
      (bufferMem env.aroundBuffer buf) 0 hzero₁ hloopIn hcalls₁
    have hfiles := hfiles₂.trans hfiles₁
    unfold fatFilePwrite
    rw [Cmd.bind_ok (readDentry_run hx hd), if_neg (Nat.not_lt.mpr hoff), Cmd.bind_ok (readFile_run hx),
      Cmd.bind_ok (fatTableSeekCluster_found hseek), Cmd.bind_ok (getErrno_run s),
      if_neg (not_not.mpr herrno), Cmd.bind_ok halloc, Cmd.bind_ok hloop]
    refine (pwriteEnd_clean env hzero₂ (by rw [hfiles, hx]) hd (by rw [hfiles, hy]) _ _ _).mpr ⟨?_, ?_⟩
    · rw [hbytes, htable, withSuccessor_bytesPerCluster]
      exact hslot
    · rw [hio]
      exact hentry

/-- With an error number from before the write gives up behind its seek. -/
theorem fatFilePwrite_harmless_iff (env : Env) (buf : List UInt8) (hx : s.files.cell file = some x)
    (hd : x.dentry = some d) (hy : s.files.cell p = some y) (hoff : offset ≤ d.fileSize) :
    (∃ r u, fatFilePwrite env file buf offset (some p) s = .ok r u ∧ (s.errno = 0 → u.errno = 0)) ↔
      (∀ e, seekFound s.table (positionsOf s.table offset) x.startCluster ≠ .error e) ∧
        (s.errno = 0 → s.WritesClean x buf.length offset) := by
  by_cases herrno : s.errno = 0
  · have hclean := fatFilePwrite_clean_iff env buf herrno hx hd hy hoff
    constructor
    · rintro ⟨r, u, hrun, hu⟩
      obtain ⟨c, rest, hseek, hothers⟩ := hclean.mp ⟨r, u, hrun, hu herrno⟩
      refine ⟨fun e he => ?_, fun _ => ⟨c, rest, hseek, hothers⟩⟩
      rw [hseek] at he
      cases he
    · rintro ⟨-, hall⟩
      obtain ⟨r, u, hrun, hu⟩ := hclean.mpr (hall herrno)
      exact ⟨r, u, hrun, fun _ => hu⟩
  · cases hseek : seekFound s.table (positionsOf s.table offset) x.startCluster with
    | error e =>
        refine iff_of_false ?_ fun hno => hno.1 e rfl
        rintro ⟨r, u, hrun, -⟩
        rw [fatFilePwrite_seekFault env buf (some p) hx hd hoff hseek] at hrun
        cases hrun
    | ok found =>
        refine iff_of_true ?_ ⟨nofun, fun hzero => absurd hzero herrno⟩
        cases found with
        | none =>
            exact ⟨_, _, fatFilePwrite_seekPastEnd env buf (some p) hx hd hoff hseek,
              fun hzero => absurd hzero herrno⟩
        | some c =>
            exact ⟨_, _, fatFilePwrite_stale env buf (some p) hx hd hoff hseek herrno,
              fun hzero => absurd hzero herrno⟩

end Ends

end OsLabs.Fat
