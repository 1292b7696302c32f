import OsLabs.Fat.Frames
import OsLabs.Fat.StaleErrno
import OsLabs.Fat.Layout

/-! # Which operations depend on the error number they find

A write that finds the place of its log message in the file allocation table depends on it, and so
does the opening of a path that is not found; no other operation does
(`step_sameBut_iff`). -/

namespace OsLabs.Fat

open Cmd

/-! ## Commands that only add device calls -/

/-- The device calls issued so far stay issued. -/
def WritesGrow (s t : State) : Prop := s.dev.writes.length ≤ t.dev.writes.length

instance : Std.Refl WritesGrow := ⟨fun _ => Nat.le_refl _⟩

instance : IsTrans State WritesGrow := ⟨fun _ _ _ => Nat.le_trans⟩

/-- A lookup issues no device call. -/
theorem LookedUp.writesGrow {s t : State} (h : LookedUp s t) : WritesGrow s t :=
  Nat.le_of_eq (congrArg (fun d : Device => d.writes.length) h.dev.symm)

instance : DataFrame WritesGrow where
  lookedUp _ _ h := h.writesGrow
  io _ _ := Nat.le_refl _
  write _ _ _ _ := Nat.le_succ _
  entry _ _ _ := Nat.le_refl _
  file _ _ _ _ _ _ := Nat.le_refl _
  alloc _ _ := Nat.le_refl _

section WritesGrow

/-- The next result is always there, and taking it does not touch the device. -/
theorem nextIoResult_ok (s : State) : ∃ r t, nextIoResult s = .ok r t ∧ t.dev = s.dev := by
  unfold nextIoResult
  rw [Cmd.get_bind]
  cases s.io with
  | nil => exact ⟨_, _, rfl, rfl⟩
  | cons r rest => exact ⟨_, _, rfl, rfl⟩

/-- A `pwrite` is one device call. -/
theorem pwrite_writes (data : List UInt8) (offset : Nat) (s : State) :
    s.dev.writes.length < (final (pwrite data offset s)).dev.writes.length := by
  obtain ⟨r, t, h, hdev⟩ := nextIoResult_ok s
  unfold pwrite
  rw [Cmd.bind_ok h, ← hdev]
  cases r <;> exact Nat.lt_succ_self _

/-- A `full_pwrite` of some bytes issues a device call. -/
theorem fullPwrite_writes (mem : Int → UInt8) {count : Nat} (hcount : 0 < count) (offset : Nat)
    (s : State) : s.dev.writes.length < (final (fullPwrite mem count offset s)).dev.writes.length := by
  unfold fullPwrite
  rw [Cmd.get_bind]
  refine final_bind (Q := fun t : State => s.dev.writes.length < t.dev.writes.length) ?_ fun a t ht => ht
  rw [fullPwriteLoop, if_neg (by omega)]
  refine final_bind (Q := fun t : State => s.dev.writes.length < t.dev.writes.length) ?_ fun r t ht => ?_
  · rw [pwriteAt, if_neg (by omega)]
    exact pwrite_writes _ _ s
  · refine Nat.lt_of_lt_of_le ht (?_ : WritesGrow t _)
    refine (within_ite (fun _ => ?_) fun _ => within_ite (fun _ => within_getErrno.bind fun errno => ?_)
      fun _ => within_fullPwriteLoop _ _ _ _ _ : Within WritesGrow _) t
    · exact (setErrno_within _).bind fun _ => within_pure _
    · exact within_ite (fun _ => within_fullPwriteLoop _ _ _ _ _) fun _ => within_pure _

end WritesGrow

/-! ## A write after its seek -/

/-- The allocation ahead of the loop of `fat_file_pwrite` leaves the mapped table. -/
def AllocFaults (t : FatTable) (c : Nat) : Prop :=
  t.fatLen ≤ c ∨ FatTableIsEoc (t.nextCluster c) ∧ ∃ e, scanFree t (t.fatLen - 2) 2 = .error e

/-- An allocation that leaves the mapped table is a fault, whatever the error number. -/
theorem allocAfterLast_faults {s : State} {c : Nat} (h : AllocFaults s.table c) :
    allocAfterLast c s = .error .outOfBounds s := by
  unfold allocAfterLast
  by_cases hc : s.table.fatLen ≤ c
  · refine Cmd.bind_error (Cmd.bind_error ?_)
    exact (Cmd.ite_run _ _ _ s).trans (if_neg (Nat.not_lt.mpr hc))
  · obtain ⟨heoc, e, he⟩ := h.resolve_left hc
    rw [Cmd.bind_ok (fatTableGetNextCluster_run (Nat.lt_of_not_le hc)), Cmd.when_pos heoc]
    refine Cmd.bind_error ?_
    unfold fatTableGetNextFreeCluster
    rw [Cmd.get_bind, he, scanFree_error he]
    rfl

/-- Without a fault the allocation ahead goes on: either it has linked a cluster on the device, or it
has changed nothing. -/
theorem allocAfterLast_goes_on {s : State} {c : Nat} (h : ¬ AllocFaults s.table c) :
    s.dev.writes.length < (final (allocAfterLast c s)).dev.writes.length ∨
      allocAfterLast c s = .ok ⟨⟩ s := by
  have hc : c < s.table.fatLen := Nat.lt_of_not_le fun hc => h (.inl hc)
  unfold allocAfterLast
  rw [Cmd.bind_ok (fatTableGetNextCluster_run hc)]
  by_cases heoc : FatTableIsEoc (s.table.nextCluster c)
  · rw [Cmd.when_pos heoc]
    left
    have hfree : ∃ d, fatTableGetNextFreeCluster s = .ok d s := by
      unfold fatTableGetNextFreeCluster
      rw [Cmd.get_bind]
      cases he : scanFree s.table (s.table.fatLen - 2) 2 with
      | error e => exact absurd (.inr ⟨heoc, e, he⟩) h
      | ok d =>
          show ∃ d', (if s.table.IsValidClusterNumber d then pure d
            else pure fatClusterEndOfChain : M Nat) s = .ok d' s
          split
          · exact ⟨d, rfl⟩
          · exact ⟨fatClusterEndOfChain, rfl⟩
    obtain ⟨d, hd⟩ := hfree
    rw [Cmd.bind_ok hd]
    refine final_bind (Q := fun t : State => s.dev.writes.length < t.dev.writes.length) ?_
      fun _ t ht => Nat.lt_of_lt_of_le ht (within_fatTableSetNextCluster (R := WritesGrow) _ _ t)
    unfold fatTableSetNextCluster
    rw [Cmd.get_bind]
    refine final_bind (Q := fun t : State => s.dev.writes.length < t.dev.writes.length)
      (pwrite_writes _ _ s) fun r t ht => Nat.lt_of_lt_of_le ht (?_ : WritesGrow t _)
    refine within_ite (fun _ => setErrno_within _) (fun _ => (within_readEntry _).bind
      fun _ => ?_) t
    exact within_modify fun _ => Nat.le_refl _
  · rw [Cmd.when_neg heoc]
    exact .inr rfl

/-- The loop of `fat_file_pwrite` starts with a device call. -/
theorem pwriteLoop_writes (mem : Int → UInt8) (fuel pos : Nat) {n : Nat} (hn : 0 < n) (offset c : Nat)
    (s : State) :
    s.dev.writes.length < (final (pwriteLoop mem (fuel + 1) pos n offset c s)).dev.writes.length := by
  have hcount : 0 < s.table.clusterRemainingBytes n offset := by
    have := Nat.mod_lt offset s.table.bytesPerCluster_pos
    rw [FatTable.clusterRemainingBytes, FatTable.maskOffset_eq]
    omega
  rw [pwriteLoop, if_neg (by omega), Cmd.get_bind]
  refine final_bind (Q := fun t : State => s.dev.writes.length < t.dev.writes.length)
    (fullPwrite_writes _ hcount _ s) fun r t ht => Nat.lt_of_lt_of_le ht (?_ : WritesGrow t _)
  refine (within_ite (fun _ => within_pure _) fun _ => ?_ : Within WritesGrow _) t
  refine within_ite (fun _ => within_pure _) fun _ => ?_
  refine (within_fatTableGetNextCluster _).bind fun next => within_ite (fun _ => ?_) fun _ => ?_
  · refine within_fatTableGetNextFreeCluster.bind fun free =>
      (within_fatTableSetNextCluster _ _).bind fun _ => within_getErrno.bind fun errno => ?_
    exact within_ite (fun _ => within_pure _) fun _ => within_pwriteLoop _ _ _ _ _ _
  · refine within_getErrno.bind fun errno => ?_
    exact within_ite (fun _ => within_pure _) fun _ => within_pwriteLoop _ _ _ _ _ _

section PwriteSeek

variable {s : State} {file offset c : Nat} {x : FatFile} {d : DirEntry}

variable (env : Env) (buf : List UInt8) (parent : Ptr) (hx : s.files.cell file = some x)
  (hd : x.dentry = some d) (hoff : offset ≤ d.fileSize)
include hx hd hoff

/-- A write whose seek leaves the mapped table is a fault. -/
theorem fatFilePwrite_seekFault {e : Fault}
    (h : seekFound s.table (positionsOf s.table offset) x.startCluster = .error e) :
    fatFilePwrite env file buf offset parent s = .error .outOfBounds s := by
  unfold fatFilePwrite
  rw [Cmd.bind_ok (readDentry_run hx hd), if_neg (Nat.not_lt.mpr hoff),
    Cmd.bind_ok (readFile_run hx)]
  refine Cmd.bind_error ?_
  unfold fatTableSeekCluster
  rw [Cmd.get_bind]
  refine (seekFrom_eq _ _ s).trans ?_
  rw [← positionsOf, h, seekFound_error h]

/-- A write behind the end of the chain writes nothing and sets `EOVERFLOW`. -/
theorem fatFilePwrite_seekPastEnd
    (h : seekFound s.table (positionsOf s.table offset) x.startCluster = .ok none) :
    fatFilePwrite env file buf offset parent s = .ok 0 (s.withErrno eoverflow) := by
  have hseek : fatTableSeekCluster x.startCluster offset s = .ok 0 (s.withErrno eoverflow) := by
    unfold fatTableSeekCluster
    rw [Cmd.get_bind]
    refine (seekFrom_eq _ _ s).trans ?_
    rw [← positionsOf, h]
  unfold fatFilePwrite
  rw [Cmd.bind_ok (readDentry_run hx hd), if_neg (Nat.not_lt.mpr hoff),
    Cmd.bind_ok (readFile_run hx), Cmd.bind_ok hseek, Cmd.bind_ok (getErrno_run _),
    if_pos (show (s.withErrno eoverflow).errno ≠ 0 from (by decide : eoverflow ≠ 0))]
  rfl

variable (hc : seekFound s.table (positionsOf s.table offset) x.startCluster = .ok (some c))
include hc

omit hx hd hoff in

/-- The seek that finds a cluster changes nothing. -/
theorem fatTableSeekCluster_found : fatTableSeekCluster x.startCluster offset s = .ok c s := by
  unfold fatTableSeekCluster
  rw [Cmd.get_bind]
  refine (seekFrom_eq _ _ s).trans ?_
  rw [← positionsOf, hc]

/-- An error number that is not zero makes `fat_file_pwrite` give up, although its seek succeeded. -/
theorem fatFilePwrite_stale (he : s.errno ≠ 0) :
    fatFilePwrite env file buf offset parent s = .ok 0 s := by
  unfold fatFilePwrite
  rw [Cmd.bind_ok (readDentry_run hx hd), if_neg (Nat.not_lt.mpr hoff),
    Cmd.bind_ok (readFile_run hx), Cmd.bind_ok (fatTableSeekCluster_found hc),
    Cmd.bind_ok (getErrno_run _), if_pos he]
  rfl

/-- With no error before it, the allocation of a write leaves the mapped table. -/
theorem fatFilePwrite_allocFault (he : s.errno = 0) (h : AllocFaults s.table c) :
    fatFilePwrite env file buf offset parent s = .error .outOfBounds s := by
  unfold fatFilePwrite
  rw [Cmd.bind_ok (readDentry_run hx hd), if_neg (Nat.not_lt.mpr hoff),
    Cmd.bind_ok (readFile_run hx), Cmd.bind_ok (fatTableSeekCluster_found hc),
    Cmd.bind_ok (getErrno_run _), if_neg (not_not.mpr he)]
  exact Cmd.bind_error (allocAfterLast_faults h)

/-- With the error number zero a device call is issued. -/
theorem fatFilePwrite_writes (he : s.errno = 0) (h : ¬ AllocFaults s.table c) (hbuf : 0 < buf.length) :
    s.dev.writes.length < (final (fatFilePwrite env file buf offset parent s)).dev.writes.length := by
  unfold fatFilePwrite
  rw [Cmd.bind_ok (readDentry_run hx hd), if_neg (Nat.not_lt.mpr hoff),
    Cmd.bind_ok (readFile_run hx), Cmd.bind_ok (fatTableSeekCluster_found hc),
    Cmd.bind_ok (getErrno_run _), if_neg (not_not.mpr he)]
  rcases allocAfterLast_goes_on h with hgrow | hok
  · refine final_bind (Q := fun t : State => s.dev.writes.length < t.dev.writes.length) hgrow
      fun _ t ht => Nat.lt_of_lt_of_le ht (?_ : WritesGrow t _)
    exact ((within_pwriteLoop _ _ _ _ _ _).bind fun r =>
      within_pwriteEnd env file parent _ (fun _ => DirEntry.attribs_setFileSize _ _) _) t
  · rw [Cmd.bind_ok hok]
    refine final_bind (Q := fun t : State => s.dev.writes.length < t.dev.writes.length)
      (pwriteLoop_writes _ _ _ hbuf _ _ s) fun r t ht => Nat.lt_of_lt_of_le ht (?_ : WritesGrow t _)
    exact within_pwriteEnd env file parent _ (fun _ => DirEntry.attribs_setFileSize _ _) _ t

end PwriteSeek

/-! ## Writing to the log and to the file -/

/-- With the error number zero, the `fat_file_pwrite` to the log neither ends at its seek nor, at the
table, as the one to the file does at its seek. -/
def LogWriteStarts (t : State) (q : WriteLookup) (offset : Nat) : Prop :=
  ∃ x c, t.files.cell q.log = some x ∧
    seekFound t.table (positionsOf t.table q.logSize) x.startCluster = .ok (some c) ∧
    ¬ (AllocFaults t.table c ∧ ∃ y, t.files.cell q.file = some y ∧
      ∃ e, seekFound t.table (positionsOf t.table offset) y.startCluster = .error e)

section WriteBoth

variable {env : Env} {fh : Ptr} {buf : List UInt8} {offset : Nat} {s t : State} {q : WriteLookup}

/-- The writes behind a lookup that finds both files. -/
theorem writeBoth_inr (q : WriteLookup) : writeBoth env buf offset (.inr q) = (do
    let _ ← fatFilePwrite env q.log q.message q.logSize q.logParent
    let ret ← fatFilePwrite env q.file buf offset q.parent
    pure (toInt32 ret)) := rfl

/-- With a non-zero error number, once the log write gives up, nothing is written at all. -/
theorem writeBoth_stale (hlook : writeLookup env fh buf offset s = .ok (.inr q) t) {x : FatFile}
    {c : Nat} (hx : t.files.cell q.log = some x)
    (hc : seekFound t.table (positionsOf t.table q.logSize) x.startCluster = .ok (some c))
    {v : Int} (hv : v ≠ 0) :
    ∃ y, t.files.cell q.file = some y ∧
      writeBoth env buf offset (.inr q) (t.withErrno v) =
        match seekFound t.table (positionsOf t.table offset) y.startCluster with
        | .error _ => .error .outOfBounds (t.withErrno v)
        | .ok none => .ok 0 (t.withErrno eoverflow)
        | .ok (some _) => .ok 0 (t.withErrno v) := by
  obtain ⟨⟨x', d, hx', hd, hsize⟩, ⟨y, d', hy, hd', hoff⟩, -⟩ := writeLookup_inr hlook
  obtain rfl : x' = x := Option.some.inj (hx'.symm.trans hx)
  refine ⟨y, hy, ?_⟩
  have hlog : fatFilePwrite env q.log q.message q.logSize q.logParent (t.withErrno v) =
      .ok 0 (t.withErrno v) :=
    fatFilePwrite_stale (s := t.withErrno v) env _ _ hx' hd (Nat.le_of_eq hsize.symm) hc hv
  rw [writeBoth_inr, Cmd.bind_ok hlog]
  cases hseek : seekFound t.table (positionsOf t.table offset) y.startCluster with
  | error e =>
      exact Cmd.bind_error
        (fatFilePwrite_seekFault (s := t.withErrno v) env _ _ hy hd' hoff hseek)
  | ok found =>
      cases found with
      | none =>
          rw [Cmd.bind_ok
            (fatFilePwrite_seekPastEnd (s := t.withErrno v) env _ _ hy hd' hoff hseek)]
          rfl
      | some c' =>
          rw [Cmd.bind_ok
            (fatFilePwrite_stale (s := t.withErrno v) env _ _ hy hd' hoff hseek hv)]
          rfl

/-- A write whose log write does not start does not depend on the error number. -/
theorem writeBoth_sameBut (hlook : writeLookup env fh buf offset s = .ok (.inr q) t)
    (h : ¬ LogWriteStarts t q offset) (e₁ e₂ : Int) :
    SameBut State.withErrno (writeBoth env buf offset (.inr q) (t.withErrno e₁))
      (writeBoth env buf offset (.inr q) (t.withErrno e₂)) := by
  obtain ⟨⟨x, d, hx, hd, hsize⟩, ⟨y, d', hy, hd', hoff⟩, -⟩ := writeLookup_inr hlook
  -- The search of the log's cluster comes before `errno` is looked at.
  cases hseek : seekFound t.table (positionsOf t.table q.logSize) x.startCluster with
  | error f =>
      have hrun (v : Int) : writeBoth env buf offset (.inr q) (t.withErrno v) =
          .error .outOfBounds (t.withErrno v) :=
        Cmd.bind_error (fatFilePwrite_seekFault (s := t.withErrno v) env _ _ hx hd
          (Nat.le_of_eq hsize.symm) hseek)
      rw [hrun, hrun]
      exact .inr ⟨e₂, rfl⟩
  | ok found =>
      cases found with
      | none =>
          have hrun (v : Int) : fatFilePwrite env q.log q.message q.logSize q.logParent
              (t.withErrno v) = .ok 0 (t.withErrno eoverflow) :=
            fatFilePwrite_seekPastEnd (s := t.withErrno v) env _ _ hx hd (Nat.le_of_eq hsize.symm) hseek
          rw [writeBoth_inr, Cmd.bind_ok (hrun e₁), Cmd.bind_ok (hrun e₂)]
          exact .inl rfl
      | some c =>
          -- The accesses behind the search are out of bounds, that of the log and that of the data.
          obtain ⟨halloc, y', hy', f, hf⟩ : AllocFaults t.table c ∧ ∃ y, t.files.cell q.file = some y ∧
              ∃ e, seekFound t.table (positionsOf t.table offset) y.startCluster = .error e := by
            by_contra hno
            exact h ⟨x, c, hx, hseek, hno⟩
          obtain rfl : y' = y := Option.some.inj (hy'.symm.trans hy)
          have hrun (v : Int) : writeBoth env buf offset (.inr q) (t.withErrno v) =
              .error .outOfBounds (t.withErrno v) := by
            -- With `errno` zero the fault is in the log write, otherwise in the write of the data.
            by_cases hv : v = 0
            · exact Cmd.bind_error (fatFilePwrite_allocFault (s := t.withErrno v) env _ _ hx hd
                (Nat.le_of_eq hsize.symm) hseek hv halloc)
            · obtain ⟨z, hz, hout⟩ := writeBoth_stale hlook hx hseek hv
              obtain rfl : z = y' := Option.some.inj (hz.symm.trans hy')
              rw [hout, hf]
          rw [hrun, hrun]
          exact .inr ⟨e₂, rfl⟩

/-- A write whose log write starts ends differently with another error number. -/
theorem not_writeBoth_sameBut (hlook : writeLookup env fh buf offset s = .ok (.inr q) t)
    (h : LogWriteStarts t q offset) :
    ¬ SameBut State.withErrno (writeBoth env buf offset (.inr q) (t.withErrno 0))
      (writeBoth env buf offset (.inr q) (t.withErrno 1)) := by
  obtain ⟨x, c, hx, hc, hstart⟩ := h
  obtain ⟨⟨x', d, hx', hd, hsize⟩, ⟨y, d', hy, hd', hoff⟩, hmessage, -⟩ := writeLookup_inr hlook
  obtain rfl : x' = x := Option.some.inj (hx'.symm.trans hx)
  obtain ⟨z, hz, hout⟩ := writeBoth_stale hlook hx hc (v := 1) (by decide)
  obtain rfl : z = y := Option.some.inj (hz.symm.trans hy)
  by_cases halloc : AllocFaults t.table c
  · -- the write faults at the table, and the other one returns
    have hrun : writeBoth env buf offset (.inr q) (t.withErrno 0) = .error .outOfBounds (t.withErrno 0) :=
      Cmd.bind_error (fatFilePwrite_allocFault (s := t.withErrno 0) env _ _ hx hd
        (Nat.le_of_eq hsize.symm) hc rfl halloc)
    rw [hrun, hout]
    cases hseek : seekFound t.table (positionsOf t.table offset) z.startCluster with
    | error e => exact absurd ⟨halloc, z, hz, e, hseek⟩ hstart
    | ok found =>
        cases found <;> rintro (heq | ⟨v, heq⟩) <;> cases heq
  · -- the write issues a device call, and the other one does not
    have hgrow : t.dev.writes.length <
        (final (writeBoth env buf offset (.inr q) (t.withErrno 0))).dev.writes.length := by
      refine final_bind (Q := fun u : State => t.dev.writes.length < u.dev.writes.length)
        (fatFilePwrite_writes (s := t.withErrno 0) env _ _ hx hd (Nat.le_of_eq hsize.symm) hc rfl
          halloc hmessage) fun r u hu => ?_
      exact Nat.lt_of_lt_of_le hu
        (((within_fatFilePwrite env _ _ _ _).bind fun _ => within_pure _ : Within WritesGrow _) u)
    have hkeep : (final (writeBoth env buf offset (.inr q) (t.withErrno 1))).dev = t.dev := by
      rw [hout]
      split <;> rfl
    rintro (heq | ⟨v, heq⟩)
    · rw [heq] at hkeep
      rw [hkeep] at hgrow
      exact Nat.lt_irrefl _ hgrow
    · have hdev : (final (writeBoth env buf offset (.inr q) (t.withErrno 1))).dev =
          (final (writeBoth env buf offset (.inr q) (t.withErrno 0))).dev := by
        rw [heq]
        cases writeBoth env buf offset (.inr q) (t.withErrno 0) <;> rfl
      rw [← hdev, hkeep] at hgrow
      exact Nat.lt_irrefl _ hgrow

end WriteBoth

/-! ## All operations -/

/-- An error number set to what it is. -/
@[simp] theorem State.withErrno_self (s : State) : s.withErrno s.errno = s := rfl

/-- The last error number set is the one that stays. -/
theorem State.withErrno_withErrno (v w : Int) (s : State) :
    (s.withErrno v).withErrno w = s.withErrno w := rfl

/-- Before an assignment the error number does not matter. -/
theorem setErrno_bind_withErrno {γ : Type} (k : Int) (f : PUnit → M γ) (e : Int) (s : State) :
    (setErrno k >>= f) (s.withErrno e) = f ⟨⟩ (s.withErrno k) := rfl

/-- A search of the tree leaves the state alone. -/
theorem final_fatTreeNodeSearch (key : CString) (s : State) :
    final (fatTreeNodeSearch key s) = s := by
  have h : Within (fun s t : State => s = t) (fatTreeNodeSearch key) := by
    refine within_get_bind fun s => ?_
    cases s.fileTree with
    | none => rfl
    | some root =>
        exact within_liftTree (within_hTreeSearch (R := fun m m' => m = m') _ _ _ _)
          (fun s m hm => by subst hm; rfl) s
  exact (h s).symm

/-- The search for a path passes the error number on. -/
theorem fatTreeNodeSearch_withErrno (key : CString) (s : State) (e : Int) :
    fatTreeNodeSearch key (s.withErrno e) = mapFinal (State.withErrno e) (fatTreeNodeSearch key s) := by
  rcases ignores_fatTreeNodeSearch key s with ⟨r, h⟩ | ⟨r, h⟩
  · have hs := h s.errno
    rw [State.withErrno_self] at hs
    rw [h, hs]
    cases r <;> rfl
  · have h0 := final_fatTreeNodeSearch key (s.withErrno 0)
    have h1 := final_fatTreeNodeSearch key (s.withErrno 1)
    rw [h] at h0 h1
    have herrno : (0 : Int) = 1 := congrArg (fun s : State => s.errno) (h0.symm.trans h1)
    exact absurd herrno (by decide)

/-- A command that looks a path up and returns `-errno` when it is not found depends on the error
number just for the paths that are not found. -/
theorem search_sameBut_iff {path : CString} {k : Ptr → M Reply} {s : State}
    (hnone : ∀ s, k none s = .ok { ret := -s.errno } s)
    (hsome : ∀ n, Ignores State.withErrno (k (some n))) :
    (∀ e₁ e₂, SameBut State.withErrno ((fatTreeNodeSearch path >>= k) (s.withErrno e₁))
      ((fatTreeNodeSearch path >>= k) (s.withErrno e₂))) ↔
    ¬ fatTreeNodeSearch path s = .ok none s := by
  constructor
  -- Without a node the reply is the negated `errno` of before.
  · intro h hsearch
    have hrun (e : Int) : (fatTreeNodeSearch path >>= k) (s.withErrno e) =
        .ok { ret := -e } (s.withErrno e) := by
      have hs := fatTreeNodeSearch_withErrno path s e
      rw [hsearch] at hs
      rw [Cmd.bind_ok hs, hnone]
      rfl
    have h01 := h 0 1
    -- The values 0 and 1 tell the two runs apart.
    rw [hrun, hrun] at h01
    rcases h01 with heq | ⟨v, heq⟩
    · have hret : some (-1 : Int) = some 0 := congrArg (fun r => (Cmd.ret? r).map Reply.ret) heq
      exact absurd hret (by decide)
    · have hret : some (-1 : Int) = some 0 := congrArg (fun r => (Cmd.ret? r).map Reply.ret) heq
      exact absurd hret (by decide)
  · intro h e₁ e₂
    have hs (e : Int) := fatTreeNodeSearch_withErrno path s e
    have hfinal := final_fatTreeNodeSearch path s
    cases hr : fatTreeNodeSearch path s with
    | error f t =>
        rw [hr] at hs
        rw [Cmd.bind_error (hs e₁), Cmd.bind_error (hs e₂)]
        exact .inr ⟨e₂, rfl⟩
    | ok node t =>
        rw [hr] at hs hfinal
        cases hfinal
        cases node with
        | none => exact absurd hr h
        | some n =>
            rw [Cmd.bind_ok (hs e₁), Cmd.bind_ok (hs e₂)]
            exact (hsome n).sameBut State.withErrno_withErrno _ e₁ e₂

/-- The operations whose outcome depends on the error number they find. -/
def ReadsErrno (env : Env) (s : State) : Op → Prop
  | .open path => fatTreeNodeSearch path s = .ok none s
  | .opendir path => fatTreeNodeSearch path s = .ok none s
  | .write fh buf offset =>
      ∃ q t, (∀ e, writeLookup env fh buf offset (s.withErrno e) = .ok (.inr q) (t.withErrno e)) ∧
        LogWriteStarts t q offset
  | _ => False

/-- `write` does the same under all error numbers just in the states in which it does not read them.
-/
theorem write_sameBut_iff (env : Env) (fh : Ptr) (buf : List UInt8) (offset : Nat) (s : State) :
    (∀ e₁ e₂, SameBut State.withErrno (fatFuseWrite env fh buf offset (s.withErrno e₁))
      (fatFuseWrite env fh buf offset (s.withErrno e₂))) ↔
    ¬ ReadsErrno env s (.write fh buf offset) := by
  rw [fatFuseWrite_eq]
  constructor
  · rintro h ⟨q, t, hlook, hstart⟩
    have h01 := h 0 1
    rw [Cmd.bind_ok (hlook 0), Cmd.bind_ok (hlook 1)] at h01
    exact not_writeBoth_sameBut (hlook 0) hstart h01
  · intro h e₁ e₂
    rcases ignores_writeLookup env fh buf offset s with ⟨r, hr⟩ | ⟨r, hr⟩
    · cases r with
      | error f t =>
          rw [Cmd.bind_error (hr e₁), Cmd.bind_error (hr e₂)]
          exact .inr ⟨e₂, rfl⟩
      | ok out t =>
          rw [Cmd.bind_ok (hr e₁), Cmd.bind_ok (hr e₂)]
          cases out with
          | inl ret => exact .inr ⟨e₂, rfl⟩
          | inr q =>
              exact writeBoth_sameBut (hr 0) (fun hstart => h ⟨q, t, hr, hstart⟩) e₁ e₂
    · refine .inl ?_
      cases r with
      | error f t => rw [Cmd.bind_error (hr e₁), Cmd.bind_error (hr e₂)]
      | ok out t => rw [Cmd.bind_ok (hr e₁), Cmd.bind_ok (hr e₂)]

/-- An operation ends the same way, up to the error number, from any two error numbers it may find,
unless it opens a path that is not found or writes with a log write that starts. -/
theorem step_sameBut_iff (env : Env) (op : Op) (s : State) :
    (∀ e₁ e₂, SameBut State.withErrno (step env op (s.withErrno e₁)) (step env op (s.withErrno e₂))) ↔
      ¬ ReadsErrno env s op := by
  have hignores {op : Op} (h : Ignores State.withErrno (step env op)) (hno : ¬ ReadsErrno env s op) :
      (∀ e₁ e₂, SameBut State.withErrno (step env op (s.withErrno e₁))
        (step env op (s.withErrno e₂))) ↔ ¬ ReadsErrno env s op :=
    ⟨fun _ => hno, fun _ => h.sameBut State.withErrno_withErrno s⟩
  have hassigns {op : Op} {k : Int} {f : PUnit → M Reply} (h : step env op = setErrno k >>= f)
      (hno : ¬ ReadsErrno env s op) :
      (∀ e₁ e₂, SameBut State.withErrno (step env op (s.withErrno e₁))
        (step env op (s.withErrno e₂))) ↔ ¬ ReadsErrno env s op := by
    refine ⟨fun _ => hno, fun _ e₁ e₂ => .inl ?_⟩
    rw [h, setErrno_bind_withErrno, setErrno_bind_withErrno]
  -- Eight operations set `errno` themselves, the others ignore it, look it up, or write.
  cases op with
  | getattr path =>
      refine hignores ?_ id
      simp only [step, fatFuseGetattr, bind_assoc]
      refine (ignores_fatTreeSearch path).bind fun file => ?_
      cases file with
      | none => exact fun s => .inr ⟨.ok { ret := -enoent } (s.withErrno enoent), fun _ => rfl⟩
      | some f =>
          exact ((ignores_fatFileToStbuf env _).bind fun _ => ignores_pure _).bind
            fun _ => ignores_pure _
  | fgetattr fh =>
      refine hignores ?_ id
      simp only [step, fatFuseFgetattr, bind_assoc]
      exact (ignores_fatTreeGetFile fh).bind fun file =>
        (ignores_fatFileToStbuf env file).bind fun _ => ignores_pure _
  | «open» path =>
      simp only [step, fatFuseOpen, bind_assoc]
      refine search_sameBut_iff (fun _ => rfl) fun n => ?_
      simp only [bind_assoc]
      refine (ignores_fatTreeGetFile _).bind fun file =>
        (ignores_fatFileIsDirectory file).bind fun isDir => ?_
      cases isDir with
      | true => exact (ignores_pure _).bind fun _ => ignores_pure _
      | false =>
          exact ((ignores_fatTreeIncNumTimesOpened _).bind fun _ => ignores_pure _).bind
            fun _ => ignores_pure _
  | opendir path =>
      simp only [step, fatFuseOpendir, bind_assoc]
      refine search_sameBut_iff (fun _ => rfl) fun n => ?_
      simp only [bind_assoc]
      refine (ignores_fatTreeGetFile _).bind fun file =>
        (ignores_fatFileIsDirectory file).bind fun isDir => ?_
      cases isDir with
      | true =>
          exact ((ignores_fatTreeIncNumTimesOpened _).bind fun _ => ignores_pure _).bind
            fun _ => ignores_pure _
      | false => exact (ignores_pure _).bind fun _ => ignores_pure _
  | write fh buf offset =>
      rw [← write_sameBut_iff]
      exact forall_congr' fun e₁ => forall_congr' fun e₂ =>
        sameBut_bind_pure (g := fun ret => ({ ret := ret } : Reply)) fun _ _ h => congrArg Reply.ret h
  | release fh =>
      refine hignores ?_ id
      simp only [step, fatFuseRelease, bind_assoc]
      exact (ignores_fatTreeDecNumTimesOpened fh).bind fun _ => ignores_pure _
  | releasedir fh =>
      refine hignores ?_ id
      simp only [step, fatFuseReleasedir, bind_assoc]
      exact (ignores_fatTreeDecNumTimesOpened fh).bind fun _ => ignores_pure _
  | readdir fh filler => exact hassigns (by simp only [step, fatFuseReaddir, bind_assoc]; rfl) id
  | read fh mem size offset => exact hassigns (by simp only [step, fatFuseRead, bind_assoc]; rfl) id
  | mkdir path => exact hassigns (by simp only [step, fatFuseMkdir, bind_assoc]; rfl) id
  | mknod path => exact hassigns (by simp only [step, fatFuseMknod, bind_assoc]; rfl) id
  | unlink path => exact hassigns (by simp only [step, fatFuseUnlink, bind_assoc]; rfl) id
  | rmdir path => exact hassigns (by simp only [step, fatFuseRmdir, bind_assoc]; rfl) id
  | utime path actime modtime => exact hassigns (by simp only [step, fatFuseUtime, bind_assoc]; rfl) id
  | truncate path offset => exact hassigns (by simp only [step, fatFuseTruncate, bind_assoc]; rfl) id

/-- The opening of a path that is not in a fresh tree succeeds when the error number is zero. -/
theorem not_forall_step_sameBut :
    ¬ ∀ (env : Env) (op : Op) (s : State) (e₁ e₂ : Int),
      SameBut State.withErrno (step env op (s.withErrno e₁)) (step env op (s.withErrno e₂)) := by
  intro hall
  have hret (v : Int) (hv : v = 0 ∨ v = 2) :
      (Cmd.ret? (step quietEnv (.open fsLogPath) (freshVolume.withErrno v))).map Reply.ret = some (-v) := by
    rcases hv with rfl | rfl <;> decide +kernel
  rcases hall quietEnv (.open fsLogPath) freshVolume 0 2 with heq | ⟨v, heq⟩
  · have h2 := hret 2 (.inr rfl)
    rw [heq, hret 0 (.inl rfl)] at h2
    exact absurd h2 (by decide)
  · have h2 := hret 2 (.inr rfl)
    have hkeep (r : EStateM.Result Fault State Reply) :
        (Cmd.ret? (mapFinal (State.withErrno v) r)).map Reply.ret = (Cmd.ret? r).map Reply.ret := by
      cases r <;> rfl
    rw [heq, hkeep, hret 0 (.inl rfl)] at h2
    exact absurd h2 (by decide)

end OsLabs.Fat
