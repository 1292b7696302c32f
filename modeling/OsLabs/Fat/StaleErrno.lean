import OsLabs.Fat.LookupSpec

/-! # The error number an operation finds

Which operations depend on the value `errno` has when they are called. Most assign it first. The
lookups they share may assign it, but do not read it (`Cmd.Ignores`); `fat_fuse_open` and
`fat_fuse_opendir` return it for a path that is not found, and `fat_file_pwrite`, which
`fat_fuse_write` calls without assigning it, gives up when it is not zero. -/

namespace OsLabs.Fat

open Cmd

/-! ## Assigning the error number -/

/-- Tree memory with another error number. -/
def HMem.withErrno {α β : Type} (e : Int) (m : HMem α β) : HMem α β := { m with errno := e }

/-- A state with another error number. -/
def State.withErrno (e : Int) (s : State) : State := { s with errno := e }

/-! ### The tree -/

section Tree

variable {α β κ : Type}

/-- Reading a node does not look at the error number. -/
theorem ignores_deref (r : Nat) : Ignores HMem.withErrno (deref r : HM α β (HNode α)) := by
  intro m
  cases hc : m.nodes.cell r with
  | none => exact .inl ⟨.error .danglingPointer m, fun v => deref_error (m := m.withErrno v) hc⟩
  | some node => exact .inl ⟨.ok node m, fun v => deref_run (m := m.withErrno v) hc⟩

/-- A comparison of keys does not look at the error number. -/
theorem ignores_compareData (f : β → Except Fault Int) :
    Ignores HMem.withErrno (compareData f : HM α β Int) := by
  intro m
  cases hf : f m.store with
  | error e => exact .inl ⟨.error e m, fun v => compareData_error (m := m.withErrno v) hf⟩
  | ok c => exact .inl ⟨.ok c m, fun v => compareData_run (m := m.withErrno v) hf⟩

/-- Changing what a node holds does not look at the error number. -/
theorem ignores_modifyData (f : DataModifyFn α β) (data : α) :
    Ignores HMem.withErrno (modifyData f data : HM α β PUnit) := by
  intro m
  cases hf : f data m.store with
  | error e => exact .inl ⟨.error e m, fun v => modifyData_error (m := m.withErrno v) hf⟩
  | ok store =>
      exact .inl ⟨.ok ⟨⟩ { m with store := store }, fun v => modifyData_run (m := m.withErrno v) hf⟩

/-- `h_tree_search` goes the same way under every error number, by induction on the nodes it visits.
-/
theorem ignores_hTreeSearch (key : κ) (cmp : DataCmpFn α β κ) (fuel : Nat) (root : Ptr) :
    Ignores HMem.withErrno (hTreeSearch key cmp fuel root) := by
  induction fuel generalizing root with
  | zero => exact ignores_throw _
  | succ fuel ih =>
      cases root with
      | none => exact ignores_pure _
      | some r =>
          rw [hTreeSearch]
          refine (ignores_deref r).bind fun node => (ignores_compareData _).bind fun c => ?_
          exact ignores_ite (ih _) (ignores_ite (ih _) (ignores_pure _))

/-- `h_tree_get_data` sets the error number and never reads it. -/
theorem ignores_hTreeGetData (node : Ptr) :
    Ignores HMem.withErrno (hTreeGetData node : HM α β (Option α)) := by
  cases node with
  | none => exact (ignores_assign fun _ _ _ => rfl).bind fun _ => ignores_pure _
  | some r => exact (ignores_deref r).bind fun _ => ignores_pure _

/-- `h_tree_get_h_parent` never reads the error number. -/
theorem ignores_hTreeGetHParent (node : Ptr) :
    Ignores HMem.withErrno (hTreeGetHParent node : HM α β Ptr) := by
  cases node with
  | none => exact ignores_pure _
  | some r => exact (ignores_deref r).bind fun _ => ignores_pure _

/-- The walk to the root changes the same nodes under every error number. -/
theorem ignores_hTreeIterateHAncestors (f : DataModifyFn α β) (fuel : Nat) (node : Ptr) :
    Ignores HMem.withErrno (hTreeIterateHAncestors f fuel node : HM α β PUnit) := by
  induction fuel generalizing node with
  | zero => exact ignores_throw _
  | succ fuel ih =>
      cases node with
      | none => exact ignores_pure _
      | some r =>
          rw [hTreeIterateHAncestors]
          exact (ignores_deref r).bind fun node => (ignores_modifyData _ _).bind fun _ => ih _

/-- A tree command runs on the tree memory of the state. -/
theorem ignores_liftTree {γ : Type} {m : HM Nat (Heap FatFile) γ} (hm : Ignores HMem.withErrno m) :
    Ignores State.withErrno (liftTree m) := by
  intro s
  rcases hm s.toHMem with ⟨r, h⟩ | ⟨r, h⟩
  · cases r with
    | ok a t =>
        exact .inl ⟨.ok a { s with toHMem := t }, fun e => liftTree_ok (s := s.withErrno e) (h e)⟩
    | error f t =>
        exact .inl ⟨.error f { s with toHMem := t },
          fun e => liftTree_error (s := s.withErrno e) (h e)⟩
  · cases r with
    | ok a t =>
        exact .inr ⟨.ok a { s with toHMem := t }, fun e => liftTree_ok (s := s.withErrno e) (h e)⟩
    | error f t =>
        exact .inr ⟨.error f { s with toHMem := t },
          fun e => liftTree_error (s := s.withErrno e) (h e)⟩

end Tree

/-! ### Lookups -/

/-- The clock gives the same answer under every error number. -/
theorem ignores_ask {γ : Type} (answer : Nat → γ) : Ignores State.withErrno (ask answer) :=
  fun s => .inl ⟨.ok (answer s.tick) s.ticked, fun _ => rfl⟩

/-- The test for `NULL` does not look at the error number. -/
theorem ignores_nonNull (r : Ptr) : Ignores State.withErrno (nonNull r) := by
  cases r with
  | none => exact ignores_throw _
  | some r => exact ignores_pure _

/-- Reading a file does not look at the error number. -/
theorem ignores_readFile (file : Nat) : Ignores State.withErrno (readFile file) := by
  intro s
  cases hx : s.files.cell file with
  | none => exact .inl ⟨.error .danglingPointer s, fun v => readFile_error (s := s.withErrno v) hx⟩
  | some f => exact .inl ⟨.ok f s, fun v => readFile_run (s := s.withErrno v) hx⟩

/-- Reading an entry does not look at the error number. -/
theorem ignores_readDentry (file : Nat) : Ignores State.withErrno (readDentry file) := by
  refine (ignores_readFile file).bind fun f => ?_
  split
  · exact ignores_pure _
  · exact ignores_throw _

/-- `fat_file_is_directory` gives the same answer under every error number. -/
theorem ignores_fatFileIsDirectory (file : Ptr) : Ignores State.withErrno (fatFileIsDirectory file) := by
  refine (ignores_nonNull file).bind fun _ => (ignores_readFile _).bind fun f => ?_
  split
  · exact ignores_pure _
  · exact ignores_pure _

/-- The attributes that `getattr` reports do not depend on the error number. -/
theorem ignores_fatFileToStbuf (env : Env) (file : Ptr) :
    Ignores State.withErrno (fatFileToStbuf env file) := by
  refine (ignores_fatFileIsDirectory file).bind fun _ => (ignores_nonNull file).bind fun _ =>
    (ignores_readDentry _).bind fun entry => ?_
  refine ignores_read_pure _ ?_
  exact fun _ _ => rfl

/-- `fat_tree_node_search` finds the same node under every error number. -/
theorem ignores_fatTreeNodeSearch (key : CString) :
    Ignores State.withErrno (fatTreeNodeSearch key) := by
  intro s
  cases hroot : s.fileTree with
  | none =>
      refine .inl ⟨.error .nullPointer s, fun v => ?_⟩
      unfold fatTreeNodeSearch
      rw [get_bind, show (s.withErrno v).fileTree = none from hroot]
      rfl
  | some root =>
      have hrun (v : Int) : fatTreeNodeSearch key (s.withErrno v) =
          liftTree (hTreeSearch key fatFileCmpPath (s.nodes.next + 1) root) (s.withErrno v) := by
        unfold fatTreeNodeSearch
        rw [get_bind, show (s.withErrno v).fileTree = some root from hroot]
        rfl
      simp only [hrun]
      exact ignores_liftTree (ignores_hTreeSearch _ _ _ _) s

/-- `fat_tree_get_file` finds the same file under every error number. -/
theorem ignores_fatTreeGetFile (node : Ptr) : Ignores State.withErrno (fatTreeGetFile node) :=
  ignores_liftTree (ignores_hTreeGetData node)

/-- `fat_tree_get_parent` finds the same file under every error number. -/
theorem ignores_fatTreeGetParent (node : Ptr) : Ignores State.withErrno (fatTreeGetParent node) :=
  (ignores_liftTree (ignores_hTreeGetHParent node)).bind fun _ => ignores_fatTreeGetFile _

/-- `fat_tree_search` finds the same file under every error number. -/
theorem ignores_fatTreeSearch (key : CString) : Ignores State.withErrno (fatTreeSearch key) := by
  intro s
  rcases hroot : s.fileTree with _ | _ | r
  · refine .inl ⟨.ok none s, fun v => ?_⟩
    unfold fatTreeSearch
    rw [get_bind, show (s.withErrno v).fileTree = none from hroot]
    rfl
  · refine .inl ⟨.ok none s, fun v => ?_⟩
    unfold fatTreeSearch
    rw [get_bind, show (s.withErrno v).fileTree = some none from hroot]
    rfl
  · have hrun (v : Int) : fatTreeSearch key (s.withErrno v) =
        (fatTreeNodeSearch key >>= fatTreeGetFile) (s.withErrno v) := by
      unfold fatTreeSearch
      rw [get_bind, show (s.withErrno v).fileTree = some (some r) from hroot]
    simp only [hrun]
    exact ((ignores_fatTreeNodeSearch key).bind fun _ => ignores_fatTreeGetFile _) s

/-- The opening count goes up the same way under every error number. -/
theorem ignores_fatTreeIncNumTimesOpened (node : Ptr) :
    Ignores State.withErrno (fatTreeIncNumTimesOpened node) := fun s =>
  ignores_liftTree (ignores_hTreeIterateHAncestors incNumTimesOpened (s.nodes.next + 1) node) s

/-- The opening count goes down the same way under every error number. -/
theorem ignores_fatTreeDecNumTimesOpened (node : Ptr) :
    Ignores State.withErrno (fatTreeDecNumTimesOpened node) := fun s =>
  ignores_liftTree (ignores_hTreeIterateHAncestors decNumTimesOpened (s.nodes.next + 1) node) s

/-! ## What a write reads -/

/-- What `fat_fuse_write` has looked up before it writes to the log. -/
structure WriteLookup where
  file : Nat
  parent : Ptr
  log : Nat
  logParent : Ptr
  message : List UInt8
  logSize : Nat

/-- The part of `fat_fuse_write` before its first `fat_file_pwrite`: the value it returns early, or
the arguments of its two `fat_file_pwrite`s. -/
def writeLookup (env : Env) (fh : Ptr) (buf : List UInt8) (offset : Nat) : M (Int ⊕ WriteLookup) := do
  let file ← fatTreeGetFile fh
  let parent ← fatTreeGetParent fh
  if buf.length = 0 then pure (.inl 0)
  else do
    let f ← nonNull file
    let entry ← readDentry f
    if offset > entry.fileSize then pure (.inl (-eoverflow))
    else do
      let now ← ask env.nowStr
      let target ← readFile (← nonNull file)
      let message := logMessage now env.login target.filepath writeText
      if logMessageSize < message.length + 1 then throw .outOfBounds
      else do
        let logNode ← fatTreeNodeSearch fsLogPath
        let fsLog ← fatTreeGetFile logNode
        let logParent ← fatTreeGetParent logNode
        let log ← nonNull fsLog
        let entry ← readDentry log
        pure (.inr ⟨f, parent, log, logParent, message, entry.fileSize⟩)

/-- The rest of `fat_fuse_write`. -/
def writeBoth (env : Env) (buf : List UInt8) (offset : Nat) : Int ⊕ WriteLookup → M Int
  | .inl ret => pure ret
  | .inr r => do
      let _ ← fatFilePwrite env r.log r.message r.logSize r.logParent
      let ret ← fatFilePwrite env r.file buf offset r.parent
      pure (toInt32 ret)

/-- `fat_fuse_write` is its lookup and then the two writes, of the log and of the file; only these
report the error number. -/
theorem fatFuseWrite_eq (env : Env) (fh : Ptr) (buf : List UInt8) (offset : Nat) :
    fatFuseWrite env fh buf offset = writeLookup env fh buf offset >>= writeBoth env buf offset := by
  unfold fatFuseWrite writeLookup fatFuseLogActivity
  simp only [bind_assoc]
  refine bind_congr (m := M) fun file => ?_
  refine bind_congr (m := M) fun parent => ?_
  split
  · rfl
  · simp only [bind_assoc]
    refine bind_congr (m := M) fun f => ?_
    refine bind_congr (m := M) fun entry => ?_
    split
    · rfl
    · simp only [bind_assoc]
      refine bind_congr (m := M) fun now => ?_
      refine bind_congr (m := M) fun r => ?_
      refine bind_congr (m := M) fun target => ?_
      split
      · rfl
      · simp only [bind_assoc]
        rfl

/-- The lookup of `fat_fuse_write` does not look at the error number. -/
theorem ignores_writeLookup (env : Env) (fh : Ptr) (buf : List UInt8) (offset : Nat) :
    Ignores State.withErrno (writeLookup env fh buf offset) := by
  refine (ignores_fatTreeGetFile fh).bind fun file => (ignores_fatTreeGetParent fh).bind fun parent => ?_
  refine ignores_ite (ignores_pure _) ?_
  refine (ignores_nonNull file).bind fun f => (ignores_readDentry f).bind fun entry => ?_
  refine ignores_ite (ignores_pure _) ?_
  refine (ignores_ask _).bind fun now => (ignores_nonNull file).bind fun r =>
    (ignores_readFile r).bind fun target => ?_
  refine ignores_ite (ignores_throw _) ?_
  refine (ignores_fatTreeNodeSearch _).bind fun logNode => (ignores_fatTreeGetFile logNode).bind
    fun fsLog => (ignores_fatTreeGetParent logNode).bind fun logParent => ?_
  exact (ignores_nonNull fsLog).bind fun log => (ignores_readDentry log).bind fun entry =>
    ignores_pure _

/-- What a write has looked up when it goes on to the log. -/
theorem writeLookup_inr {env : Env} {fh : Ptr} {buf : List UInt8} {offset : Nat} {s t : State}
    {q : WriteLookup} (h : writeLookup env fh buf offset s = .ok (.inr q) t) :
    (∃ x d, t.files.cell q.log = some x ∧ x.dentry = some d ∧ d.fileSize = q.logSize) ∧
      (∃ y d, t.files.cell q.file = some y ∧ y.dentry = some d ∧ offset ≤ d.fileSize) ∧
        0 < q.message.length ∧ 0 < buf.length := by
  unfold writeLookup at h
  obtain ⟨file, s₁, -, h₁⟩ := Cmd.bind_eq_ok.mp h
  obtain ⟨parent, s₂, -, h₂⟩ := Cmd.bind_eq_ok.mp h₁
  -- A write of no bytes, or one behind the end, returns before the log is looked for.
  have hbuf : buf.length ≠ 0 := by
    intro h0
    rw [if_pos h0] at h₂
    cases h₂
  rw [if_neg hbuf] at h₂
  obtain ⟨f, s₃, -, h₃⟩ := Cmd.bind_eq_ok.mp h₂
  obtain ⟨d, s₄, hd, h₄⟩ := Cmd.bind_eq_ok.mp h₃
  obtain ⟨rfl, y, hy, hyd⟩ := readDentry_eq_ok hd
  have hoff : ¬ offset > d.fileSize := by
    intro h0
    rw [if_pos h0] at h₄
    cases h₄
  rw [if_neg hoff] at h₄
  obtain ⟨now, s₅, hnow, h₅⟩ := Cmd.bind_eq_ok.mp h₄
  obtain ⟨g, s₆, hg, h₆⟩ := Cmd.bind_eq_ok.mp h₅
  obtain ⟨rfl, -⟩ := nonNull_eq_ok hg
  obtain ⟨target, s₇, htarget, h₇⟩ := Cmd.bind_eq_ok.mp h₆
  obtain ⟨rfl, -⟩ := readFile_eq_ok htarget
  rw [Cmd.ite_run] at h₇
  split at h₇
  · cases h₇
  obtain ⟨logNode, u₁, hu₁, h₈⟩ := Cmd.bind_eq_ok.mp h₇
  obtain ⟨fsLog, u₂, hu₂, h₉⟩ := Cmd.bind_eq_ok.mp h₈
  obtain ⟨logParent, u₃, hu₃, h₁₀⟩ := Cmd.bind_eq_ok.mp h₉
  obtain ⟨log, u₄, hu₄, h₁₁⟩ := Cmd.bind_eq_ok.mp h₁₀
  obtain ⟨rfl, -⟩ := nonNull_eq_ok hu₄
  obtain ⟨e, u₅, hu₅, h₁₂⟩ := Cmd.bind_eq_ok.mp h₁₁
  obtain ⟨rfl, x, hx, hxd⟩ := readDentry_eq_ok hu₅
  cases h₁₂
  -- None of the searches touches a file.
  have hfiles : t.files = s₄.files := by
    rw [((within_fatTreeGetParent _).ok hu₃).files, ((within_fatTreeGetFile _).ok hu₂).files,
      ((within_fatTreeNodeSearch _).ok hu₁).files, ((within_ask _).ok hnow).files]
  refine ⟨⟨x, e, hx, hxd, rfl⟩, ⟨y, d, ?_, hyd, Nat.le_of_not_lt hoff⟩, ?_, by omega⟩
  · rw [hfiles]
    exact hy
  · show 0 < (logMessage now env.login target.filepath writeText).length
    rw [logMessage, List.length_append]
    exact Nat.succ_pos _

/-! ## The seek -/

/-- The cluster `fat_table_seek_cluster` finds; `none` is a chain that ends before it. -/
def seekFound (t : FatTable) : Nat → Nat → Except Fault (Option Nat)
  | 0, startCluster => .ok (some startCluster)
  | positionsToMove + 1, startCluster =>
      if startCluster = fatClusterEndOfChain then .ok none
      else if startCluster < t.fatLen then seekFound t positionsToMove (t.nextCluster startCluster)
      else .error .outOfBounds

/-- The positions `fat_table_seek_cluster` moves for an offset. -/
def positionsOf (t : FatTable) (offset : Nat) : Nat := offset >>> t.clusterOrder % 2 ^ 32

/-- `fat_table_seek_cluster` is a function of the FAT, whose answer decides what is set. -/
theorem seekFrom_eq (n c : Nat) (s : State) :
    seekFrom n c s = match seekFound s.table n c with
      | .error e => .error e s
      | .ok (some d) => .ok d s
      | .ok none => .ok 0 (s.withErrno eoverflow) := by
  induction n generalizing c with
  | zero => rfl
  | succ n ih =>
      rw [seekFrom, seekFound]
      by_cases heoc : c = fatClusterEndOfChain
      · rw [if_pos heoc, if_pos heoc]
        rfl
      · rw [if_neg heoc, if_neg heoc]
        by_cases hlt : c < s.table.fatLen
        · rw [if_pos hlt, Cmd.bind_ok (fatTableGetNextCluster_run hlt), ih]
        · rw [if_neg hlt]
          refine Cmd.bind_error (Cmd.bind_error ?_)
          exact (Cmd.ite_run _ _ _ s).trans (if_neg hlt)

/-- The only fault of a seek is a cluster without an entry. -/
theorem seekFound_error {t : FatTable} {n c : Nat} {e : Fault} (h : seekFound t n c = .error e) :
    e = .outOfBounds := by
  induction n generalizing c with
  | zero => cases h
  | succ n ih =>
      rw [seekFound] at h
      split_ifs at h
      · exact ih h
      · cases h
        rfl

end OsLabs.Fat
