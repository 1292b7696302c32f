import OsLabs.Fat.FuseOps

/-! # Where the operations log

`fat_fuse_log_activity` is called by `fat_fuse_read`, by `fat_fuse_write` and, when it made the log, by
`fat_fuse_log_init` at the end of a listing. Each of the three is split at that call, and `LogsAt` says
in which states it runs. -/

namespace OsLabs.Fat

open Cmd

/-! ## The calls of `fat_fuse_log_activity` -/

/-- `fat_fuse_read` before it looks at `errno`: the file, and what was read. -/
def readData (env : Env) (fh : Ptr) (mem : Int → UInt8) (size offset : Nat) :
    M (Ptr × Int × (Int → UInt8)) := do
  setErrno 0
  let file ← fatTreeGetFile fh
  let parent ← fatTreeGetParent fh
  let (bytesRead, mem) ← fatFilePread env (← nonNull file) mem size offset parent
  pure (file, bytesRead, mem)

/-- `fat_fuse_read` is the reading of the data and then the call to the log. -/
theorem fatFuseRead_split (env : Env) (fh : Ptr) (mem : Int → UInt8) (size offset : Nat) :
    fatFuseRead env fh mem size offset = (do
      let (file, bytesRead, mem) ← readData env fh mem size offset
      let errno ← getErrno
      if errno ≠ 0 then do
        let ret ← returnErrno
        pure (ret, mem)
      else do
        fatFuseLogActivity env readText file
        pure (toInt32 bytesRead, mem)) := by
  unfold fatFuseRead readData
  simp only [bind_assoc, pure_bind]

/-- A conditional command and what comes after it. -/
theorem ite_bind_eq {γ δ : Type} {c : Prop} [Decidable c] {x y : M γ} {x' y' : M δ} {f : γ → M δ}
    (hx : x' = x >>= f) (hy : y' = y >>= f) : (if c then x' else y') = (if c then x else y) >>= f := by
  split
  · exact hx
  · exact hy

/-- A command that both sides begin with. -/
theorem bind_bind_eq {γ δ η : Type} {m : M γ} {x' : γ → M η} {x : γ → M δ} {f : δ → M η}
    (h : ∀ a, x' a = x a >>= f) : m >>= x' = (m >>= x) >>= f := by
  rw [bind_assoc]
  congr
  funext a
  exact h a

/-- `fat_fuse_write` before it logs: the result if it gives up, otherwise the file, twice (the second
one known not to be `NULL`), and its parent. -/
def writeTarget (fh : Ptr) (buf : List UInt8) (offset : Nat) : M (Int ⊕ Ptr × Nat × Ptr) := do
  let file ← fatTreeGetFile fh
  let parent ← fatTreeGetParent fh
  if buf.length = 0 then pure (.inl 0)
  else do
    let f ← nonNull file
    let entry ← readDentry f
    if offset > entry.fileSize then pure (.inl (-eoverflow))
    else pure (.inr (file, f, parent))

/-- `fat_fuse_write` is the lookup, the call to the log, and then the writing of the data. -/
theorem fatFuseWrite_split (env : Env) (fh : Ptr) (buf : List UInt8) (offset : Nat) :
    fatFuseWrite env fh buf offset = (do
      match ← writeTarget fh buf offset with
      | .inl ret => pure ret
      | .inr (file, f, parent) => do
          fatFuseLogActivity env writeText file
          let ret ← fatFilePwrite env f buf offset parent
          pure (toInt32 ret)) := by
  refine bind_bind_eq fun file => bind_bind_eq fun parent => ite_bind_eq rfl ?_
  exact bind_bind_eq fun f => bind_bind_eq fun entry => ite_bind_eq rfl rfl

/-- `fat_fuse_readdir` before it makes the log: the result, the names, and whether it goes on to the
log. -/
def listNames (env : Env) (fh : Ptr) (filler : List CString → CString → Bool) :
    M (Int × List CString × Bool) := do
  setErrno 0
  let dir ← fatTreeGetFile fh
  if filler [] [dot] then do
    let ret ← returnErrno
    pure (ret, [], false)
  else if filler [[dot]] [dot, dot] then do
    let ret ← returnErrno
    pure (ret, [[dot]], false)
  else do
    let names := [[dot], [dot, dot]]
    let isDir ← fatFileIsDirectory dir
    if !isDir then do
      setErrno enotdir
      let ret ← returnErrno
      pure (ret, names, false)
    else do
      let dirFile ← readFile (← nonNull dir)
      Cmd.when (dirFile.childrenRead = false) (fatFuseReadChildren env fh)
      let errno ← getErrno
      if dirFile.childrenRead = false ∧ errno < 0 then do
        let ret ← returnErrno
        pure (ret, names, false)
      else do
        match ← fatTreeFlattenHChildren fh with
        | none => throw .nullPointer
        | some children => do
            let (names, complete) ← fillNames filler children names
            if !complete then do
              let ret ← returnErrno
              pure (ret, names, false)
            else pure (0, names, true)

/-- `fat_fuse_readdir` is the listing of the names and then, when they are complete,
`fat_fuse_log_init`. -/
theorem fatFuseReaddir_split (env : Env) (fh : Ptr) (filler : List CString → CString → Bool) :
    fatFuseReaddir env fh filler = (do
      let (ret, names, logs) ← listNames env fh filler
      Cmd.when (logs = true) (fatFuseLogInit env)
      pure (ret, names)) := by
  refine bind_bind_eq fun _ => bind_bind_eq fun dir => ite_bind_eq rfl (ite_bind_eq rfl ?_)
  refine bind_bind_eq fun isDir => ite_bind_eq rfl ?_
  refine bind_bind_eq fun c => bind_bind_eq fun dirFile => bind_bind_eq fun _ => bind_bind_eq fun errno =>
    ite_bind_eq rfl (bind_bind_eq fun elems => ?_)
  cases elems with
  | none => rfl
  | some children => exact bind_bind_eq fun r => ite_bind_eq rfl rfl

/-- `fat_fuse_log_init` before it logs: the log it made, if it made one. -/
def makeLog (env : Env) : M (Option Ptr) := do
  let fsLog ← fatTreeSearch fsLogPath
  match fsLog with
  | some _ => pure none
  | none => do
      let ret ← fatFuseMknod env fsLogPath
      if ret ≠ 0 then pure none
      else do
        let fsLog ← fatTreeSearch fsLogPath
        pure (some fsLog)

/-- `fat_fuse_log_init` is the making of the log and then the call to it, if it was made. -/
theorem fatFuseLogInit_split (env : Env) : fatFuseLogInit env = (do
    match ← makeLog env with
    | none => pure ⟨⟩
    | some fsLog => fatFuseLogActivity env initText fsLog) := by
  refine bind_bind_eq fun fsLog => ?_
  cases fsLog with
  | some _ => rfl
  | none => exact bind_bind_eq fun ret => ite_bind_eq rfl (by rw [bind_assoc]; rfl)

/-- The operation, called in `s`, runs `fat_fuse_log_activity` in `v`, with these arguments. -/
def LogsAt (env : Env) (s : State) : Op → CString → Ptr → State → Prop
  | .read fh mem size offset, text, target, v =>
      text = readText ∧ (∃ r, readData env fh mem size offset s = .ok r v ∧ r.1 = target) ∧ v.errno = 0
  | .write fh buf offset, text, target, v =>
      text = writeText ∧ ∃ f parent, writeTarget fh buf offset s = .ok (.inr (target, f, parent)) v
  | .readdir fh filler, text, target, v => text = initText ∧ ∃ ret names w,
      listNames env fh filler s = .ok (ret, names, true) w ∧ makeLog env w = .ok (some target) v
  | _, _, _, _ => False

/-- The call of `fat_fuse_log_activity` that the operation, called in `s`, makes: its arguments and its
state. -/
def logCall (env : Env) (s : State) : Op → Option (CString × Ptr × State)
  | .read fh mem size offset =>
      match readData env fh mem size offset s with
      | .ok r v => if v.errno = 0 then some (readText, r.1, v) else none
      | .error _ _ => none
  | .write fh buf offset =>
      match writeTarget fh buf offset s with
      | .ok (.inr r) v => some (writeText, r.1, v)
      | _ => none
  | .readdir fh filler =>
      match listNames env fh filler s with
      | .ok (_, _, true) w =>
          match makeLog env w with
          | .ok (some target) v => some (initText, target, v)
          | _ => none
      | _ => none
  | _ => none

/-- A call to the log is the one that is computed. -/
theorem LogsAt.logCall {env : Env} {s v : State} {op : Op} {text : CString} {target : Ptr}
    (h : LogsAt env s op text target v) : logCall env s op = some (text, target, v) := by
  cases op with
  | read fh mem size offset =>
      obtain ⟨rfl, ⟨r, hdata, rfl⟩, herrno⟩ := h
      rw [Fat.logCall, hdata]
      exact if_pos herrno
  | write fh buf offset =>
      obtain ⟨rfl, f, parent, htarget⟩ := h
      rw [Fat.logCall, htarget]
  | readdir fh filler =>
      obtain ⟨rfl, ret, names, w, hlist, hmake⟩ := h
      rw [Fat.logCall, hlist]
      dsimp only
      rw [hmake]
  | _ => exact h.elim

end OsLabs.Fat
