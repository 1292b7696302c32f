import OsLabs.Fat.FileStore
import OsLabs.Fat.LogSessions

/-! # Reading and writing through handles, with the log

`fat_fuse_read` and `fat_fuse_write` are the operations on data that programs see. What they are for: the files are
arrays of bytes, and every read and every write adds a line to one of them, the log (`LogStore.Step`).
`fuseCalls_refine` says that any run of the two, each call within its limits (`FuseFits`), returns what such a store
returns and leaves on the volume what the store has then, the log included. `auditTrail` reads off what is in
the log: one line for each call that did something, in the order of the calls. -/

namespace OsLabs.Fat

open Transition

/-! ## The store with a log -/

namespace LogStore

variable {H F : Type}

/-- What a call through a handle reports. -/
inductive Event (H : Type)
  | read (h : H) (size offset : Nat) (count : Int) (bytes : List UInt8)
  | written (h : H) (buf : List UInt8) (offset : Nat) (count : Int)
  deriving DecidableEq

/-- The contents of the files, and the time. -/
structure Contents (F : Type) where
  clock : Nat
  bytes : F → Option (List UInt8)

variable [DecidableEq F]

/-- A message is added to the log, and time goes on. -/
def Contents.logged (A : Contents F) (log : F) (old message : List UInt8) (clock : Nat) : Contents F :=
  ⟨clock, Function.update A.bytes log (some (old ++ message))⟩

/-- What may happen to the contents: a call through a handle `h` is for the file `file h`, and it is logged as
`message now h operation`, before the data is written and after it is read. Writing nothing, or behind the end, is
not logged. -/
inductive Step (file : H → F) (log : F) (message : Nat → H → CString → List UInt8) (A : Contents F) :
    Event H → Contents F → Prop
  | read {h : H} {bytes old : List UInt8} {now clock : Nat} (hfile : A.bytes (file h) = some bytes)
      (hlog : A.bytes log = some old) (hnow : A.clock ≤ now) (hclock : now < clock) (size offset : Nat) :
      Step file log message A
        (.read h size offset ((bytes.drop offset).take size).length ((bytes.drop offset).take size))
        (A.logged log old (message now h readText) clock)
  | written {h : H} {bytes bytes' old buf : List UInt8} {now clock offset : Nat}
      (hfile : A.bytes (file h) = some bytes) (hoff : offset ≤ bytes.length) (hbuf : buf ≠ [])
      (hlog : A.bytes log = some old) (hnow : A.clock ≤ now) (hclock : now < clock)
      (hlogged : (A.logged log old (message now h writeText) clock).bytes (file h) = some bytes') :
      Step file log message A (.written h buf offset buf.length)
        ⟨clock, Function.update (A.logged log old (message now h writeText) clock).bytes (file h)
          (some (overwrite bytes' offset buf))⟩
  | nothing {h : H} {bytes : List UInt8} (hfile : A.bytes (file h) = some bytes) (offset : Nat) :
      Step file log message A (.written h [] offset 0) A
  | behind {h : H} {bytes buf : List UInt8} {offset : Nat} (hfile : A.bytes (file h) = some bytes)
      (hoff : bytes.length < offset) (hbuf : buf ≠ []) :
      Step file log message A (.written h buf offset (-eoverflow)) A

/-- The handle and the operation that an event puts in the log. -/
def Event.entry : Event H → Option (H × CString)
  | .read h _ _ _ _ => some (h, readText)
  | .written h _ _ count => if 0 < count then some (h, writeText) else none

/-- The lines of the log, from the times of the calls and what they were. -/
def lines (message : Nat → H → CString → List UInt8) (nows : List Nat) (entries : List (H × CString)) :
    List UInt8 :=
  (List.zipWith (fun now e => message now e.1 e.2) nows entries).flatten

variable {file : H → F} {log : F} {message : Nat → H → CString → List UInt8} {A B : Contents F}

/-- What one event adds to the log, unless it writes to it: the line of its entry, if it has one. -/
theorem Step.log_eq {e : Event H} {old : List UInt8} (h : Step file log message A e B)
    (hother : ∀ g buf offset count, e = .written g buf offset count → file g ≠ log)
    (hlog : A.bytes log = some old) :
    ∃ nows : List Nat, nows.length = e.entry.toList.length ∧ nows.Pairwise (· < ·) ∧ A.clock ≤ B.clock ∧
      (∀ now ∈ nows, A.clock ≤ now ∧ now < B.clock) ∧
      B.bytes log = some (old ++ lines message nows e.entry.toList) := by
  cases h with
  | @read g bytes old' now clock hfile hlog' hnow hclock size offset =>
      cases hlog.symm.trans hlog'
      refine ⟨[now], rfl, List.pairwise_singleton _ _, Nat.le_trans hnow hclock.le, ?_, ?_⟩
      · intro n hn
        rw [List.mem_singleton.mp hn]
        exact ⟨hnow, hclock⟩
      · simp [Contents.logged, lines, Event.entry]
  | @written g bytes bytes' old' buf now clock offset hfile hoff hbuf hlog' hnow hclock hlogged =>
      cases hlog.symm.trans hlog'
      have hpos : (0 : Int) < buf.length := Int.natCast_pos.mpr (List.length_pos_iff.mpr hbuf)
      have hentry : (Event.written g buf offset buf.length).entry = some (g, writeText) := if_pos hpos
      refine ⟨[now], by rw [hentry]; rfl, List.pairwise_singleton _ _, Nat.le_trans hnow hclock.le, ?_, ?_⟩
      · intro n hn
        rw [List.mem_singleton.mp hn]
        exact ⟨hnow, hclock⟩
      · dsimp only
        rw [hentry, Function.update_of_ne (hother g buf offset _ rfl).symm]
        simp [Contents.logged, lines]
  | nothing hfile offset =>
      exact ⟨[], rfl, .nil, Nat.le_refl _, fun n hn => absurd hn List.not_mem_nil, by simpa [lines, Event.entry]⟩
  | @behind g bytes buf offset hfile hoff hbuf =>
      have hentry : (Event.written g buf offset (-eoverflow)).entry = none := by
        rw [Event.entry, if_neg (by decide)]
      refine ⟨[], by rw [hentry]; rfl, .nil, Nat.le_refl _, fun n hn => absurd hn List.not_mem_nil, ?_⟩
      rw [hentry]
      simpa [lines]

/-- Two parts of a log. -/
theorem lines_append {nows nows' : List Nat} {entries entries' : List (H × CString)}
    (h : nows.length = entries.length) :
    lines message (nows ++ nows') (entries ++ entries') =
      lines message nows entries ++ lines message nows' entries' := by
  rw [lines, List.zipWith_append h, List.flatten_append]
  rfl

/-- What a history adds to the log that it does not write to: a line for each entry, in the order of the calls. -/
theorem accepted_log_eq {evs : List (Event H)} {old : List UInt8}
    (h : Accepted (Step file log message) A evs B)
    (hother : ∀ g buf offset count, .written g buf offset count ∈ evs → file g ≠ log)
    (hlog : A.bytes log = some old) :
    ∃ nows : List Nat, nows.length = (evs.filterMap Event.entry).length ∧ nows.Pairwise (· < ·) ∧
      A.clock ≤ B.clock ∧ (∀ now ∈ nows, A.clock ≤ now ∧ now < B.clock) ∧
      B.bytes log = some (old ++ lines message nows (evs.filterMap Event.entry)) := by
  induction h generalizing old with
  | nil A =>
      exact ⟨[], rfl, .nil, Nat.le_refl _, fun n hn => absurd hn List.not_mem_nil, by simpa [lines]⟩
  | @cons A B C e evs hstep _ ih =>
      obtain ⟨nows, hlen, hsorted, hle, hnows, hB⟩ := hstep.log_eq
        (fun g buf offset count he => hother g buf offset count (he ▸ List.mem_cons_self)) hlog
      obtain ⟨nows', hlen', hsorted', hle', hnows', hC⟩ := ih
        (fun g buf offset count he => hother g buf offset count (List.mem_cons_of_mem _ he)) hB
      have hentries : (e :: evs).filterMap Event.entry = e.entry.toList ++ evs.filterMap Event.entry := by
        cases he : e.entry <;> simp [he]
      refine ⟨nows ++ nows', ?_, ?_, Nat.le_trans hle hle', ?_, ?_⟩
      · rw [hentries, List.length_append, List.length_append, hlen, hlen']
      · rw [List.pairwise_append]
        exact ⟨hsorted, hsorted', fun n hn n' hn' => Nat.lt_of_lt_of_le (hnows n hn).2 (hnows' n' hn').1⟩
      · intro n hn
        rcases List.mem_append.mp hn with hn | hn
        · exact ⟨(hnows n hn).1, Nat.lt_of_lt_of_le (hnows n hn).2 hle'⟩
        · exact ⟨Nat.le_trans hle (hnows' n hn).1, (hnows' n hn).2⟩
      · rw [hC, hentries, lines_append hlen, List.append_assoc]

end LogStore

/-! ## Calls through handles -/

/-- A call of `fat_fuse_read` or `fat_fuse_write` with a handle. -/
inductive FuseCall
  | read (h : Nat) (mem : Int → UInt8) (size offset : Nat)
  | write (h : Nat) (buf : List UInt8) (offset : Nat)

/-- The handle of a call. -/
def FuseCall.handle : FuseCall → Nat
  | .read h _ _ _ | .write h _ _ => h

/-- Make a call. -/
def FuseCall.step (env : Env) (s : State) : FuseCall → Option (State × List (LogStore.Event Nat))
  | .read h mem size offset =>
      match fatFuseRead env (some h) mem size offset s with
      | .ok (r, mem') t => some (t, [.read h size offset r (memBytes mem' 0 r.toNat)])
      | .error _ _ => none
  | .write h buf offset =>
      match fatFuseWrite env (some h) buf offset s with
      | .ok r t => some (t, [.written h buf offset r])
      | .error _ _ => none

/-- The handles in use, with the file and the path behind each, and the file that is the log. -/
structure Handles where
  nodes : Set Nat
  file : Nat → Nat
  path : Nat → CString
  log : Nat

/-- The line for an operation through a handle. -/
def Handles.message (H : Handles) (env : Env) (now h : Nat) (operationType : CString) : CString :=
  logMessage (env.nowStr now) env.login (H.path h) operationType

/-- The limits of logging: the message has room in the array it is assembled in, and it can be written behind the
end of the log. -/
def LogFits.On (s : State) (log : Nat) (message : CString) : Prop :=
  message.length < logMessageSize ∧ ∃ x ∈ s.files.cell log, ∃ d ∈ x.dentry,
    Fits.On s.table x d (.pwrite log message d.fileSize)

instance (s : State) (log : Nat) (message : CString) : Decidable (LogFits.On s log message) :=
  inferInstanceAs (Decidable (_ ∧ ∃ x ∈ s.files.cell log, ∃ d ∈ x.dentry, _))

/-- The offset is behind the end of a file. -/
def Behind (s : State) (file offset : Nat) : Prop :=
  ∃ x ∈ s.files.cell file, ∃ d ∈ x.dentry, d.fileSize < offset

instance (s : State) (file offset : Nat) : Decidable (Behind s file offset) :=
  inferInstanceAs (Decidable (∃ x ∈ s.files.cell file, ∃ d ∈ x.dentry, d.fileSize < offset))

/-- The limits of a call: its length is an `int`, the read or write is within those of the file, and so is the
message that is logged. A write of nothing, or behind the end, has no limits. -/
def FuseFits (env : Env) (H : Handles) (s : State) : FuseCall → Prop
  | .read h mem size offset =>
      size < 2 ^ 31 ∧ Fits s (.pread (H.file h) mem size offset) ∧
        let t := Cmd.final (readData env (some h) mem size offset s)
        LogFits.On t H.log (H.message env t.tick h readText)
  | .write h buf offset =>
      buf = [] ∨ Behind s (H.file h) offset ∨
        buf.length < 2 ^ 31 ∧ LogFits.On s H.log (H.message env s.tick h writeText) ∧
          Fits (Cmd.final (fatFuseLogActivity env writeText (some (H.file h)) s)) (.pwrite (H.file h) buf offset)

instance (env : Env) (H : Handles) (s : State) : (call : FuseCall) → Decidable (FuseFits env H s call)
  | .read _ _ _ _ => inferInstanceAs (Decidable (_ ∧ _ ∧ LogFits.On _ _ _))
  | .write _ _ _ => inferInstanceAs (Decidable (_ ∨ Behind _ _ _ ∨ _ ∧ _ ∧ Fits _ _))

/-- The event of a read. -/
theorem readStep_eq_some {env : Env} {s t : State} {h size offset : Nat} {mem : Int → UInt8}
    {new : List (LogStore.Event Nat)} (hstep : FuseCall.step env s (.read h mem size offset) = some (t, new)) :
    ∃ r, fatFuseRead env (some h) mem size offset s = .ok r t ∧
      new = [.read h size offset r.1 (memBytes r.2 0 r.1.toNat)] := by
  unfold FuseCall.step at hstep
  cases hrun : fatFuseRead env (some h) mem size offset s with
  | error e u => simp [hrun] at hstep
  | ok r u =>
      simp only [hrun, Option.some.injEq, Prod.mk.injEq] at hstep
      obtain ⟨rfl, rfl⟩ := hstep
      exact ⟨r, rfl, rfl⟩

/-- The event of a write. -/
theorem writeStep_eq_some {env : Env} {s t : State} {h offset : Nat} {buf : List UInt8}
    {new : List (LogStore.Event Nat)} (hstep : FuseCall.step env s (.write h buf offset) = some (t, new)) :
    ∃ r, fatFuseWrite env (some h) buf offset s = .ok r t ∧ new = [.written h buf offset r] := by
  unfold FuseCall.step at hstep
  cases hrun : fatFuseWrite env (some h) buf offset s with
  | error e u => simp [hrun] at hstep
  | ok r u =>
      simp only [hrun, Option.some.injEq, Prod.mk.injEq] at hstep
      obtain ⟨rfl, rfl⟩ := hstep
      exact ⟨r, rfl, rfl⟩

/-! ## The volume behind the handles -/

/-- The node `a` of the file tree is that of a file with its path, below that of a directory. -/
def NodeOf (s : State) (a file : Nat) (path : CString) (dir : Nat) : Prop :=
  ∃ e q d, s.treeEntry a = some e ∧ e.file = file ∧ e.path = path ∧ e.parent = some q ∧
    s.treeEntry q = some d ∧ d.file = dir

/-- The volume stores the contents `A`, in files that the handles and the path of the log lead to. -/
structure LoggedVolume (s : State) (live unread : Set Nat) (dir : Nat → Nat) (U : Nat → List UInt8) (H : Handles)
    (A : LogStore.Contents Nat) : Prop where
  stores : VolumeStores s live unread dir U A.bytes
  treeWf : s.TreeWf
  node : ∀ h ∈ H.nodes, NodeOf s h (H.file h) (H.path h) (dir (H.file h)) ∧ (A.bytes (H.file h)).isSome
  log : ∃ a, NodeOf s a H.log fsLogPath (dir H.log)
  logStored : (A.bytes H.log).isSome
  clock : A.clock ≤ s.tick

section Volume

variable {env : Env} {s t : State} {live unread : Set Nat} {dir : Nat → Nat} {U : Nat → List UInt8} {H : Handles}
  {A : LogStore.Contents Nat} {file p : Nat} {x y : FatFile} {d : DirEntry} {l : List Nat}

/-- Appending to an array. -/
theorem overwrite_length_self {α : Type} (a b : List α) : overwrite a a.length b = a ++ b := by
  rw [overwrite, List.take_length, List.drop_eq_nil_of_le (Nat.le_add_right _ _), List.append_nil]

/-- Asking for the time changes nothing on the volume. -/
theorem VolumeStores.ticked {A : Nat → Option (List UInt8)} (h : VolumeStores s live unread dir U A) :
    VolumeStores s.ticked live unread dir U A where
  volume := ⟨h.volume.table, h.volume.entry, h.volume.directory, h.volume.distinct, h.volume.unread_disjoint,
    h.volume.chains⟩
  ioOk := h.ioOk
  errno := h.errno
  mirrored := h.mirrored
  isLive := h.isLive
  file g hg := by
    obtain ⟨x, y, d, l, hf⟩ := h.file g hg
    exact ⟨x, y, d, l, hf.cell, hf.entry, hf.regular, hf.parent_cell, hf.parent_directory, hf.chain, hf.covers,
      hf.slot, hf.onDisk⟩
  content := h.content
  slots := h.slots
  unreadData := h.unreadData

/-- A node stays the node of its file while entries are kept. -/
theorem KeepsEntries.nodeOf (hk : KeepsEntries s t) (hs : s.TreeWf) {a file dir : Nat} {path : CString}
    (h : NodeOf s a file path dir) : NodeOf t a file path dir := by
  unfold NodeOf
  rwa [hk.treeEntry_eq hs]

/-- What the handles lead to stays the same. -/
theorem LoggedVolume.kept (h : LoggedVolume s live unread dir U H A) (hk : KeepsEntries s t)
    {B : LogStore.Contents Nat} (ht : VolumeStores t live unread dir U B.bytes)
    (hsome : ∀ g, (A.bytes g).isSome → (B.bytes g).isSome) (hclock : B.clock ≤ t.tick) :
    LoggedVolume t live unread dir U H B where
  stores := ht
  treeWf := hk.treeWf h.treeWf
  node g hg := ⟨hk.nodeOf h.treeWf (h.node g hg).1, hsome _ (h.node g hg).2⟩
  log := by
    obtain ⟨a, ha⟩ := h.log
    exact ⟨a, hk.nodeOf h.treeWf ha⟩
  logStored := hsome _ h.logStored
  clock := hclock

/-- A file that has contents still has some after an update. -/
theorem isSome_update {g : Nat} {A : Nat → Option (List UInt8)} (file : Nat) (b : List UInt8)
    (h : (A g).isSome) : (Function.update A file (some b) g).isSome := by
  rw [Function.update_apply]
  split_ifs
  · rfl
  · exact h

/-- What a node gives: its file, the file of its parent, and the path in its file. -/
theorem NodeOf.run {a file dir : Nat} {path : CString} (h : NodeOf s a file path dir) :
    fatTreeGetFile (some a) s = .ok (some file) s ∧ fatTreeGetParent (some a) s = .ok (some dir) s ∧
      ∃ x, s.files.cell file = some x ∧ x.filepath = path := by
  obtain ⟨e, q, d, he, rfl, rfl, hq, hd, rfl⟩ := h
  refine ⟨fatTreeGetFile_run he, ?_, ?_⟩
  · rw [fatTreeGetParent_run he, hq, fatTreeGetFile_run hd]
  · obtain ⟨node, x, -, hx, rfl⟩ := treeEntry_eq_some he
    exact ⟨x, hx, rfl⟩

/-- The search for a path finds the node. -/
theorem NodeOf.search {a file dir : Nat} {path : CString} (hwf : s.TreeWf) (h : NodeOf s a file path dir) :
    fatTreeNodeSearch path s = .ok (some a) s := by
  obtain ⟨p, tr, hok⟩ := hwf
  obtain ⟨e, q, d, he, -, hpath, -⟩ := h
  have hsearch := fatTreeNodeSearch_run hok path
  obtain ⟨-, hfound, -⟩ := fatTreeNodeSearch_ok hok hsearch
  rwa [(hfound a).mpr ⟨e, he, hpath⟩] at hsearch

/-- `fat_fuse_log_activity` appends the message to the log. -/
theorem LoggedVolume.logActivity (h : LoggedVolume s live unread dir U H A) {a : Nat} (ha : a ∈ H.nodes)
    {old : List UInt8} (hold : A.bytes H.log = some old) {operationType : CString}
    (hfits : LogFits.On s H.log (H.message env s.tick a operationType)) :
    ∃ t, fatFuseLogActivity env operationType (some (H.file a)) s = .ok ⟨⟩ t ∧
      LoggedVolume t live unread dir U H (A.logged H.log old (H.message env s.tick a operationType) t.tick) ∧
      Preserves live s t ∧ s.tick < t.tick := by
  obtain ⟨hroom, z, hz, d, hd, hon⟩ := hfits
  obtain ⟨-, -, x, hx, hpath⟩ := (h.node a ha).1.run
  have hmessage : logMessage (env.nowStr s.tick) env.login x.filepath operationType =
      H.message env s.tick a operationType := by
    rw [hpath]
    rfl
  -- looking up the time leaves the tree and the files as they are
  have hticked : KeepsEntries s s.ticked := (within_ask (fun n => n)).ok (ask_run (fun n => n) s) |>.keepsEntries
  obtain ⟨b, hb⟩ := h.log
  have hb' := hticked.nodeOf h.treeWf hb
  obtain ⟨z', y, d', l, hlog⟩ := h.stores.ticked.file H.log h.logStored
  cases hlog.cell.symm.trans hz
  cases hlog.entry.symm.trans hd
  -- the message is written at the end of the log
  have hlen : old.length = d.fileSize := hlog.length_content (h.stores.ticked.content _ _ hold)
  obtain ⟨t, hwrite, hstores, hpreserves, htick⟩ := h.stores.ticked.pwrite env hold hlog _ hon
  have hrun : fatFuseLogActivity env operationType (some (H.file a)) s = .ok ⟨⟩ t := by
    unfold fatFuseLogActivity
    rw [Cmd.bind_ok (ask_run _ s), Cmd.bind_ok (nonNull_run _ _),
      Cmd.bind_ok (readFile_run (show s.ticked.files.cell _ = some x from hx))]
    simp only [hmessage]
    rw [if_neg (Nat.not_lt.mpr hroom), Cmd.bind_ok (hb'.search (hticked.treeWf h.treeWf)),
      Cmd.bind_ok hb'.run.1, Cmd.bind_ok hb'.run.2.1, Cmd.bind_ok (nonNull_run _ _),
      Cmd.bind_ok (readDentry_run hlog.cell hlog.entry), Cmd.bind_ok hwrite]
    rfl
  rw [← hlen, overwrite_length_self] at hstores
  exact ⟨t, hrun, h.kept ((within_fatFuseLogActivity env _ _).ok hrun) hstores (fun g hg => isSome_update _ _ hg)
    (Nat.le_refl _), (Preserves.ticked _ s).trans hpreserves, Nat.lt_of_lt_of_le (Nat.lt_succ_self _) htick⟩

/-! ### Calls -/

/-- Small numbers are kept by the conversion. -/
theorem toInt32_natCast {n : Nat} (h : n < 2 ^ 31) : toInt32 n = n := by
  unfold toInt32
  rw [Int.bmod_eq_of_le] <;> omega

/-- A handle leads to a file with content. -/
theorem LoggedVolume.fileOnVolume (h : LoggedVolume s live unread dir U H A) {a : Nat} (ha : a ∈ H.nodes) :
    ∃ x y d l bytes, FileOnVolume s (H.file a) (dir (H.file a)) x y d l ∧ A.bytes (H.file a) = some bytes ∧
      bytes.length = d.fileSize := by
  obtain ⟨x, y, d, l, hf⟩ := h.stores.file _ (h.node a ha).2
  obtain ⟨bytes, hbytes⟩ := Option.isSome_iff_exists.mp (h.node a ha).2
  exact ⟨x, y, d, l, bytes, hf, hbytes, hf.length_content (h.stores.content _ _ hbytes)⟩

/-- `fat_fuse_read` within its limits reads the file and logs. -/
theorem LoggedVolume.read (h : LoggedVolume s live unread dir U H A) {a size offset : Nat} {mem : Int → UInt8}
    (ha : a ∈ H.nodes) (hfits : FuseFits env H s (.read a mem size offset)) :
    ∃ t e B, FuseCall.step env s (.read a mem size offset) = some (t, [e]) ∧
      LogStore.Step H.file H.log (H.message env) A e B ∧ LoggedVolume t live unread dir U H B ∧
      Preserves live s t := by
  obtain ⟨x, y, d, l, bytes, hf, hbytes, -⟩ := h.fileOnVolume ha
  obtain ⟨old, hold⟩ := Option.isSome_iff_exists.mp h.logStored
  obtain ⟨hsize, ⟨x', hx', d', hd', hoff⟩, hlog⟩ := hfits
  cases hf.cell.symm.trans hx'
  cases hf.entry.symm.trans hd'
  obtain ⟨r, mem', t, hread, hslice, hstores, hkept, htick⟩ := h.stores.pread env hbytes hf mem size hoff
  have hfile := (h.node a ha).1.run
  have hzero : { s with errno := 0 } = s := by rw [← h.stores.errno]
  have hdata : readData env (some a) mem size offset s = .ok (some (H.file a), (r : Int), mem') t := by
    unfold readData
    rw [Cmd.bind_ok (setErrno_run 0 s), hzero, Cmd.bind_ok hfile.1, Cmd.bind_ok hfile.2.1,
      Cmd.bind_ok (nonNull_run _ s), Cmd.bind_ok hread]
    rfl
  simp only [hdata, Cmd.final_ok] at hlog
  -- the handles lead where they did after the read, so that the message can be logged
  have hmid : LoggedVolume t live unread dir U H A := h.kept ((within_readData (some a) mem size offset).ok hdata)
    hstores (fun _ hg => hg) (Nat.le_trans h.clock htick)
  obtain ⟨u, hactivity, hu, hkept', htu⟩ := hmid.logActivity ha hold hlog
  have hr : r = ((bytes.drop offset).take size).length := by rw [← hslice, length_memBytes]
  have hret : toInt32 r = r := toInt32_natCast (by rw [List.length_take] at hr; omega)
  refine ⟨u, _, _, ?_, .read hbytes hold (Nat.le_trans h.clock htick) htu size offset, hu, hkept.trans hkept'⟩
  have hrun : fatFuseRead env (some a) mem size offset s = .ok ((r : Int), mem') u := by
    rw [fatFuseRead_split, Cmd.bind_ok hdata]
    simp only []
    rw [Cmd.bind_ok (getErrno_run t), if_neg (not_not.mpr hstores.errno), Cmd.bind_ok hactivity, hret]
    rfl
  simp only [FuseCall.step, hrun, Int.toNat_natCast, hslice, ← hr]

/-- `fat_fuse_write` within its limits logs and writes the file. -/
theorem LoggedVolume.write (h : LoggedVolume s live unread dir U H A) {a offset : Nat} {buf : List UInt8}
    (ha : a ∈ H.nodes) (hfits : FuseFits env H s (.write a buf offset)) :
    ∃ t e B, FuseCall.step env s (.write a buf offset) = some (t, [e]) ∧
      LogStore.Step H.file H.log (H.message env) A e B ∧ LoggedVolume t live unread dir U H B ∧
      Preserves live s t := by
  obtain ⟨x, y, d, l, bytes, hf, hbytes, hlen⟩ := h.fileOnVolume ha
  obtain ⟨old, hold⟩ := Option.isSome_iff_exists.mp h.logStored
  have hfile := (h.node a ha).1.run
  have htarget : writeTarget (some a) buf offset s = .ok (if buf.length = 0 then .inl 0 else
      if offset > d.fileSize then .inl (-eoverflow) else
        .inr (some (H.file a), H.file a, some (dir (H.file a)))) s := by
    unfold writeTarget
    rw [Cmd.bind_ok hfile.1, Cmd.bind_ok hfile.2.1]
    split_ifs with h0 hbehind
    · rfl
    · rw [Cmd.bind_ok (nonNull_run _ s), Cmd.bind_ok (readDentry_run hf.cell hf.entry), if_pos hbehind]
      rfl
    · rw [Cmd.bind_ok (nonNull_run _ s), Cmd.bind_ok (readDentry_run hf.cell hf.entry), if_neg hbehind]
      rfl
  -- writing nothing, or behind the end, returns before anything is logged
  by_cases hbuf : buf = []
  · subst hbuf
    refine ⟨s, _, A, ?_, .nothing hbytes offset, h, .refl _ _⟩
    simp only [FuseCall.step, fatFuseWrite_split, Cmd.bind_ok htarget]
    rfl
  have h0 : buf.length ≠ 0 := fun h => hbuf (List.length_eq_zero_iff.mp h)
  by_cases hbehind : d.fileSize < offset
  · refine ⟨s, _, A, ?_, .behind hbytes (hlen ▸ hbehind) hbuf, h, .refl _ _⟩
    rw [if_neg h0, if_pos hbehind] at htarget
    simp only [FuseCall.step, fatFuseWrite_split, Cmd.bind_ok htarget]
    rfl
  rw [if_neg h0, if_neg hbehind] at htarget
  obtain ⟨hsize, hlog, hfits⟩ : buf.length < 2 ^ 31 ∧ LogFits.On s H.log (H.message env s.tick a writeText) ∧
      Fits (Cmd.final (fatFuseLogActivity env writeText (some (H.file a)) s)) (.pwrite (H.file a) buf offset) := by
    rcases hfits with hnil | ⟨x', hx', d', hd', hlt⟩ | hfits
    · exact absurd hnil hbuf
    · cases hf.cell.symm.trans hx'
      cases hf.entry.symm.trans hd'
      exact absurd hlt hbehind
    · exact hfits
  obtain ⟨t, hactivity, hmid, hkept, htick⟩ := h.logActivity ha hold hlog
  rw [hactivity, Cmd.final_ok] at hfits
  -- the file is looked up again: it may be the log, which has grown
  obtain ⟨x', y', d', l', bytes', hf', hbytes', -⟩ := hmid.fileOnVolume ha
  obtain ⟨z, hz, e, he, hon⟩ := hfits
  cases hf'.cell.symm.trans hz
  cases hf'.entry.symm.trans he
  obtain ⟨u, hwrite, hstores, hkept', htu⟩ := hmid.stores.pwrite env hbytes' hf' buf hon
  have hrun : fatFuseWrite env (some a) buf offset s = .ok (buf.length : Int) u := by
    rw [fatFuseWrite_split, Cmd.bind_ok htarget]
    simp only []
    rw [Cmd.bind_ok hactivity, Cmd.bind_ok hwrite, toInt32_natCast hsize]
    rfl
  refine ⟨u, _, _, by simp only [FuseCall.step, hrun], .written hbytes (by omega) hbuf hold h.clock htick hbytes',
    hmid.kept ((within_fatFilePwrite env _ _ _ _).ok hwrite) hstores (fun g hg => isSome_update _ _ hg) htu,
    hkept.trans hkept'⟩

/-- A run of reads and writes through the handles. -/
theorem LoggedVolume.run (h : LoggedVolume s live unread dir U H A) {calls : List FuseCall}
    (hnodes : ∀ call ∈ calls, call.handle ∈ H.nodes)
    (hfits : Meets (FuseCall.step env) (fun _ s call => FuseFits env H s call) [] s calls) :
    ∃ evs t B, exec (FuseCall.step env) [] s calls = some (evs, t) ∧
      Accepted (LogStore.Step H.file H.log (H.message env)) A evs B ∧ LoggedVolume t live unread dir U H B ∧
      Preserves live s t := by
  refine exec_accepted_of_meets (R := fun A t => LoggedVolume t live unread dir U H A ∧ Preserves live s t)
    (fun A t call hcall ⟨h, hst⟩ hfits => ?_) (.nil A) ⟨h, .refl _ _⟩ hfits
  obtain ⟨u, e, B, hstep, he, hu, htu⟩ : ∃ u e B, FuseCall.step env t call = some (u, [e]) ∧
      LogStore.Step H.file H.log (H.message env) A e B ∧ LoggedVolume u live unread dir U H B ∧
      Preserves live t u := by
    cases call with
    | read a mem size offset => exact h.read (hnodes _ hcall) hfits
    | write a buf offset => exact h.write (hnodes _ hcall) hfits
  exact ⟨u, [e], B, hstep, .one he, hu, hst.trans htu⟩

/-- **Reads and writes are those of a store with a log.** Let the handles lead to files of a volume that stores
`A`. Then any run of `fat_fuse_read` and `fat_fuse_write` through them, each within its limits, comes to its end
without a fault and reports what a store reports that logs every call and starts with `A`; and the volume stores
what that store has then, in memory and on the device, with the log in the file of its path. -/
theorem fuseCalls_refine (h : LoggedVolume s live unread dir U H A) {calls : List FuseCall}
    (hnodes : ∀ call ∈ calls, call.handle ∈ H.nodes)
    (hfits : Meets (FuseCall.step env) (fun _ s call => FuseFits env H s call) [] s calls) :
    ∃ evs t B, exec (FuseCall.step env) [] s calls = some (evs, t) ∧
      Accepted (LogStore.Step H.file H.log (H.message env)) A evs B ∧ LoggedVolume t live unread dir U H B := by
  obtain ⟨evs, t, B, hrun, hevs, ht, -⟩ := h.run hnodes hfits
  exact ⟨evs, t, B, hrun, hevs, ht⟩

/-- The call writes to the log itself. -/
def FuseCall.WritesLog (H : Handles) : FuseCall → Prop
  | .read _ _ _ _ => False
  | .write h _ _ => H.file h = H.log

/-- **The log is an audit trail.** After any run of reads and writes, each within its limits and none of them a
write to the log, the log on the volume is what it was before, followed by one line for each read and for each
write that wrote something: in the order of the calls, with the path behind the handle, and with what the clock
gave at that call, which it was asked after the one before. -/
theorem auditTrail (h : LoggedVolume s live unread dir U H A) {calls : List FuseCall}
    (hnodes : ∀ call ∈ calls, call.handle ∈ H.nodes) (hother : ∀ call ∈ calls, ¬ call.WritesLog H)
    (hfits : Meets (FuseCall.step env) (fun _ s call => FuseFits env H s call) [] s calls) {old : List UInt8}
    (hold : HasContent s H.log old) :
    ∃ evs t nows, exec (FuseCall.step env) [] s calls = some (evs, t) ∧
      nows.length = (evs.filterMap LogStore.Event.entry).length ∧ nows.Pairwise (· < ·) ∧
      (∀ now ∈ nows, s.tick ≤ now ∧ now < t.tick) ∧
      HasContent t H.log (old ++ LogStore.lines (H.message env) nows (evs.filterMap LogStore.Event.entry)) := by
  -- the store starts at the time of the volume
  have hstart : LoggedVolume s live unread dir U H ⟨s.tick, A.bytes⟩ :=
    ⟨h.stores, h.treeWf, h.node, h.log, h.logStored, Nat.le_refl _⟩
  obtain ⟨evs, t, B, hrun, hevs, ht, -⟩ := hstart.run hnodes hfits
  have hwritten : ∀ g buf offset count, .written g buf offset count ∈ evs → H.file g ≠ H.log := by
    have hcalls : Meets (FuseCall.step env) (fun _ _ call => ¬ call.WritesLog H) [] s calls :=
      meets_of_forall_mem hother
    refine exec_invariant
      (I := fun evs _ => ∀ g buf offset count, .written g buf offset count ∈ evs → H.file g ≠ H.log)
      (fun evs s call u new hI hcall hstep g buf offset count hmem => ?_) (fun _ _ _ _ hmem => ?_) hcalls hrun
    · rcases List.mem_append.mp hmem with hmem | hmem
      · exact hI g buf offset count hmem
      · cases call with
        | read a mem size offset =>
            obtain ⟨r, -, rfl⟩ := readStep_eq_some hstep
            simp at hmem
        | write a buf offset =>
            obtain ⟨r, -, rfl⟩ := writeStep_eq_some hstep
            rw [List.mem_singleton, LogStore.Event.written.injEq] at hmem
            rw [hmem.1]
            exact hcall
    · exact absurd hmem List.not_mem_nil
  obtain ⟨bytes, hbytes⟩ := Option.isSome_iff_exists.mp h.logStored
  obtain ⟨x, y, d, l, hf⟩ := h.stores.file _ h.logStored
  obtain rfl : bytes = old := by
    rw [hf.content_eq (h.stores.content _ _ hbytes), hf.content_eq hold]
  obtain ⟨nows, hlen, hsorted, -, hnows, hB⟩ := LogStore.accepted_log_eq hevs hwritten hbytes
  exact ⟨evs, t, nows, hrun, hlen, hsorted,
    fun now hnow => ⟨(hnows now hnow).1, Nat.lt_of_lt_of_le (hnows now hnow).2 ht.clock⟩, ht.stores.content _ _ hB⟩

end Volume

/-! ## A volume with two files -/

/-- The tree of the two files and the root directory. -/
theorem twoFiles_treeOk : TreeOk twoFiles (some 0) (.node 0 .nil (.node 1 (.node 2 .nil .nil) .nil)) := by
  have hcell {a : Nat} {node : HNode Nat} (h : twoFiles.nodes.cell a = some node) :
      (a = 0 ∨ a = 1 ∨ a = 2) ∧ node.data = a ∧ ∀ q, node.hParent = some q → q < a := by
    match a, h with
    | 0, h => cases h; exact ⟨.inl rfl, rfl, fun q hq => by cases hq⟩
    | 1, h => cases h; exact ⟨.inr (.inl rfl), rfl, fun q hq => by cases hq; decide⟩
    | 2, h => cases h; exact ⟨.inr (.inr rfl), rfl, fun q hq => by cases hq; decide⟩
    | n + 3, h => exact absurd h (by simp [twoFiles, Heap.alloc, Heap.empty])
  refine ⟨rfl, ⟨⟨rfl, none, some 1, ⟨_, rfl, rfl, rfl, by decide⟩, rfl, ?_⟩, by decide⟩, fun a node h => ?_,
    fun a node h => ?_, fun a b node node' h h' heq => ?_, fun a node q h => (hcell h).2.2 q, ?_⟩
  · exact ⟨rfl, some 2, none, ⟨_, rfl, rfl, rfl, by decide⟩,
      ⟨rfl, none, none, ⟨_, rfl, rfl, rfl, by decide⟩, rfl, rfl⟩, rfl⟩
  · rcases (hcell h).1 with rfl | rfl | rfl <;> decide
  · obtain ⟨ha, hdata, -⟩ := hcell h
    rw [hdata]
    rcases ha with rfl | rfl | rfl <;> exact ⟨_, rfl, rfl⟩
  · rw [← (hcell h).2.1, ← (hcell h').2.1, heq]
  · have hbefore {a b : Nat} {d e : TreeEntry} (hd : twoFiles.treeEntry a = some d)
        (he : twoFiles.treeEntry b = some e) (hlt : d.path < e.path) : Before twoFiles.treeEntry a b :=
      ⟨d, e, hd, he, hlt⟩
    refine .cons ?_ (.cons ?_ (.cons ?_ .nil))
    · rintro b (_ | ⟨_, _ | ⟨_, h⟩⟩)
      · exact hbefore rfl rfl (by decide)
      · exact hbefore rfl rfl (by decide)
      · cases h
    · rintro b (_ | ⟨_, h⟩)
      · exact hbefore rfl rfl (by decide)
      · cases h
    · rintro b ⟨⟩

/-- The two files, with their nodes. -/
def twoHandles : Handles := ⟨{1, 2}, id, fun h => if h = 1 then fsLogPath else secondPath, 1⟩

/-- The volume with two files, with an empty log, and with its handles. -/
theorem twoFiles_logged :
    LoggedVolume twoFiles {0, 1, 2} ∅ (fun _ => 0) (fun _ => []) twoHandles ⟨0, twoContents⟩ where
  stores := twoFiles_stores
  treeWf := ⟨_, _, twoFiles_treeOk⟩
  node := by
    rintro h (rfl | rfl)
    · exact ⟨⟨_, 0, _, rfl, rfl, rfl, rfl, rfl, rfl⟩, rfl⟩
    · exact ⟨⟨_, 0, _, rfl, rfl, rfl, rfl, rfl, rfl⟩, rfl⟩
  log := ⟨1, _, 0, _, rfl, rfl, rfl, rfl, rfl, rfl⟩
  logStored := rfl
  clock := Nat.le_refl _

/-- The second file is written and read, and then the log. -/
def twoHandlesCalls : List FuseCall :=
  [.write 2 [1, 2, 3] 0, .write 2 [] 7, .write 2 [4] 9, .read 2 (fun _ => 5) 2 1, .read 1 (fun _ => 5) 4 5]

/-- What the calls report. -/
def twoHandlesEvents : List (LogStore.Event Nat) :=
  [.written 2 [1, 2, 3] 0 3, .written 2 [] 7 0, .written 2 [4] 9 (-75), .read 2 2 1 2 [2, 3],
    .read 1 4 5 4 [119, 114, 105, 116]]

/-- The calls use the handles of the volume. -/
theorem twoHandlesCalls_nodes : ∀ call ∈ twoHandlesCalls, call.handle ∈ twoHandles.nodes := by
  simp [twoHandlesCalls, FuseCall.handle, twoHandles]

/-- Every call of the run is within its limits. -/
theorem twoHandlesCalls_fit : Meets (FuseCall.step quietEnv) (fun _ s call => FuseFits quietEnv twoHandles s call) []
    twoFiles twoHandlesCalls := by
  decide +kernel

/-- The events of the run, computed. -/
theorem twoHandlesCalls_events : (exec (FuseCall.step quietEnv) [] twoFiles twoHandlesCalls).map Prod.fst =
    some twoHandlesEvents := by
  decide +kernel

/-- The calls through two handles write to the log and to one another's file in turn. -/
theorem fuseCalls_refine_twoHandles : ∃ evs t B, exec (FuseCall.step quietEnv) [] twoFiles twoHandlesCalls =
      some (evs, t) ∧ evs = twoHandlesEvents ∧
    Accepted (LogStore.Step twoHandles.file twoHandles.log (twoHandles.message quietEnv)) ⟨0, twoContents⟩ evs B ∧
    LoggedVolume t {0, 1, 2} ∅ (fun _ => 0) (fun _ => []) twoHandles B := by
  obtain ⟨evs, t, B, hrun, hevs, ht⟩ := fuseCalls_refine twoFiles_logged twoHandlesCalls_nodes twoHandlesCalls_fit
  have hevents := twoHandlesCalls_events
  rw [hrun, Option.map_some, Option.some.injEq] at hevents
  exact ⟨evs, t, B, hrun, hevents, hevs, ht⟩

/-- The log of the calls: one write, and two reads. -/
theorem auditTrail_twoHandles : ∃ evs t, exec (FuseCall.step quietEnv) [] twoFiles twoHandlesCalls = some (evs, t) ∧
    HasContent t 1 (logMessage [] [] secondPath writeText ++ logMessage [] [] secondPath readText ++
      logMessage [] [] fsLogPath readText) := by
  obtain ⟨evs, t, nows, hrun, hlen, -, -, hlog⟩ := auditTrail twoFiles_logged twoHandlesCalls_nodes
    (by simp [twoHandlesCalls, FuseCall.WritesLog, twoHandles]) twoHandlesCalls_fit
    (twoFiles_stores.content 1 [] rfl)
  have hevents := twoHandlesCalls_events
  rw [hrun, Option.map_some, Option.some.injEq] at hevents
  subst hevents
  have hentries : twoHandlesEvents.filterMap LogStore.Event.entry =
      [(2, writeText), (2, readText), (1, readText)] := by
    decide
  rw [hentries] at hlen hlog
  obtain ⟨a, b, c, rfl⟩ := List.length_eq_three.mp hlen
  exact ⟨_, t, hrun, hlog⟩

end OsLabs.Fat
