import OsLabs.Fat.Layout
import OsLabs.Fat.OpSpec
import OsLabs.Lib.Transition

/-! # Sessions with open handles

A session is a mounted volume with the handles that were opened and not yet released. An operation on
a handle is only called with an outstanding one, and a release ends it. For every sequence of
operations, with all results of the device calls:

* `handlesLive_iff`: the handles and the nodes above them stay in the file tree exactly when no
  removal drops a node that a handle is on or below;
* `countersExact_iff`: the open counts are those of the handles exactly when, besides, no truncation
  finds a file and no count overflows. -/

namespace OsLabs.Fat

open Cmd Transition

/-! ## Calls -/

/-- A mounted volume and the handles that are outstanding. -/
structure Session where
  vol : State
  handles : List Nat

/-- The handle that an operation is given. -/
def Op.handle : Op → Option Ptr
  | .fgetattr fh | .readdir fh _ | .read fh .. | .write fh .. | .release fh | .releasedir fh => some fh
  | _ => none

namespace Session

/-- The handle that an operation is given is outstanding. -/
def Allows (s : Session) (op : Op) : Prop :=
  match op.handle with
  | none => True
  | some none => False
  | some (some h) => h ∈ s.handles

instance (s : Session) (op : Op) : Decidable (s.Allows op) := by
  unfold Allows
  split <;> infer_instance

/-- The session after an operation: an opening adds the handle it stored, a release ends one. -/
def after (s : Session) (op : Op) (reply : Reply) (vol : State) : Session where
  vol := vol
  handles :=
    match op with
    | .open _ | .opendir _ => reply.fh.toList ++ s.handles
    | .release (some h) | .releasedir (some h) => s.handles.erase h
    | _ => s.handles

/-- A call of an operation, with its reply; blocked if it is not allowed or does not return. -/
def call (env : Env) (s : Session) (op : Op) : Option (Session × List Reply) :=
  if s.Allows op then
    match step env op s.vol with
    | .ok reply vol => some (s.after op reply vol, [reply])
    | .error _ _ => none
  else none

/-- A volume was just mounted. -/
def Mounted (env : Env) (s : Session) : Prop :=
  s.handles = [] ∧ ∃ root table image io,
    initFileTree env root (bareState table image io) = .ok ⟨⟩ s.vol

/-- `fat_volume_mount` starts a session. -/
theorem mounted_of_fatVolumeMount {env : Env} {image : Nat → UInt8} {io : List IoResult} {vol : State}
    (h : fatVolumeMount env image io = some vol) : Mounted env ⟨vol, []⟩ := by
  unfold fatVolumeMount at h
  obtain ⟨boot, -, h⟩ := Option.bind_eq_some_iff.mp h
  cases hinit : initFileTree env boot.rootDirStartCluster (bareState (tableOfBoot boot image) image io)
    with
  | ok x s =>
      rw [hinit] at h
      cases h
      exact ⟨rfl, _, _, _, _, hinit⟩
  | error e s =>
      rw [hinit] at h
      cases h

/-- What a call does. -/
theorem call_eq_some {env : Env} {s t : Session} {op : Op} {replies : List Reply}
    (h : s.call env op = some (t, replies)) : s.Allows op ∧
      ∃ reply, step env op s.vol = .ok reply t.vol ∧ t = s.after op reply t.vol ∧ replies = [reply] := by
  unfold call at h
  split at h
  · next hallows =>
      cases hstep : step env op s.vol with
      | ok reply vol =>
          rw [hstep] at h
          cases h
          exact ⟨hallows, reply, rfl, rfl, rfl⟩
      | error e vol =>
          rw [hstep] at h
          cases h
  · cases h

end Session

/-! ## Ancestors in two trees -/

section Ancestors

variable {E E' : Nat → Option TreeEntry} {a b : Nat}

/-- Above a node, the trees agree on the parents. -/
def SameAbove (E E' : Nat → Option TreeEntry) (a : Nat) : Prop :=
  ∀ b, Reaches E a b → (E' b).map TreeEntry.parent = (E b).map TreeEntry.parent

/-- One step up is the same step where the parent is the same. -/
theorem up_of_map_parent (h : (E' a).map TreeEntry.parent = (E a).map TreeEntry.parent)
    (hup : Up E a b) : Up E' a b := by
  obtain ⟨e, he, hparent⟩ := hup
  rw [he, Option.map_some] at h
  obtain ⟨e', he', hsame⟩ := Option.map_eq_some_iff.mp h
  exact ⟨e', he', hsame.trans hparent⟩

/-- From the node, the same nodes are reached. -/
theorem SameAbove.reaches (h : SameAbove E E' a) : Reaches E' a b ↔ Reaches E a b := by
  constructor
  · intro hab
    induction hab with
    | refl => exact .refl
    | tail _ hup ih => exact ih.tail (up_of_map_parent (h _ ih).symm hup)
  · intro hab
    induction hab with
    | refl => exact .refl
    | tail hab hup ih => exact ih.tail (up_of_map_parent (h _ hab) hup)

/-- From the node, the walk to the root visits the same nodes. -/
theorem SameAbove.ancestorsFrom_eq (h : SameAbove E E' a) (fuel : Nat) :
    ancestorsFrom E' fuel (some a) = ancestorsFrom E fuel (some a) := by
  induction fuel generalizing a with
  | zero => rfl
  | succ fuel ih =>
      have hself := h a .refl
      cases he : E a with
      | none =>
          rw [he, Option.map_none, Option.map_eq_none_iff] at hself
          simp [ancestorsFrom, he, hself]
      | some e =>
          rw [he, Option.map_some] at hself
          obtain ⟨e', he', hparent⟩ := Option.map_eq_some_iff.mp hself
          simp only [ancestorsFrom, he, he', hparent]
          cases hq : e.parent with
          | none => cases fuel <;> rfl
          | some q => rw [ih fun b hqb => h b (.head ⟨e, he, hq⟩ hqb)]

end Ancestors

/-! ## What a call does to a session -/

/-- The operation opens the node `a`. -/
def OpensAt (E : Nat → Option TreeEntry) : Op → Nat → Prop
  | .open path, a => Finds E false path a
  | .opendir path, a => Finds E true path a
  | _, _ => False

/-- The operation truncates the file at the node `a`. -/
def TruncatesAt (E : Nat → Option TreeEntry) : Op → Nat → Prop
  | .truncate path _, a => Finds E false path a
  | _, _ => False

/-- The effect of a call on the file tree and on the handles. -/
inductive Moves (env : Env) (s : Session) (op : Op) (t : Session) : Prop
  | enlarged (entries : Enlarged s.vol.treeEntry t.vol.treeEntry) (handles : t.handles = s.handles)
      (noOpen : ∀ a, ¬ OpensAt s.vol.treeEntry op a) (noTruncate : ∀ a, ¬ TruncatesAt s.vol.treeEntry op a)
      (noDrop : ∀ a, ¬ Drops env s.vol op a)
  | opened (a : Nat) (opens : OpensAt s.vol.treeEntry op a)
      (entries : Counted incCount (some a) s.vol.treeEntry t.vol.treeEntry)
      (handles : t.handles = a :: s.handles) (noTruncate : ∀ a, ¬ TruncatesAt s.vol.treeEntry op a)
      (noDrop : ∀ a, ¬ Drops env s.vol op a)
  | released (h : Nat) (mem : h ∈ s.handles)
      (entries : Counted decCount (some h) s.vol.treeEntry t.vol.treeEntry)
      (handles : t.handles = s.handles.erase h) (noOpen : ∀ a, ¬ OpensAt s.vol.treeEntry op a)
      (noTruncate : ∀ a, ¬ TruncatesAt s.vol.treeEntry op a) (noDrop : ∀ a, ¬ Drops env s.vol op a)
  | truncated (a : Nat) (truncates : TruncatesAt s.vol.treeEntry op a)
      (entries : Counted incCount (some a) s.vol.treeEntry t.vol.treeEntry)
      (handles : t.handles = s.handles) (noDrop : ∀ a, ¬ Drops env s.vol op a)
  | dropped (a : Nat) (drops : Drops env s.vol op a)
      (entries : t.vol.treeEntry = Function.update s.vol.treeEntry a none)
      (handles : t.handles = s.handles) (noOpen : ∀ a, ¬ OpensAt s.vol.treeEntry op a)
      (noTruncate : ∀ a, ¬ TruncatesAt s.vol.treeEntry op a)

section Calls

variable {env : Env} {s t : Session} {op : Op} {replies : List Reply}

/-- A call that returns keeps the tree well formed and is one of these moves. -/
theorem call_moves (hwf : s.vol.TreeWf) (h : s.call env op = some (t, replies)) :
    t.vol.TreeWf ∧ Moves env s op t := by
  obtain ⟨hallows, reply, hstep, ht, -⟩ := Session.call_eq_some h
  obtain ⟨hwf', heffect⟩ := step_effect hwf hstep
  refine ⟨hwf', ?_⟩
  have hsame (heq : t.vol.treeEntry = s.vol.treeEntry) : Enlarged s.vol.treeEntry t.vol.treeEntry := by
    rw [heq]
    exact .refl _
  have hhandles : t.handles = (s.after op reply t.vol).handles := congrArg Session.handles ht
  -- One case for each operation; `step_effect` has said what it does to the entries.
  cases op with
  | getattr path => exact .enlarged (hsame heffect) hhandles (fun _ => id) (fun _ => id) fun _ => id
  | fgetattr fh => exact .enlarged (hsame heffect) hhandles (fun _ => id) (fun _ => id) fun _ => id
  | «open» path =>
      obtain ⟨hfh, heq, hnone⟩ | ⟨a, hfh, hfinds, hcounted⟩ := heffect
      · exact .enlarged (hsame heq) (by rw [hhandles, Session.after, hfh]; rfl) hnone (fun _ => id)
          fun _ => id
      · exact .opened a hfinds hcounted (by rw [hhandles, Session.after, hfh]; rfl) (fun _ => id)
          fun _ => id
  | opendir path =>
      obtain ⟨hfh, heq, hnone⟩ | ⟨a, hfh, hfinds, hcounted⟩ := heffect
      · exact .enlarged (hsame heq) (by rw [hhandles, Session.after, hfh]; rfl) hnone (fun _ => id)
          fun _ => id
      · exact .opened a hfinds hcounted (by rw [hhandles, Session.after, hfh]; rfl) (fun _ => id)
          fun _ => id
  | readdir fh filler => exact .enlarged heffect hhandles (fun _ => id) (fun _ => id) fun _ => id
  | read fh mem size offset =>
      exact .enlarged (hsame heffect) hhandles (fun _ => id) (fun _ => id) fun _ => id
  | write fh buf offset =>
      exact .enlarged (hsame heffect) hhandles (fun _ => id) (fun _ => id) fun _ => id
  | release fh =>
      cases fh with
      | none => exact hallows.elim
      | some a => exact .released a hallows heffect hhandles (fun _ => id) (fun _ => id) fun _ => id
  | releasedir fh =>
      cases fh with
      | none => exact hallows.elim
      | some a => exact .released a hallows heffect hhandles (fun _ => id) (fun _ => id) fun _ => id
  | mkdir path => exact .enlarged heffect hhandles (fun _ => id) (fun _ => id) fun _ => id
  | mknod path => exact .enlarged heffect hhandles (fun _ => id) (fun _ => id) fun _ => id
  | unlink path =>
      obtain ⟨heq, hnone⟩ | ⟨a, hdrops, heq⟩ := heffect
      · exact .enlarged (hsame heq) hhandles (fun _ => id) (fun _ => id) hnone
      · exact .dropped a hdrops heq hhandles (fun _ => id) fun _ => id
  | rmdir path =>
      obtain ⟨heq, hnone⟩ | ⟨a, hdrops, heq⟩ := heffect
      · exact .enlarged (hsame heq) hhandles (fun _ => id) (fun _ => id) hnone
      · exact .dropped a hdrops heq hhandles (fun _ => id) fun _ => id
  | utime path actime modtime =>
      exact .enlarged (hsame heffect) hhandles (fun _ => id) (fun _ => id) fun _ => id
  | truncate path offset =>
      obtain ⟨heq, hnone⟩ | ⟨a, hfinds, hcounted⟩ := heffect
      · exact .enlarged (hsame heq) hhandles (fun _ => id) hnone fun _ => id
      · exact .truncated a hfinds hcounted hhandles fun _ => id

/-- An operation drops one node at most. -/
theorem drops_unique (hwf : s.vol.TreeWf) {a b : Nat} (ha : Drops env s.vol op a)
    (hb : Drops env s.vol op b) : a = b := by
  obtain ⟨p, t, hok⟩ := hwf
  cases op with
  | unlink path =>
      obtain ⟨e, he, hpath, -⟩ := ha
      obtain ⟨e', he', hpath', -⟩ := hb
      exact hok.path_inj ⟨e, he, hpath⟩ ⟨e', he', hpath'⟩
  | rmdir path =>
      obtain ⟨e, he, hpath, -⟩ := ha
      obtain ⟨e', he', hpath', -⟩ := hb
      exact hok.path_inj ⟨e, he, hpath⟩ ⟨e', he', hpath'⟩
  | _ => exact ha.elim

/-- An operation opens one node at most. -/
theorem opens_unique (hwf : s.vol.TreeWf) {a b : Nat} (ha : OpensAt s.vol.treeEntry op a)
    (hb : OpensAt s.vol.treeEntry op b) : a = b := by
  obtain ⟨p, t, hok⟩ := hwf
  cases op with
  | «open» path =>
      obtain ⟨e, he, hpath, -⟩ := ha
      obtain ⟨e', he', hpath', -⟩ := hb
      exact hok.path_inj ⟨e, he, hpath⟩ ⟨e', he', hpath'⟩
  | opendir path =>
      obtain ⟨e, he, hpath, -⟩ := ha
      obtain ⟨e', he', hpath', -⟩ := hb
      exact hok.path_inj ⟨e, he, hpath⟩ ⟨e', he', hpath'⟩
  | _ => exact ha.elim

end Calls

/-! ## Live handles -/

/-- The node is in the file tree, and so are all its hierarchical ancestors. -/
def Live (E : Nat → Option TreeEntry) (a : Nat) : Prop := ∀ b, Reaches E a b → ∃ e, E b = some e

/-- Every outstanding handle is live. -/
def Session.HandlesLive (s : Session) : Prop := ∀ h ∈ s.handles, Live s.vol.treeEntry h

/-- No removal drops a node that an outstanding handle is on or below. -/
def SparesHandles (env : Env) (s : Session) (op : Op) : Prop :=
  ∀ a, Drops env s.vol op a → ∀ h ∈ s.handles, ¬ Reaches s.vol.treeEntry h a

section Live

variable {E E' : Nat → Option TreeEntry} {a b : Nat}

/-- A node stays live where the parents above it do not change. -/
theorem Live.congr (hlive : Live E a) (h : SameAbove E E' a) : Live E' a := by
  intro b hab
  have hab' := h.reaches.mp hab
  obtain ⟨e, he⟩ := hlive b hab'
  have hmap := h b hab'
  rw [he, Option.map_some] at hmap
  obtain ⟨e', he', -⟩ := Option.map_eq_some_iff.mp hmap
  exact ⟨e', he'⟩

/-- Counting handles changes no parent. -/
theorem Counted.sameAbove {g : Nat → Nat} {r : Ptr} (h : Counted g r E E') (a : Nat) :
    SameAbove E E' a := fun b _ => h.parents b

/-- Growing the tree changes no parent above a live node. -/
theorem Enlarged.sameAbove (h : Enlarged E E') (hlive : Live E a) : SameAbove E E' a := by
  intro b hab
  obtain ⟨e, he⟩ := hlive b hab
  rw [he, h.kept b e he]

/-- Dropping a node that is not above. -/
theorem sameAbove_update (hab : ¬ Reaches E a b) : SameAbove E (Function.update E b none) a := by
  intro d had
  have hne : d ≠ b := fun heq => hab (heq ▸ had)
  rw [Function.update_of_ne hne]

/-- Dropping a node leaves the way up to it. -/
theorem reaches_update {v : Option TreeEntry} (hab : Reaches E a b) :
    Reaches (Function.update E b v) a b := by
  -- either the way does not pass the node, or it ends there earlier
  have h {d : Nat} (had : Reaches E a d) :
      Reaches (Function.update E b v) a d ∨ Reaches (Function.update E b v) a b := by
    induction had with
    | refl => exact .inl .refl
    | @tail c d _ hup ih =>
        refine ih.elim (fun hac => ?_) .inr
        by_cases hcb : c = b
        · exact .inr (hcb ▸ hac)
        · obtain ⟨e, he, hparent⟩ := hup
          exact .inl (hac.tail ⟨e, by rwa [Function.update_of_ne hcb], hparent⟩)
  exact (h hab).elim id id

/-- The handles stay live exactly when the node that is dropped, if any, is not above them. -/
theorem Moves.keepsLive_iff {env : Env} {s t : Session} {op : Op} (hwf : s.vol.TreeWf)
    (hlive : s.HandlesLive) (hm : Moves env s op t) : t.HandlesLive ↔ SparesHandles env s op := by
  have hspares (hno : ∀ a, ¬ Drops env s.vol op a) : SparesHandles env s op :=
    fun a ha => absurd ha (hno a)
  -- Every case but the last one keeps all entries that a handle reaches.
  cases hm with
  | enlarged entries handles _ _ noDrop =>
      refine ⟨fun _ => hspares noDrop, fun _ h hh => ?_⟩
      rw [handles] at hh
      exact (hlive h hh).congr (entries.sameAbove (hlive h hh))
  | opened a _ entries handles _ noDrop =>
      refine ⟨fun _ => hspares noDrop, fun _ h hh => ?_⟩
      rw [handles, List.mem_cons] at hh
      obtain rfl | hh := hh
      · exact Live.congr (entries.chain h rfl) (entries.sameAbove h)
      · exact (hlive h hh).congr (entries.sameAbove h)
  | released a _ entries handles _ _ noDrop =>
      refine ⟨fun _ => hspares noDrop, fun _ h hh => ?_⟩
      rw [handles] at hh
      exact (hlive h (List.mem_of_mem_erase hh)).congr (entries.sameAbove h)
  | truncated a _ entries handles noDrop =>
      refine ⟨fun _ => hspares noDrop, fun _ h hh => ?_⟩
      rw [handles] at hh
      exact (hlive h hh).congr (entries.sameAbove h)
  | dropped a drops entries handles _ _ =>
      constructor
      -- A dropped entry must have no handle below it, since its cell is gone.
      · intro hlive' b hb h hh hreaches
        obtain rfl := drops_unique hwf drops hb
        rw [← handles] at hh
        obtain ⟨e, he⟩ := hlive' h hh a (by rw [entries]; exact reaches_update hreaches)
        rw [entries, Function.update_self] at he
        cases he
      · intro hspare h hh
        rw [handles] at hh
        rw [entries]
        exact (hlive h hh).congr (sameAbove_update (hspare a drops h hh))

end Live

/-- Just after mounting there is no handle. -/
theorem Session.Mounted.handlesLive {env : Env} {s : Session} (h : s.Mounted env) : s.HandlesLive := by
  intro a ha
  rw [h.1] at ha
  cases ha

/-- A mounted volume has a well-formed tree. -/
theorem Session.Mounted.treeWf {env : Env} {s : Session} (h : s.Mounted env) : s.vol.TreeWf := by
  obtain ⟨-, root, table, image, io, hinit⟩ := h
  exact (initFileTree_ok hinit).1

/-- **Open handles denote live nodes.** In a run of operations on a volume just mounted, every
outstanding handle is a node of the file tree, and so are all its ancestors, exactly when no removal of
the run drops a node that a handle is on or below. -/
theorem handlesLive_iff {env : Env} {s t : Session} (hs : s.Mounted env) {ops : List Op}
    {replies : List Reply} (hrun : exec (Session.call env) [] s ops = some (replies, t)) :
    Throughout (Session.call env) (fun _ s => s.HandlesLive) [] s ops ↔
      Meets (Session.call env) (fun _ s op => SparesHandles env s op) [] s ops := by
  have hinv (evs : List Reply) (s : Session) (op : Op) (u : Session) (new : List Reply)
      (hwf : s.vol.TreeWf) (_ : True) (_ : SparesHandles env s op)
      (hcall : s.call env op = some (u, new)) : u.vol.TreeWf :=
    (call_moves hwf hcall).1
  have hstep (evs : List Reply) (s : Session) (op : Op) (u : Session) (new : List Reply)
      (hwf : s.vol.TreeWf) (_ : True) (hlive : s.HandlesLive) (hcall : s.call env op = some (u, new)) :
      u.HandlesLive ↔ SparesHandles env s op :=
    (call_moves hwf hcall).2.keepsLive_iff hwf hlive
  exact throughout_iff_meets (I := fun _ s => s.vol.TreeWf) hinv hstep hs.treeWf hs.handlesLive
    (meets_of_forall_mem fun _ _ => trivial) hrun

/-- No file is unlinked while it is open. -/
def UnlinksClosed (s : Session) (op : Op) : Prop :=
  ∀ path, op = .unlink path → ∀ h ∈ s.handles, ¬ PathAt s.vol.treeEntry h path

/-- The small volume just mounted. -/
def freshSession : Session := ⟨freshVolume, []⟩

/-- The session of the examples begins mounted. -/
theorem freshSession_mounted : freshSession.Mounted quietEnv :=
  ⟨rfl, 2, smallTable, fun _ => 0, [], by rfl⟩

/-- `"/d"`. -/
def dirPath : CString := [47, 100]

/-- A directory is made, opened and closed, and removed. -/
theorem handlesLive_iff_dirPath :
    ∃ replies t, exec (Session.call quietEnv) [] freshSession
        [.mkdir dirPath, .opendir dirPath, .releasedir (some 1), .rmdir dirPath] = some (replies, t) ∧
      (Throughout (Session.call quietEnv) (fun _ s => s.HandlesLive) [] freshSession
          [.mkdir dirPath, .opendir dirPath, .releasedir (some 1), .rmdir dirPath] ↔
        Meets (Session.call quietEnv) (fun _ s op => SparesHandles quietEnv s op) [] freshSession
          [.mkdir dirPath, .opendir dirPath, .releasedir (some 1), .rmdir dirPath]) := by
  obtain ⟨⟨replies, t⟩, hrun⟩ := Option.isSome_iff_exists.mp
    (by decide +kernel : (exec (Session.call quietEnv) [] freshSession
      [.mkdir dirPath, .opendir dirPath, .releasedir (some 1), .rmdir dirPath]).isSome = true)
  exact ⟨replies, t, hrun, handlesLive_iff freshSession_mounted hrun⟩

/-- A directory that is removed while it is open: its handle is not in the tree any more. -/
theorem not_forall_handlesLive :
    ¬ ∀ (env : Env) (s : Session), s.Mounted env → ∀ (ops : List Op) (replies : List Reply) (t : Session),
      Meets (Session.call env) (fun _ s op => UnlinksClosed s op) [] s ops →
      exec (Session.call env) [] s ops = some (replies, t) →
      Throughout (Session.call env) (fun _ s => s.HandlesLive) [] s ops := by
  intro hall
  let ops : List Op := [.mkdir dirPath, .opendir dirPath, .rmdir dirPath]
  have hends : (exec (Session.call quietEnv) [] freshSession ops).map
      (fun r => (r.2.handles, (r.2.vol.treeEntry 1).isSome)) = some ([1], false) := by decide +kernel
  obtain ⟨⟨replies, t⟩, hrun, hend⟩ := Option.map_eq_some_iff.mp hends
  obtain ⟨hhandles, hgone⟩ := Prod.mk.inj hend
  have hclosed : Meets (Session.call quietEnv) (fun _ s op => UnlinksClosed s op) [] freshSession ops := by
    refine (meets_of_forall_mem (Q := fun op => ∀ path, op ≠ .unlink path) fun op hop path => ?_).mono
      fun _ _ op h path heq => absurd heq (h path)
    rintro rfl
    simp [ops] at hop
  have hlive := hall quietEnv freshSession freshSession_mounted ops replies t hclosed hrun ops []
    replies t (List.append_nil ops).symm hrun
  obtain ⟨e, he⟩ := hlive 1 (by rw [hhandles]; exact List.mem_singleton_self 1) 1 .refl
  rw [he] at hgone
  cases hgone

/-! ## Exact counters -/

namespace Session

/-- The number of outstanding handles on a node or below it. -/
def handlesOn (s : Session) (b : Nat) : Nat :=
  s.handles.countP fun h => decide (b ∈ s.vol.ancestors h)

/-- The open count of every node is the number of the outstanding handles on it or below it; without
handles, it is 0. -/
structure CountersExact (s : Session) : Prop where
  counted : ∀ b e, s.vol.treeEntry b = some e → e.opened = s.handlesOn b
  closed : s.handles = [] → ∀ b e, s.vol.treeEntry b = some e → e.opened = 0

end Session

/-- The step condition: no file is truncated, no count passes 31 bits, and no removal drops a node that
a handle is on or below. -/
structure CountsRight (env : Env) (s : Session) (op : Op) : Prop where
  noTruncate : ∀ a, ¬ TruncatesAt s.vol.treeEntry op a
  inRange : ∀ a, OpensAt s.vol.treeEntry op a → ∀ b, Reaches s.vol.treeEntry a b →
    s.handlesOn b + 1 < 2 ^ 31
  spares : SparesHandles env s op

section Counters

variable {env : Env} {s t : Session} {op : Op}

/-- The counters are exact when each is the number of handles. -/
theorem countersExact_of_counted (h : ∀ b e, s.vol.treeEntry b = some e → e.opened = s.handlesOn b) :
    s.CountersExact := by
  refine ⟨h, fun hnil b e he => ?_⟩
  rw [h b e he, Session.handlesOn, hnil]
  rfl

/-- A handle has the same ancestors where the parents above it do not change. -/
theorem ancestors_eq {h : Nat} (hsame : SameAbove s.vol.treeEntry t.vol.treeEntry h) :
    t.vol.ancestors h = s.vol.ancestors h := hsame.ancestorsFrom_eq _

/-- The handles of both sessions are on the same nodes. -/
theorem handlesOn_eq (hhandles : t.handles = s.handles)
    (hsame : ∀ h ∈ s.handles, SameAbove s.vol.treeEntry t.vol.treeEntry h) (b : Nat) :
    t.handlesOn b = s.handlesOn b := by
  unfold Session.handlesOn
  rw [hhandles]
  refine List.countP_congr fun h hh => ?_
  rw [ancestors_eq (hsame h hh)]

/-- One more handle. -/
theorem handlesOn_cons {a : Nat} (hhandles : t.handles = a :: s.handles)
    (hsame : ∀ h, SameAbove s.vol.treeEntry t.vol.treeEntry h) (b : Nat) :
    t.handlesOn b = s.handlesOn b + if b ∈ s.vol.ancestors a then 1 else 0 := by
  unfold Session.handlesOn
  simp only [hhandles, ancestors_eq (hsame _), List.countP_cons, decide_eq_true_eq]

/-- One handle less. -/
theorem handlesOn_erase {a : Nat} (hmem : a ∈ s.handles) (hhandles : t.handles = s.handles.erase a)
    (hsame : ∀ h, SameAbove s.vol.treeEntry t.vol.treeEntry h) (b : Nat) :
    s.handlesOn b = t.handlesOn b + if b ∈ s.vol.ancestors a then 1 else 0 := by
  unfold Session.handlesOn
  rw [(List.perm_cons_erase hmem).countP_eq]
  simp only [hhandles, ancestors_eq (hsame _), List.countP_cons, decide_eq_true_eq]

/-- No handle is below a node that is not live. -/
theorem handlesOn_of_none (hwf : s.vol.TreeWf) {b : Nat} (hnone : s.vol.treeEntry b = none) :
    s.handlesOn b = 0 := by
  obtain ⟨p, t, hok⟩ := hwf
  simp [Session.handlesOn, hok.mem_ancestors, hnone]

/-- The ancestors of a handle are the nodes that it reaches. -/
theorem mem_ancestors_iff (hwf : s.vol.TreeWf) {a b : Nat} {e : TreeEntry}
    (he : s.vol.treeEntry b = some e) : b ∈ s.vol.ancestors a ↔ Reaches s.vol.treeEntry a b := by
  obtain ⟨p, t, hok⟩ := hwf
  rw [hok.mem_ancestors]
  exact and_iff_left ⟨e, he⟩

/-- An entry after the counts were changed. -/
theorem Counted.eq_some_iff {g : Nat → Nat} {a : Nat} {E E' : Nat → Option TreeEntry}
    (h : Counted g (some a) E E') {b : Nat} {e : TreeEntry} (he : E b = some e) :
    (Reaches E a b → E' b = some (e.count g)) ∧ (¬ Reaches E a b → E' b = some e) := by
  refine ⟨fun hab => by rw [h.on a rfl b hab, he]; rfl, fun hab => ?_⟩
  rw [h.off b (by rintro a' ⟨⟩; exact hab), he]

/-- The entries are those before, up to counts. -/
theorem Counted.exists_of_eq_some {g : Nat → Nat} {r : Ptr} {E E' : Nat → Option TreeEntry}
    (h : Counted g r E E') {b : Nat} {e : TreeEntry} (he : E' b = some e) : ∃ e₀, E b = some e₀ := by
  have hmap := h.parents b
  rw [he, Option.map_some] at hmap
  obtain ⟨e₀, he₀, -⟩ := Option.map_eq_some_iff.mp hmap.symm
  exact ⟨e₀, he₀⟩

/-- New entries have no handle. -/
theorem countersExact_of_enlarged (hwf : s.vol.TreeWf) (hlive : s.HandlesLive)
    (hexact : s.CountersExact) (entries : Enlarged s.vol.treeEntry t.vol.treeEntry)
    (handles : t.handles = s.handles) : t.CountersExact := by
  refine countersExact_of_counted fun b e he => ?_
  rw [handlesOn_eq handles (fun h hh => entries.sameAbove (hlive h hh))]
  cases he₀ : s.vol.treeEntry b with
  | none => rw [entries.opened b e he he₀, handlesOn_of_none hwf he₀]
  | some e₀ =>
      rw [entries.kept b e₀ he₀] at he
      cases he
      exact hexact.counted b _ he₀

/-- A new handle is counted on its node and above, unless a count passes its range. -/
theorem countersExact_opened_iff (hwf : s.vol.TreeWf) (hexact : s.CountersExact) {a : Nat}
    (entries : Counted incCount (some a) s.vol.treeEntry t.vol.treeEntry)
    (handles : t.handles = a :: s.handles) :
    t.CountersExact ↔ ∀ b, Reaches s.vol.treeEntry a b → s.handlesOn b + 1 < 2 ^ 31 := by
  constructor
  · intro hexact' b hab
    obtain ⟨e, he⟩ := entries.chain a rfl b hab
    have hcount := hexact'.counted b _ ((entries.eq_some_iff he).1 hab)
    rw [handlesOn_cons handles entries.sameAbove, if_pos ((mem_ancestors_iff hwf he).mpr hab),
      TreeEntry.count, incCount, hexact.counted b e he] at hcount
    rw [← hcount]
    exact Nat.mod_lt _ (by norm_num)
  · refine fun hrange => countersExact_of_counted fun b e he => ?_
    obtain ⟨e₀, he₀⟩ := entries.exists_of_eq_some he
    rw [handlesOn_cons handles entries.sameAbove]
    by_cases hab : Reaches s.vol.treeEntry a b
    · rw [(entries.eq_some_iff he₀).1 hab] at he
      cases he
      rw [if_pos ((mem_ancestors_iff hwf he₀).mpr hab), TreeEntry.count, incCount, hexact.counted b e₀ he₀]
      exact Nat.mod_eq_of_lt (hrange b hab)
    · rw [(entries.eq_some_iff he₀).2 hab] at he
      cases he
      rw [if_neg fun hmem => hab ((mem_ancestors_iff hwf he₀).mp hmem)]
      exact hexact.counted b _ he₀

/-- A release is counted on the node and above. -/
theorem countersExact_of_released (hwf : s.vol.TreeWf) (hexact : s.CountersExact)
    (hsmall : ∀ b e, s.vol.treeEntry b = some e → e.opened < 2 ^ 31) {a : Nat} (mem : a ∈ s.handles)
    (entries : Counted decCount (some a) s.vol.treeEntry t.vol.treeEntry)
    (handles : t.handles = s.handles.erase a) : t.CountersExact := by
  refine countersExact_of_counted fun b e he => ?_
  obtain ⟨e₀, he₀⟩ := entries.exists_of_eq_some he
  have hcount := handlesOn_erase mem handles entries.sameAbove b
  have hold := hexact.counted b e₀ he₀
  by_cases hab : Reaches s.vol.treeEntry a b
  · rw [(entries.eq_some_iff he₀).1 hab] at he
    cases he
    rw [if_pos ((mem_ancestors_iff hwf he₀).mpr hab)] at hcount
    have hlt := hsmall b e₀ he₀
    show (e₀.opened + 2 ^ 31 - 1) % 2 ^ 31 = _
    rw [show e₀.opened + 2 ^ 31 - 1 = t.handlesOn b + 2 ^ 31 by omega, Nat.add_mod_right]
    exact Nat.mod_eq_of_lt (by omega)
  · rw [(entries.eq_some_iff he₀).2 hab] at he
    cases he
    rw [if_neg fun hmem => hab ((mem_ancestors_iff hwf he₀).mp hmem)] at hcount
    omega

/-- A truncation counts one handle more than there are. -/
theorem not_countersExact_of_truncated (hexact : s.CountersExact) {a : Nat}
    (entries : Counted incCount (some a) s.vol.treeEntry t.vol.treeEntry)
    (handles : t.handles = s.handles) : ¬ t.CountersExact := by
  intro hexact'
  obtain ⟨e, he⟩ := entries.chain a rfl a .refl
  have hcount : incCount e.opened = t.handlesOn a :=
    hexact'.counted a _ ((entries.eq_some_iff he).1 .refl)
  rw [handlesOn_eq handles (fun h _ => entries.sameAbove h), ← hexact.counted a e he] at hcount
  unfold incCount at hcount
  omega

/-- Two predicates on a list of which one is stronger and misses an element. -/
theorem countP_lt {α : Type} {p q : α → Bool} {l : List α} (hqp : ∀ x ∈ l, q x = true → p x = true)
    {x : α} (hx : x ∈ l) (hp : p x = true) (hq : q x = false) : l.countP q < l.countP p := by
  induction l with
  | nil => cases hx
  | cons y l ih =>
      have hrest : ∀ z ∈ l, q z = true → p z = true := fun z hz => hqp z (List.mem_cons_of_mem y hz)
      rw [List.mem_cons] at hx
      obtain rfl | hx := hx
      · rw [List.countP_cons_of_pos hp, List.countP_cons_of_neg (by simp [hq])]
        exact Nat.lt_succ_of_le (List.countP_mono_left hrest)
      · have hlt := ih hrest hx
        have hy := hqp y List.mem_cons_self
        cases hqy : q y with
        | false =>
            rw [List.countP_cons_of_neg (by simp [hqy]), List.countP_cons]
            omega
        | true =>
            rw [List.countP_cons_of_pos hqy, List.countP_cons_of_pos (hy hqy)]
            omega

/-- The nodes above a node are in a row. -/
theorem reaches_total {E : Nat → Option TreeEntry} {a b d : Nat} (hab : Reaches E a b)
    (had : Reaches E a d) : Reaches E b d ∨ Reaches E d b := by
  refine Relation.ReflTransGen.total_of_right_unique ?_ hab had
  rintro x y z ⟨e, he, hy⟩ ⟨e', he', hz⟩
  rw [he] at he'
  cases he'
  exact Option.some.inj (hy.symm.trans hz)

/-- Dropping a node makes the counts above it wrong if a handle is on it or below it. -/
theorem countersExact_dropped_iff (hwf : s.vol.TreeWf) (hexact : s.CountersExact)
    {a : Nat} (drops : Drops env s.vol op a)
    (entries : t.vol.treeEntry = Function.update s.vol.treeEntry a none) (hwf' : t.vol.TreeWf)
    (handles : t.handles = s.handles) : t.CountersExact ↔ SparesHandles env s op := by
  have hback {b : Nat} {e : TreeEntry} (he : t.vol.treeEntry b = some e) :
      b ≠ a ∧ s.vol.treeEntry b = some e := by
    rw [entries] at he
    by_cases hba : b = a
    · rw [hba, Function.update_self] at he
      cases he
    · rw [Function.update_of_ne hba] at he
      exact ⟨hba, he⟩
  constructor
  · intro hexact' b hb h hh hreaches
    obtain rfl := drops_unique hwf drops hb
    obtain ⟨q, d, e, hq, hd, he⟩ : ∃ q d e, e.parent = some q ∧ s.vol.treeEntry q = some d ∧
        s.vol.treeEntry a = some e := by
      cases op with
      | unlink path =>
          obtain ⟨e, he, -, -, q, d, hq, hd, -⟩ := drops
          exact ⟨q, d, e, hq, hd, he⟩
      | rmdir path =>
          obtain ⟨e, he, -, -, ⟨q, d, hq, hd, -⟩, -⟩ := drops
          exact ⟨q, d, e, hq, hd, he⟩
      | _ => exact drops.elim
    obtain ⟨p, tr, hok⟩ := hwf
    have hqa : q < a := hok.parent_lt a e q he hq
    have hdt : t.vol.treeEntry q = some d := by
      rw [entries, Function.update_of_ne (Nat.ne_of_lt hqa), hd]
    -- the handle was counted at the parent, and is so no longer
    have hlt : t.handlesOn q < s.handlesOn q := by
      unfold Session.handlesOn
      rw [handles]
      refine countP_lt (fun g _ hg => ?_) hh ?_ ?_
      · rw [decide_eq_true_eq, mem_ancestors_iff hwf' hdt, entries] at hg
        rw [decide_eq_true_eq, mem_ancestors_iff ⟨p, tr, hok⟩ hd]
        refine Relation.ReflTransGen.mono (fun x y hup => ?_) _ _ hg
        obtain ⟨e', he', hparent⟩ := hup
        by_cases hxa : x = a
        · rw [hxa, Function.update_self] at he'
          cases he'
        · rw [Function.update_of_ne hxa] at he'
          exact ⟨e', he', hparent⟩
      · rw [decide_eq_true_eq, mem_ancestors_iff ⟨p, tr, hok⟩ hd]
        exact hreaches.tail ⟨e, he, hq⟩
      · rw [decide_eq_false_iff_not, mem_ancestors_iff hwf' hdt]
        intro hhq
        obtain ⟨p', tr', hok'⟩ := hwf'
        have hha : Reaches t.vol.treeEntry h a := by
          rw [entries]
          exact reaches_update hreaches
        obtain haq | hqa' := reaches_total hha hhq
        · rw [reaches_of_none (by rw [entries, Function.update_self])] at haq
          omega
        · have := le_of_reaches hok'.parent_lt hqa'
          omega
    rw [← hexact'.counted q d hdt, ← hexact.counted q d hd] at hlt
    exact Nat.lt_irrefl _ hlt
  · refine fun hspares => countersExact_of_counted fun b e he => ?_
    obtain ⟨-, he₀⟩ := hback he
    rw [handlesOn_eq handles fun h hh => ?_, hexact.counted b e he₀]
    rw [entries]
    exact sameAbove_update (hspares a drops h hh)

/-- The counters stay exact exactly when the step counts right. -/
theorem Moves.countsRight_iff (hwf : s.vol.TreeWf) (hwf' : t.vol.TreeWf) (hlive : s.HandlesLive)
    (hsmall : ∀ b e, s.vol.treeEntry b = some e → e.opened < 2 ^ 31) (hexact : s.CountersExact)
    (hm : Moves env s op t) : t.CountersExact ↔ CountsRight env s op := by
  have hspares (hno : ∀ a, ¬ Drops env s.vol op a) : SparesHandles env s op :=
    fun a ha => absurd ha (hno a)
  cases hm with
  | enlarged entries handles noOpen noTruncate noDrop =>
      refine ⟨fun _ => ⟨noTruncate, fun a ha => absurd ha (noOpen a), hspares noDrop⟩, fun _ => ?_⟩
      exact countersExact_of_enlarged hwf hlive hexact entries handles
  | opened a opens entries handles noTruncate noDrop =>
      rw [countersExact_opened_iff hwf hexact entries handles]
      refine ⟨fun hrange => ⟨noTruncate, fun b hb => ?_, hspares noDrop⟩, fun h => h.inRange a opens⟩
      rwa [← opens_unique hwf opens hb]
  | released a mem entries handles noOpen noTruncate noDrop =>
      refine ⟨fun _ => ⟨noTruncate, fun a ha => absurd ha (noOpen a), hspares noDrop⟩, fun _ => ?_⟩
      exact countersExact_of_released hwf hexact hsmall mem entries handles
  | truncated a truncates entries handles noDrop =>
      refine ⟨fun hexact' => ?_, fun h => absurd truncates (h.noTruncate a)⟩
      exact absurd hexact' (not_countersExact_of_truncated hexact entries handles)
  | dropped a drops entries handles noOpen noTruncate =>
      rw [countersExact_dropped_iff hwf hexact drops entries hwf' handles]
      exact ⟨fun h => ⟨noTruncate, fun a ha => absurd ha (noOpen a), h⟩, fun h => h.spares⟩

/-- Counts stay below the range of their field. -/
theorem Moves.small (hm : Moves env s op t)
    (hsmall : ∀ b e, s.vol.treeEntry b = some e → e.opened < 2 ^ 31) :
    ∀ b e, t.vol.treeEntry b = some e → e.opened < 2 ^ 31 := by
  -- The counters are an `int`, so both updates stay below 2 ^ 31.
  have hcounted {g : Nat → Nat} (hg : ∀ n, g n < 2 ^ 31) {a : Nat}
      (entries : Counted g (some a) s.vol.treeEntry t.vol.treeEntry) (b : Nat) (e : TreeEntry)
      (he : t.vol.treeEntry b = some e) : e.opened < 2 ^ 31 := by
    obtain ⟨e₀, he₀⟩ := entries.exists_of_eq_some he
    by_cases hab : Reaches s.vol.treeEntry a b
    · rw [(entries.eq_some_iff he₀).1 hab] at he
      cases he
      exact hg _
    · rw [(entries.eq_some_iff he₀).2 hab] at he
      cases he
      exact hsmall b _ he₀
  have hinc (n : Nat) : incCount n < 2 ^ 31 := Nat.mod_lt _ (by norm_num)
  have hdec (n : Nat) : decCount n < 2 ^ 31 := Nat.mod_lt _ (by norm_num)
  intro b e he
  cases hm with
  | enlarged entries =>
      cases he₀ : s.vol.treeEntry b with
      | none =>
          rw [entries.opened b e he he₀]
          norm_num
      | some e₀ =>
          rw [entries.kept b e₀ he₀] at he
          cases he
          exact hsmall b _ he₀
  | opened a _ entries => exact hcounted hinc entries b e he
  | released a _ entries => exact hcounted hdec entries b e he
  | truncated a _ entries => exact hcounted hinc entries b e he
  | dropped a _ entries =>
      rw [entries] at he
      by_cases hba : b = a
      · rw [hba, Function.update_self] at he
        cases he
      · rw [Function.update_of_ne hba] at he
        exact hsmall b e he

end Counters

/-- Just after mounting, the root directory is there, and nobody opened it. -/
theorem Session.Mounted.opened {env : Env} {s : Session} (h : s.Mounted env) (b : Nat) (e : TreeEntry)
    (he : s.vol.treeEntry b = some e) : e.opened = 0 := by
  obtain ⟨-, root, table, image, io, hinit⟩ := h
  obtain ⟨-, d, htable, -, -, hopened⟩ := initFileTree_ok hinit
  rw [htable] at he
  by_cases hb : b = 0
  · rw [hb, Function.update_self] at he
    cases he
    exact hopened
  · rw [Function.update_of_ne hb] at he
    cases he

/-- The counters of a mounted volume are exact, since there is no handle. -/
theorem Session.Mounted.countersExact {env : Env} {s : Session} (h : s.Mounted env) :
    s.CountersExact := by
  refine countersExact_of_counted fun b e he => ?_
  rw [h.opened b e he, Session.handlesOn, h.1]
  rfl

/-- **Open counts are exact.** In a run of operations on a volume just mounted, every open count is the
number of outstanding handles on its node or below it, exactly when no operation of the run truncates a
file, no count passes 31 bits, and no removal drops a node that a handle is on or below. -/
theorem countersExact_iff {env : Env} {s t : Session} (hs : s.Mounted env) {ops : List Op}
    {replies : List Reply} (hrun : exec (Session.call env) [] s ops = some (replies, t)) :
    Throughout (Session.call env) (fun _ s => s.CountersExact) [] s ops ↔
      Meets (Session.call env) (fun _ s op => CountsRight env s op) [] s ops := by
  have hinv (evs : List Reply) (s : Session) (op : Op) (u : Session) (new : List Reply)
      (hI : s.vol.TreeWf ∧ s.HandlesLive ∧ ∀ b e, s.vol.treeEntry b = some e → e.opened < 2 ^ 31)
      (_ : True) (hC : CountsRight env s op) (hcall : s.call env op = some (u, new)) :
      u.vol.TreeWf ∧ u.HandlesLive ∧ ∀ b e, u.vol.treeEntry b = some e → e.opened < 2 ^ 31 := by
    obtain ⟨hwf', hm⟩ := call_moves hI.1 hcall
    exact ⟨hwf', (hm.keepsLive_iff hI.1 hI.2.1).mpr hC.spares, hm.small hI.2.2⟩
  have hstep (evs : List Reply) (s : Session) (op : Op) (u : Session) (new : List Reply)
      (hI : s.vol.TreeWf ∧ s.HandlesLive ∧ ∀ b e, s.vol.treeEntry b = some e → e.opened < 2 ^ 31)
      (_ : True) (hexact : s.CountersExact) (hcall : s.call env op = some (u, new)) :
      u.CountersExact ↔ CountsRight env s op := by
    obtain ⟨hwf', hm⟩ := call_moves hI.1 hcall
    exact hm.countsRight_iff hI.1 hwf' hI.2.1 hI.2.2 hexact
  refine throughout_iff_meets (I := fun _ s => s.vol.TreeWf ∧ s.HandlesLive ∧
    ∀ b e, s.vol.treeEntry b = some e → e.opened < 2 ^ 31) hinv hstep
    ⟨hs.treeWf, hs.handlesLive, fun b e he => ?_⟩ hs.countersExact
    (meets_of_forall_mem fun _ _ => trivial) hrun
  rw [hs.opened b e he]
  norm_num

/-- No node is removed while it is open. -/
def RemovesClosed (s : Session) (op : Op) : Prop :=
  ∀ path, op = .unlink path ∨ op = .rmdir path → ∀ h ∈ s.handles, ¬ PathAt s.vol.treeEntry h path

/-- Opening a directory twice and closing it once leaves the counters exact. -/
theorem countersExact_iff_dirPath :
    ∃ replies t, exec (Session.call quietEnv) [] freshSession
        [.mkdir dirPath, .opendir dirPath, .opendir dirPath, .releasedir (some 1)] =
          some (replies, t) ∧
      (Throughout (Session.call quietEnv) (fun _ s => s.CountersExact) [] freshSession
          [.mkdir dirPath, .opendir dirPath, .opendir dirPath, .releasedir (some 1)] ↔
        Meets (Session.call quietEnv) (fun _ s op => CountsRight quietEnv s op) [] freshSession
          [.mkdir dirPath, .opendir dirPath, .opendir dirPath, .releasedir (some 1)]) := by
  obtain ⟨⟨replies, t⟩, hrun⟩ := Option.isSome_iff_exists.mp
    (by decide +kernel : (exec (Session.call quietEnv) [] freshSession
      [.mkdir dirPath, .opendir dirPath, .opendir dirPath, .releasedir (some 1)]).isSome = true)
  exact ⟨replies, t, hrun, countersExact_iff freshSession_mounted hrun⟩

/-- A new file that is truncated is counted as open for good. -/
theorem not_forall_countersExact :
    ¬ ∀ (env : Env) (s : Session), s.Mounted env → ∀ (ops : List Op) (replies : List Reply) (t : Session),
      Meets (Session.call env) (fun _ s op => RemovesClosed s op) [] s ops →
      exec (Session.call env) [] s ops = some (replies, t) →
      Throughout (Session.call env) (fun _ s => s.CountersExact) [] s ops := by
  intro hall
  let ops : List Op := [.mknod dirPath, .truncate dirPath 0]
  have hends : (exec (Session.call quietEnv) [] freshSession ops).map
      (fun r => (r.2.handles, (r.2.vol.treeEntry 1).map TreeEntry.opened)) = some ([], some 1) := by
    decide +kernel
  obtain ⟨⟨replies, t⟩, hrun, hend⟩ := Option.map_eq_some_iff.mp hends
  obtain ⟨hhandles, hcount⟩ := Prod.mk.inj hend
  have hclosed : Meets (Session.call quietEnv) (fun _ s op => RemovesClosed s op) [] freshSession ops := by
    refine (meets_of_forall_mem (Q := fun op => ∀ path, ¬ (op = .unlink path ∨ op = .rmdir path))
      fun op hop path => ?_).mono fun _ _ op h path heq => absurd heq (h path)
    rintro (rfl | rfl) <;> simp [ops] at hop
  have hexact := hall quietEnv freshSession freshSession_mounted ops replies t hclosed hrun ops []
    replies t (List.append_nil ops).symm hrun
  obtain ⟨e, he, hopened⟩ := Option.map_eq_some_iff.mp hcount
  have hzero := hexact.closed hhandles 1 e he
  omega

end OsLabs.Fat
