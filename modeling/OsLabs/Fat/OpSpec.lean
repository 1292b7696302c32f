import OsLabs.Fat.LogCalls
import OsLabs.Fat.NewFiles

/-! # What the operations do to the file tree

For all results of the device calls, on a well-formed file tree (`State.TreeWf`): an operation that
returns keeps the tree well formed and

* adds entries below others (`Enlarged`) if it creates or lists,
* changes the open counts of a node and its ancestors (`Counted`) if it opens, releases or truncates,
* drops one entry (`Drops`) if it removes,
* and leaves the entries as they are otherwise. -/

namespace OsLabs.Fat

open Cmd

/-! ## Larger trees -/

/-- The file tree is well formed. -/
def State.TreeWf (s : State) : Prop := ∃ p t, TreeOk s p t

/-- How the path of a node comes from that of its parent: it was given on creation, or it was made of
the name in the directory. -/
def Beneath (dirpath path : CString) : Prop :=
  dirpath = dirname path ∨ ∃ name, path = filepathFromName dirpath name

/-- Entries were added below others; nobody opened them. -/
structure Enlarged (E E' : Nat → Option TreeEntry) : Prop where
  kept : ∀ a e, E a = some e → E' a = some e
  opened : ∀ a e, E' a = some e → E a = none → e.opened = 0
  beneath : ∀ a e, E' a = some e → E a = none →
    ∃ q d, e.parent = some q ∧ E' q = some d ∧ Beneath d.path e.path

/-- The entries enlarge themselves by nothing. -/
theorem Enlarged.refl (E : Nat → Option TreeEntry) : Enlarged E E where
  kept _ _ h := h
  opened a e h h' := by
    rw [h] at h'
    cases h'
  beneath a e h h' := by
    rw [h] at h'
    cases h'

/-- Enlargements add up. -/
theorem Enlarged.trans {E E' E'' : Nat → Option TreeEntry} (h : Enlarged E E') (h' : Enlarged E' E'') :
    Enlarged E E'' where
  kept a e he := h'.kept a e (h.kept a e he)
  opened a e he hnone := by
    cases hmid : E' a with
    | none => exact h'.opened a e he hmid
    | some e' =>
        rw [h'.kept a e' hmid] at he
        cases he
        exact h.opened a _ hmid hnone
  beneath a e he hnone := by
    cases hmid : E' a with
    | none => exact h'.beneath a e he hmid
    | some e' =>
        rw [h'.kept a e' hmid] at he
        cases he
        obtain ⟨q, d, hq, hd, hbeneath⟩ := h.beneath a _ hmid hnone
        exact ⟨q, d, hq, h'.kept q d hd, hbeneath⟩

/-- The tree of `u` is well formed, and that of `s` with entries added. -/
structure Enlarges (s u : State) : Prop where
  wf : u.TreeWf
  entries : Enlarged s.treeEntry u.treeEntry

section Enlarges

variable {s t u : State}

/-- Steps that enlarge the tree enlarge it together. -/
theorem Enlarges.trans (h : Enlarges s t) (h' : Enlarges t u) : Enlarges s u :=
  ⟨h'.wf, h.entries.trans h'.entries⟩

/-- A tree whose entries are kept stays well formed. -/
theorem KeepsEntries.treeWf (hk : KeepsEntries s u) (h : s.TreeWf) : u.TreeWf := by
  obtain ⟨p, t, h⟩ := h
  exact ⟨p, t, hk.treeOk h⟩

/-- In a well-formed tree, keeping the entries means that no entry changes. -/
theorem KeepsEntries.treeEntry_eq (hk : KeepsEntries s u) (h : s.TreeWf) :
    u.treeEntry = s.treeEntry := by
  obtain ⟨p, t, h⟩ := h
  exact hk.treeEntry h

/-- Keeping the entries is an enlargement by nothing. -/
theorem KeepsEntries.enlarges (hk : KeepsEntries s u) (h : s.TreeWf) : Enlarges s u := by
  refine ⟨hk.treeWf h, ?_⟩
  rw [hk.treeEntry_eq h]
  exact .refl _

/-- Lookups leave the entries alone. -/
theorem LookedUp.keepsEntries (h : LookedUp s u) : KeepsEntries s u := DataFrame.lookedUp s u h

end Enlarges

/-! ## Insertions -/

/-- `c` is a file with this path that is behind no node; nobody opened it, and it has an entry. -/
structure Waiting (s : State) (c : Nat) (path : CString) : Prop where
  outside : ∀ a e, s.treeEntry a = some e → e.file ≠ c
  file : ∃ f, s.files.cell c = some f ∧ f.filepath = path ∧ f.numTimesOpened = 0 ∧
    f.dentry.isSome = true

section Insertions

variable {s t u : State} {q c : Nat} {d : TreeEntry} {path : CString}

/-- A new file waits to be inserted. -/
theorem NewFile.waiting (h : NewFile s c path u) (hk : KeepsEntries s u) (hs : s.TreeWf) :
    Waiting u c path := by
  refine ⟨fun a e he => ?_, h.file⟩
  rw [hk.treeEntry_eq hs] at he
  exact h.not_mem he

/-- An insertion below a node; what is new is the inserted file. -/
theorem fatTreeInsert_enlarges (h : s.TreeWf) (hw : Waiting s c path) (hd : s.treeEntry q = some d)
    (hpath : Beneath d.path path) (hrun : fatTreeInsert (some q) (some c) s = .ok ⟨⟩ u) :
    Enlarges s u ∧ u.files = s.files ∧
      ∀ a e, u.treeEntry a = some e → s.treeEntry a = none → e.file = c := by
  obtain ⟨p, t, h⟩ := h
  obtain ⟨f, hf, rfl, hopened, hdentry⟩ := hw.file
  obtain ⟨⟨nodes, p', hu⟩, ⟨-, hk⟩ | ⟨-, -, hwf, htable⟩⟩ :=
    fatTreeInsert_ok h hf hdentry hw.outside hrun
  · refine ⟨hk.enlarges ⟨p, t, h⟩, by rw [hu]; rfl, fun a e he hnone => ?_⟩
    rw [hk.treeEntry h, hnone] at he
    cases he
  · -- the only new entry is the inserted one
    have hnew (a : Nat) (e : TreeEntry) (he : u.treeEntry a = some e) (hnone : s.treeEntry a = none) :
        a = s.nodes.next ∧ e = ⟨c, f.filepath, some q, f.numTimesOpened, f.isDir⟩ := by
      rw [htable, insertedEntry] at he
      by_cases ha : a = s.nodes.next
      · rw [ha, Function.update_self] at he
        cases he
        exact ⟨ha, rfl⟩
      · rw [Function.update_of_ne ha, hnone] at he
        cases he
    have hkept (a : Nat) (e : TreeEntry) (he : s.treeEntry a = some e) : u.treeEntry a = some e := by
      rw [htable]
      exact insertedEntry_of_some he
    refine ⟨⟨hwf, hkept, fun a e he hnone => ?_, fun a e he hnone => ?_⟩, by rw [hu]; rfl,
      fun a e he hnone => ?_⟩
    · obtain ⟨-, rfl⟩ := hnew a e he hnone
      exact hopened
    · obtain ⟨-, rfl⟩ := hnew a e he hnone
      exact ⟨q, d, rfl, hkept q d hd, hpath⟩
    · obtain ⟨-, rfl⟩ := hnew a e he hnone
      rfl

/-- The children of a directory are inserted below it. -/
theorem insertChildren_enlarges {cs : List Nat} (h : s.TreeWf) (hnodup : cs.Nodup)
    (hw : ∀ c ∈ cs, ∃ name, Waiting s c (filepathFromName d.path name)) (hd : s.treeEntry q = some d)
    (hrun : insertChildren (some q) cs s = .ok ⟨⟩ u) : Enlarges s u := by
  induction cs generalizing s with
  | nil =>
      cases hrun
      exact ⟨h, .refl _⟩
  | cons c rest ih =>
      obtain ⟨⟨⟩, v, hins, hrest⟩ := bind_eq_ok.mp hrun
      obtain ⟨name, hc⟩ := hw c List.mem_cons_self
      obtain ⟨hlarger, hfiles, hnew⟩ := fatTreeInsert_enlarges h hc hd (.inr ⟨name, rfl⟩) hins
      refine hlarger.trans (ih hlarger.wf hnodup.of_cons ?_ (hlarger.entries.kept q d hd) hrest)
      -- the other children are still behind no node
      intro c' hc'
      obtain ⟨name', hw'⟩ := hw c' (List.mem_cons_of_mem c hc')
      refine ⟨name', fun a e he => ?_, by rw [hfiles]; exact hw'.file⟩
      cases hnone : s.treeEntry a with
      | none =>
          rw [hnew a e he hnone]
          rintro rfl
          exact (List.nodup_cons.mp hnodup).1 hc'
      | some e' =>
          rw [hlarger.entries.kept a e' hnone] at he
          cases he
          exact hw'.outside a _ hnone

/-! ## The entry of a child -/

/-- A changed entry is that of a live file. -/
theorem updateDentry_eq_ok {g : DirEntry → DirEntry} (h : updateDentry c g s = .ok ⟨⟩ u) :
    ∃ x e, s.files.cell c = some x ∧ x.dentry = some e ∧
      u = s.updated c fun x => { x with dentry := some (g e) } := by
  obtain ⟨e, t, he, hrest⟩ := bind_eq_ok.mp h
  obtain ⟨rfl, x, hx, hxe⟩ := readDentry_eq_ok he
  rw [updateFile_run hx] at hrest
  cases hrest
  exact ⟨x, e, hx, hxe, rfl⟩

/-- Another entry for the file of at most one node. -/
theorem updateDentry_treeEntry {g : DirEntry → DirEntry} (h : s.TreeWf)
    (hrun : updateDentry c g s = .ok ⟨⟩ u) :
    u.TreeWf ∧ (∀ a, (∀ e, s.treeEntry a = some e → e.file ≠ c) → u.treeEntry a = s.treeEntry a) ∧
      ∀ a e, s.treeEntry a = some e → e.file = c → ∃ b, u.treeEntry a = some { e with isDir := b } := by
  obtain ⟨p, t, h⟩ := h
  obtain ⟨x, e, hx, -, rfl⟩ := updateDentry_eq_ok hrun
  obtain ⟨hok, hother, hself⟩ := h.updated (g := fun x => { x with dentry := some (g e) }) (fun _ => rfl) fun _ _ => rfl
  refine ⟨⟨p, t, hok⟩, hother, fun a e' he' hfile => ?_⟩
  obtain ⟨node, f, -, hf, rfl⟩ := treeEntry_eq_some he'
  obtain rfl := hfile
  rw [hx] at hf
  cases hf
  exact ⟨_, hself a _ x he' rfl hx⟩

/-- What `fat_file_dentry_add_child` does to the tree: the child may be hidden. -/
theorem fatFileDentryAddChild_treeEntry {parent : Ptr} (h : s.TreeWf)
    (hrun : fatFileDentryAddChild parent (some c) s = .ok ⟨⟩ u) :
    u.TreeWf ∧ (∀ a, (∀ e, s.treeEntry a = some e → e.file ≠ c) → u.treeEntry a = s.treeEntry a) ∧
      ∀ a e, s.treeEntry a = some e → e.file = c → ∃ b, u.treeEntry a = some { e with isDir := b } := by
  obtain ⟨p, rfl, hrun⟩ := nonNull_bind_eq_ok hrun
  obtain ⟨y, hy, hrun⟩ := readFile_bind_eq_ok hrun
  obtain ⟨c', hc', hrun⟩ := nonNull_bind_eq_ok hrun
  cases hc'
  obtain ⟨x, hx, hrun⟩ := readFile_bind_eq_ok hrun
  obtain ⟨⟨⟩, v, hhide, hrun⟩ := bind_eq_ok.mp hrun
  have hstore := (within_storeChild (R := KeepsEntries) (some p) c y.nentries).ok hrun
  by_cases hlog : cstr x.name = fsLogName
  · rw [when_pos hlog] at hhide
    obtain ⟨hwf, hother, hself⟩ := updateDentry_treeEntry h hhide
    rw [hstore.treeEntry_eq hwf]
    exact ⟨hstore.treeWf hwf, hother, hself⟩
  · rw [when_neg hlog] at hhide
    cases hhide
    rw [hstore.treeEntry_eq h]
    exact ⟨hstore.treeWf h, fun _ _ => rfl, fun a e he _ => ⟨e.isDir, he⟩⟩

end Insertions

/-! ## Creation -/

/-- The directory flag of an entry is what `fat_file_is_directory` reads. -/
theorem fatFileIsDirectory_entry {s : State} {a : Nat} {e : TreeEntry} (he : s.treeEntry a = some e) :
    fatFileIsDirectory (some e.file) s = .ok e.isDir s := by
  obtain ⟨node, f, -, hf, rfl⟩ := treeEntry_eq_some he
  exact fatFileIsDirectory_run hf

/-- What `fat_fuse_mkdir` and `fat_fuse_mknod` have in common; they differ in the kind of file and in
the values of `errno` after which they give up. -/
def createFile (env : Env) (isDir : Bool) (GivesUp : Int → Prop) [DecidablePred GivesUp]
    (path : CString) : M Int := do
  setErrno 0
  let parentNode ← fatTreeNodeSearch (dirname path)
  match parentNode with
  | none => do
      setErrno enoent
      returnErrno
  | some _ => do
      let parent ← fatTreeGetFile parentNode
      let parentIsDir ← fatFileIsDirectory parent
      if !parentIsDir then do
        setErrno enotdir
        returnErrno
      else do
        let newFile ← fatFileInit env isDir path
        let errno ← getErrno
        if GivesUp errno then returnErrno
        else do
          fatTreeInsert parentNode newFile
          fatFileDentryAddChild parent newFile
          returnErrno

/-- `fat_fuse_mkdir` is the creation of a directory, which gives up on any result but 0. -/
theorem fatFuseMkdir_eq (env : Env) (path : CString) :
    fatFuseMkdir env path = createFile env true (· ≠ 0) path := rfl

/-- `fat_fuse_mknod` is the creation of a file, which gives up on a negative result. -/
theorem fatFuseMknod_eq (env : Env) (path : CString) :
    fatFuseMknod env path = createFile env false (· < 0) path := rfl

section Creation

variable {s t u : State} {q c : Nat} {d : TreeEntry} {path : CString} {env : Env} {r : Int}

/-- A file that was inserted and may be hidden. -/
theorem Enlarges.hidden (h : Enlarges s t) (hout : ∀ a e, s.treeEntry a = some e → e.file ≠ c)
    {parent : Ptr} (hrun : fatFileDentryAddChild parent (some c) t = .ok ⟨⟩ u) : Enlarges s u := by
  obtain ⟨hwf, hother, hself⟩ := fatFileDentryAddChild_treeEntry h.wf hrun
  -- an entry of `u` is one of `t`, except for its flag
  have hback (a : Nat) (e : TreeEntry) (he : u.treeEntry a = some e) :
      ∃ e', t.treeEntry a = some e' ∧ e.path = e'.path ∧ e.opened = e'.opened ∧ e.parent = e'.parent := by
    cases hmid : t.treeEntry a with
    | none =>
        rw [hother a (by simp [hmid]), hmid] at he
        cases he
    | some e' =>
        by_cases hfile : e'.file = c
        · obtain ⟨b, hb⟩ := hself a e' hmid hfile
          rw [hb] at he
          cases he
          exact ⟨e', rfl, rfl, rfl, rfl⟩
        · rw [hother a (by simpa [hmid] using hfile), hmid] at he
          cases he
          exact ⟨_, rfl, rfl, rfl, rfl⟩
  have hforth (a : Nat) (e : TreeEntry) (he : t.treeEntry a = some e) :
      ∃ e', u.treeEntry a = some e' ∧ e'.path = e.path := by
    by_cases hfile : e.file = c
    · obtain ⟨b, hb⟩ := hself a e he hfile
      exact ⟨_, hb, rfl⟩
    · exact ⟨e, (hother a (by simpa [he] using hfile)).trans he, rfl⟩
  refine ⟨hwf, fun a e he => ?_, fun a e he hnone => ?_, fun a e he hnone => ?_⟩
  · have hmid := h.entries.kept a e he
    rw [hother a (by simpa [hmid] using hout a e he), hmid]
  · obtain ⟨e', he', -, hopened, -⟩ := hback a e he
    rw [hopened]
    exact h.entries.opened a e' he' hnone
  · obtain ⟨e', he', hpath, -, hparent⟩ := hback a e he
    obtain ⟨q, d, hq, hd, hbeneath⟩ := h.entries.beneath a e' he' hnone
    obtain ⟨d', hd', hdpath⟩ := hforth q d hd
    exact ⟨q, d', hparent.trans hq, hd', by rwa [hpath, hdpath]⟩

/-- How a creation returns: it finds no directory to create in, or it gives up after
`fat_file_init`, or it inserts the new file and adds its entry to the directory. -/
inductive CreateRun (env : Env) (isDir : Bool) (GivesUp : Int → Prop) (path : CString) (s : State)
    (r : Int) (u : State) : Prop
  | refused (e : Int) (error : e = enoent ∨ e = enotdir) (state : u = { s with errno := e })
      (result : r = -e)
  | givenUp (newFile : Ptr) (init : fatFileInit env isDir path { s with errno := 0 } = .ok newFile u)
      (gives : GivesUp u.errno) (result : r = -u.errno)
  | created (q c : Nat) (d : TreeEntry) (t v : State) (parent : s.treeEntry q = some d)
      (path_eq : d.path = dirname path) (directory : d.isDir = true)
      (init : fatFileInit env isDir path { s with errno := 0 } = .ok (some c) t)
      (goesOn : ¬ GivesUp t.errno) (insert : fatTreeInsert (some q) (some c) t = .ok ⟨⟩ v)
      (add : fatFileDentryAddChild (some d.file) (some c) v = .ok ⟨⟩ u) (result : r = -u.errno)

/-- What a creation that answers has done, step by step. -/
theorem createFile_run {isDir : Bool} {GivesUp : Int → Prop} [DecidablePred GivesUp] (h : s.TreeWf)
    (hrun : createFile env isDir GivesUp path s = .ok r u) :
    CreateRun env isDir GivesUp path s r u := by
  have hk₀ : KeepsEntries s { s with errno := 0 } := keepsEntries_of_eq rfl rfl rfl
  obtain ⟨p, tr, hok⟩ := hk₀.treeWf h
  unfold createFile at hrun
  obtain ⟨⟨⟩, s₀, hzero, hrun⟩ := bind_eq_ok.mp hrun
  cases hzero
  obtain ⟨node, s₁, hsearch, hrun⟩ := bind_eq_ok.mp hrun
  obtain ⟨rfl, hfound, -⟩ := fatTreeNodeSearch_ok hok hsearch
  cases node with
  | none =>
      obtain ⟨⟨⟩, s₂, hset, hrun⟩ := bind_eq_ok.mp hrun
      cases hset
      cases hrun
      exact .refused enoent (.inl rfl) rfl rfl
  | some q =>
      obtain ⟨d, hd, hpath⟩ := (hfound q).mp rfl
      simp only [bind_ok (fatTreeGetFile_run hd), bind_ok (fatFileIsDirectory_entry hd), ite_run] at hrun
      split at hrun
      · obtain ⟨⟨⟩, s₃, hset, hrun⟩ := bind_eq_ok.mp hrun
        cases hset
        cases hrun
        exact .refused enotdir (.inr rfl) rfl rfl
      · next hdir =>
          obtain ⟨newFile, t, hinit, hrun⟩ := bind_eq_ok.mp hrun
          obtain ⟨errno, s₄, herrno, hrun⟩ := bind_eq_ok.mp hrun
          cases herrno
          rw [ite_run] at hrun
          split at hrun
          · next hgives =>
              cases hrun
              exact .givenUp newFile hinit hgives rfl
          · next hgoes =>
              obtain ⟨⟨⟩, v, hins, hrun⟩ := bind_eq_ok.mp hrun
              obtain ⟨⟨⟩, v', hadd, hrun⟩ := bind_eq_ok.mp hrun
              cases hrun
              cases newFile with
              | none =>
                  -- without a file, the null pointer is read
                  obtain ⟨y, -, hadd⟩ := nonNull_bind_eq_ok hadd
                  obtain ⟨x, -, hadd⟩ := readFile_bind_eq_ok hadd
                  obtain ⟨c, hc, -⟩ := nonNull_bind_eq_ok hadd
                  cases hc
              | some c =>
                  exact .created q c d t v hd hpath (by simpa using hdir) hinit hgoes hins hadd rfl

/-- A creation adds entries only. -/
theorem createFile_enlarges {isDir : Bool} {GivesUp : Int → Prop} [DecidablePred GivesUp]
    (h : s.TreeWf) (hrun : createFile env isDir GivesUp path s = .ok r u) : Enlarges s u := by
  have hk₀ : KeepsEntries s { s with errno := 0 } := keepsEntries_of_eq rfl rfl rfl
  cases createFile_run h hrun with
  | refused e _ state _ =>
      subst state
      have hk : KeepsEntries s { s with errno := e } := keepsEntries_of_eq rfl rfl rfl
      exact hk.enlarges h
  | givenUp newFile init _ _ => exact (hk₀.trans (fatFileInit_ok init).1).enlarges h
  | created q c d t v hd hpath _ init _ insert add _ =>
      obtain ⟨hk, hnew⟩ := fatFileInit_ok init
      have hw := (hnew c rfl).waiting hk (hk₀.treeWf h)
      replace hk := hk₀.trans hk
      rw [← hk.treeEntry_eq h] at hd
      obtain ⟨hlarger, -⟩ := fatTreeInsert_enlarges (hk.treeWf h) hw hd (.inl hpath) insert
      exact (hk.enlarges h).trans (hlarger.hidden hw.outside add)

end Creation

/-! ## Listing -/

section Listing

variable {s t u : State} {d : TreeEntry} {env : Env}

/-- `h_tree_size` only reads a node. -/
theorem within_hTreeSize {R : HMem Nat (Heap FatFile) → HMem Nat (Heap FatFile) → Prop} [Std.Refl R]
    [IsTrans _ R] (p : Ptr) : Within R (hTreeSize p : HM Nat (Heap FatFile) Int) := by
  cases p with
  | none => exact within_pure _
  | some r => exact (within_deref _ r).bind fun _ => within_pure _

/-- Flattening reads the siblings, and may write behind the array. -/
theorem within_flattenSiblings {R : HMem Nat (Heap FatFile) → HMem Nat (Heap FatFile) → Prop}
    [Std.Refl R] [IsTrans _ R] (fuel slots : Nat) (p : Ptr) :
    Within R (flattenSiblings fuel slots p : HM Nat (Heap FatFile) (List Nat)) := by
  induction fuel generalizing slots p with
  | zero => exact within_throw _
  | succ fuel ih =>
      cases p with
      | none => exact within_ite (fun _ => within_throw _) fun _ => within_pure _
      | some r =>
          refine within_ite (fun _ => within_throw _) fun _ => (within_deref _ r).bind fun _ => ?_
          exact (ih _ _).bind fun _ => within_pure _

/-- `fat_tree_flatten_h_children` is a lookup. -/
theorem within_fatTreeFlattenHChildren (p : Ptr) : Within LookedUp (fatTreeFlattenHChildren p) := by
  cases p with
  | none => exact within_pure _
  | some r =>
      refine (within_liftTree (within_hTreeSize _) lookedUp_of_tree).bind fun size =>
        within_ite (fun _ => within_pure _) fun _ => (within_fatTreeGetFile _).bind fun file => ?_
      refine (within_nonNull file).bind fun c => (within_readFile c).bind fun x => ?_
      refine (within_liftTree ?_ lookedUp_of_tree).bind fun _ => within_pure _
      exact (within_deref _ r).bind fun _ => within_get_bind fun m => within_flattenSiblings _ _ _ m

/-- Filling the names of a directory reads its files. -/
theorem within_fillNames {R : State → State → Prop} [Std.Refl R] [IsTrans _ R]
    (filler : List CString → CString → Bool) (children : List Nat) (names : List CString) :
    Within R (fillNames filler children names) := by
  induction children generalizing names with
  | nil => exact within_pure _
  | cons child rest ih =>
      refine (within_readFile child).bind fun x => within_ite (fun _ => ih _) fun _ => ?_
      exact within_ite (fun _ => within_pure _) fun _ => ih _

/-- The children that are read are inserted below their directory. -/
theorem fatFuseReadChildren_enlarges {fh : Ptr} (h : s.TreeWf)
    (hrun : fatFuseReadChildren env fh s = .ok ⟨⟩ u) : Enlarges s u := by
  obtain ⟨file, s₁, hget, hrun⟩ := bind_eq_ok.mp hrun
  obtain ⟨dir, rfl, hbody⟩ := nonNull_bind_eq_ok hrun
  obtain ⟨children, s₂, hread, hins⟩ := bind_eq_ok.mp hbody
  cases fh with
  | none =>
      rw [fatTreeGetFile_none] at hget
      cases hget
  | some q =>
      obtain ⟨p, t, hok⟩ := h
      obtain ⟨rfl, d, hd, rfl⟩ := fatTreeGetFile_ok hok hget
      obtain ⟨node, f, -, hf, rfl⟩ := treeEntry_eq_some hd
      have hmade := fatFileReadChildren_ok ⟨f, hf, rfl⟩ hread
      refine (hmade.keeps.enlarges ⟨p, t, hok⟩).trans
        (insertChildren_enlarges (hmade.keeps.treeWf ⟨p, t, hok⟩) hmade.nodup (fun c hc => ?_)
          ((congrFun (hmade.keeps.treeEntry hok) q).trans hd) hins)
      obtain ⟨name, hnew⟩ := hmade.new c hc
      exact ⟨name, hnew.waiting hmade.keeps ⟨p, t, hok⟩⟩

/-- The log is made like any file. -/
theorem makeLog_enlarges {r : Option Ptr} (h : s.TreeWf) (hrun : makeLog env s = .ok r u) :
    Enlarges s u := by
  obtain ⟨log, s₁, hsearch, hrun⟩ := bind_eq_ok.mp hrun
  have hk := (within_fatTreeSearch (R := KeepsEntries) _).ok hsearch
  cases log with
  | some _ =>
      cases hrun
      exact hk.enlarges h
  | none =>
      obtain ⟨ret, s₂, hmade, hrun⟩ := bind_eq_ok.mp hrun
      rw [fatFuseMknod_eq] at hmade
      have hlarger := (hk.enlarges h).trans (createFile_enlarges (hk.treeWf h) hmade)
      rw [ite_run] at hrun
      split at hrun
      · cases hrun
        exact hlarger
      · obtain ⟨log, s₃, hsearch', hrun⟩ := bind_eq_ok.mp hrun
        cases hrun
        exact hlarger.trans (((within_fatTreeSearch (R := KeepsEntries) _).ok hsearch').enlarges hlarger.wf)

/-- The log is found, found on the volume, or made: the tree is enlarged at most. -/
theorem fatFuseLogInit_enlarges (h : s.TreeWf) (hrun : fatFuseLogInit env s = .ok ⟨⟩ u) :
    Enlarges s u := by
  rw [fatFuseLogInit_split] at hrun
  obtain ⟨log, s₁, hmade, hrun⟩ := bind_eq_ok.mp hrun
  have hlarger := makeLog_enlarges h hmade
  cases log with
  | none =>
      cases hrun
      exact hlarger
  | some fsLog =>
      exact hlarger.trans (((within_fatFuseLogActivity (R := KeepsEntries) _ _ _).ok hrun).enlarges
        hlarger.wf)

/-- A listing adds entries only. -/
theorem listNames_enlarges {fh : Ptr} {filler : List CString → CString → Bool}
    {r : Int × List CString × Bool} (h : s.TreeWf) (hrun : listNames env fh filler s = .ok r u) :
    Enlarges s u := by
  obtain ⟨⟨⟩, s₁, hzero, hrun⟩ := bind_eq_ok.mp hrun
  obtain ⟨dir, s₂, hdir, hrun⟩ := bind_eq_ok.mp hrun
  -- Each call before the listing keeps the entries of the tree.
  have hk₂ := ((setErrno_within (R := KeepsEntries) 0).ok hzero).trans
    ((lookup_within (within_fatTreeGetFile fh)).ok hdir)
  refine (hk₂.enlarges h).trans ?_
  replace h := hk₂.treeWf h
  rw [ite_run] at hrun
  split at hrun
  · cases hrun
    exact (Std.Refl.refl _ : KeepsEntries _ _).enlarges h
  rw [ite_run] at hrun
  split at hrun
  · cases hrun
    exact (Std.Refl.refl _ : KeepsEntries _ _).enlarges h
  obtain ⟨isDir, s₃, hisDir, hrun⟩ := bind_eq_ok.mp hrun
  have hk₃ := (within_fatFileIsDirectory (R := KeepsEntries) _).ok hisDir
  refine (hk₃.enlarges h).trans ?_
  replace h := hk₃.treeWf h
  rw [ite_run] at hrun
  split at hrun
  · obtain ⟨⟨⟩, s₄, hset, hrun⟩ := bind_eq_ok.mp hrun
    cases hrun
    exact ((setErrno_within (R := KeepsEntries) _).ok hset).enlarges h
  obtain ⟨c, -, hrun⟩ := nonNull_bind_eq_ok hrun
  obtain ⟨dirFile, -, hrun⟩ := readFile_bind_eq_ok hrun
  obtain ⟨⟨⟩, s₅, hchildren, hrun⟩ := bind_eq_ok.mp hrun
  -- Only a directory that was not read yet gets new entries.
  have hlarger : Enlarges s₃ s₅ := by
    by_cases hread : dirFile.childrenRead = false
    · rw [when_pos hread] at hchildren
      exact fatFuseReadChildren_enlarges h hchildren
    · rw [when_neg hread] at hchildren
      cases hchildren
      exact (Std.Refl.refl _ : KeepsEntries _ _).enlarges h
  refine hlarger.trans ?_
  replace h := hlarger.wf
  obtain ⟨errno, s₆, herrno, hrun⟩ := bind_eq_ok.mp hrun
  cases herrno
  rw [ite_run] at hrun
  split at hrun
  · cases hrun
    exact (Std.Refl.refl _ : KeepsEntries _ _).enlarges h
  obtain ⟨elems, s₇, hflat, hrun⟩ := bind_eq_ok.mp hrun
  have hk₇ := (lookup_within (R := KeepsEntries) (within_fatTreeFlattenHChildren fh)).ok hflat
  cases elems with
  | none => cases hrun
  | some children =>
      obtain ⟨⟨names, complete⟩, s₈, hfill, hrun⟩ := bind_eq_ok.mp hrun
      have hk₈ := hk₇.trans ((within_fillNames _ _ _).ok hfill)
      -- Both replies, the full list and the one the filler cut short, leave the state alone.
      simp only [ite_run] at hrun
      split at hrun <;>
      · cases hrun
        exact hk₈.enlarges h

/-- `readdir` enlarges the tree by the children that it reads. -/
theorem fatFuseReaddir_enlarges {fh : Ptr} {filler : List CString → CString → Bool}
    {r : Int × List CString} (h : s.TreeWf) (hrun : fatFuseReaddir env fh filler s = .ok r u) :
    Enlarges s u := by
  rw [fatFuseReaddir_split] at hrun
  obtain ⟨⟨ret, names, logs⟩, s₁, hlist, hrun⟩ := bind_eq_ok.mp hrun
  have hlarger := listNames_enlarges h hlist
  obtain ⟨⟨⟩, s₂, hlog, hrun⟩ := bind_eq_ok.mp hrun
  cases hrun
  by_cases hlogs : logs = true
  · rw [when_pos hlogs] at hlog
    exact hlarger.trans (fatFuseLogInit_enlarges hlarger.wf hlog)
  · rw [when_neg hlogs] at hlog
    cases hlog
    exact hlarger

end Listing

/-! ## Opening and closing -/

/-- `fat_file_inc_num_times_opened`, as a function of the counter. -/
def incCount (n : Nat) : Nat := (n + 1) % 2 ^ 31

/-- `fat_file_dec_num_times_opened`, as a function of the counter. -/
def decCount (n : Nat) : Nat := (n + 2 ^ 31 - 1) % 2 ^ 31

/-- What `fat_fuse_open` and `fat_fuse_opendir` have in common; they differ in the kind of file they
refuse. -/
def openNode (refuses : Bool → Bool) (error : Int) (path : CString) : M (Int × Ptr) := do
  let fileNode ← fatTreeNodeSearch path
  match fileNode with
  | none => do
      let ret ← returnErrno
      pure (ret, none)
  | some _ => do
      let file ← fatTreeGetFile fileNode
      let isDir ← fatFileIsDirectory file
      if refuses isDir then pure (-error, none)
      else do
        fatTreeIncNumTimesOpened fileNode
        pure (0, fileNode)

section Opening

variable {s t u : State} {a : Nat} {e : TreeEntry} {path : CString} {env : Env}

/-- Opening counts one handle more on the node and on every node above it. -/
theorem fatTreeIncNumTimesOpened_ok {r : Ptr} (h : s.TreeWf)
    (hrun : fatTreeIncNumTimesOpened r s = .ok ⟨⟩ u) :
    u.TreeWf ∧ Counted incCount r s.treeEntry u.treeEntry := by
  obtain ⟨p, t, h⟩ := h
  have hmod (file : Nat) (files files' : Heap FatFile) (hf : incNumTimesOpened file files = .ok files') :
      files' = files.modify file (recount incCount) := by
    unfold incNumTimesOpened at hf
    split at hf
    · cases hf
      rfl
    · cases hf
  obtain ⟨-, -, hok, hcounted⟩ := iterate_ok hmod h hrun
  exact ⟨⟨p, t, hok⟩, hcounted⟩

/-- Closing counts one handle less on the node and on every node above it. -/
theorem fatTreeDecNumTimesOpened_ok {r : Ptr} (h : s.TreeWf)
    (hrun : fatTreeDecNumTimesOpened r s = .ok ⟨⟩ u) :
    u.TreeWf ∧ Counted decCount r s.treeEntry u.treeEntry := by
  obtain ⟨p, t, h⟩ := h
  have hmod (file : Nat) (files files' : Heap FatFile) (hf : decNumTimesOpened file files = .ok files') :
      files' = files.modify file (recount decCount) := by
    unfold decNumTimesOpened at hf
    split at hf
    · cases hf
      rfl
    · cases hf
  obtain ⟨-, -, hok, hcounted⟩ := iterate_ok hmod h hrun
  exact ⟨⟨p, t, hok⟩, hcounted⟩

/-- There is a directory (or, if `dir` is false, another file) with this path at `a`. -/
def Finds (E : Nat → Option TreeEntry) (dir : Bool) (path : CString) (a : Nat) : Prop :=
  ∃ e, E a = some e ∧ e.path = path ∧ e.isDir = dir

/-- An opening changes nothing, or it counts a handle. -/
theorem openNode_ok {g : Bool → Bool} {dir : Bool} (hrefuses : ∀ b, g b = true ↔ b ≠ dir)
    {error ret : Int} {fh : Ptr} (h : s.TreeWf)
    (hrun : openNode g error path s = .ok (ret, fh) u) : u.TreeWf ∧
      ((fh = none ∧ u.treeEntry = s.treeEntry ∧ ∀ a, ¬ Finds s.treeEntry dir path a) ∨
        ∃ a, fh = some a ∧ Finds s.treeEntry dir path a ∧
          Counted incCount (some a) s.treeEntry u.treeEntry) := by
  obtain ⟨p, t, hok⟩ := h
  obtain ⟨node, s₁, hsearch, hrun⟩ := bind_eq_ok.mp hrun
  obtain ⟨rfl, hfound, hnone⟩ := fatTreeNodeSearch_ok hok hsearch
  -- A path without a node opens nothing.
  cases node with
  | none =>
      cases hrun
      refine ⟨⟨p, t, hok⟩, .inl ⟨rfl, rfl, ?_⟩⟩
      rintro a ⟨e, he, hpath, -⟩
      exact hnone.mp rfl ⟨a, e, he, hpath⟩
  | some q =>
      obtain ⟨d, hd, hpath⟩ := (hfound q).mp rfl
      simp only [bind_ok (fatTreeGetFile_run hd), bind_ok (fatFileIsDirectory_entry hd), ite_run] at hrun
      split at hrun
      -- The node is of the other kind, and the call is refused.
      · next hrefused =>
          cases hrun
          refine ⟨⟨p, t, hok⟩, .inl ⟨rfl, rfl, ?_⟩⟩
          rintro a ⟨e, he, hpath', hdir⟩
          obtain rfl := hok.path_inj ⟨d, hd, hpath⟩ ⟨e, he, hpath'⟩
          rw [hd] at he
          cases he
          exact (hrefuses _).mp hrefused hdir
      -- The handle counts on the node and on each node above it.
      · next htaken =>
          obtain ⟨⟨⟩, s₂, hinc, hrun⟩ := bind_eq_ok.mp hrun
          cases hrun
          obtain ⟨hwf, hcounted⟩ := fatTreeIncNumTimesOpened_ok ⟨p, t, hok⟩ hinc
          have hdir : d.isDir = dir := by
            by_contra hne
            exact htaken ((hrefuses _).mpr hne)
          exact ⟨hwf, .inr ⟨q, rfl, ⟨d, hd, hpath, hdir⟩, hcounted⟩⟩

/-- A search after `errno` was cleared. -/
theorem search_bind_eq_ok {γ : Type} {f : Ptr → Int → M γ} {r : γ} (h : s.TreeWf)
    (hrun : (do
      setErrno 0
      let fileNode ← fatTreeNodeSearch path
      let errno ← getErrno
      f fileNode errno) s = .ok r u) :
    ∃ node, f node 0 { s with errno := 0 } = .ok r u ∧
      (∀ a, node = some a ↔ PathAt s.treeEntry a path) ∧ (node = none ↔ ¬ HasPath s.treeEntry path) := by
  rw [bind_ok (setErrno_run 0 s)] at hrun
  have hk : KeepsEntries s { s with errno := 0 } := keepsEntries_of_eq rfl rfl rfl
  obtain ⟨p, t, hok⟩ := hk.treeWf h
  obtain ⟨node, s₁, hsearch, hrun⟩ := bind_eq_ok.mp hrun
  obtain ⟨rfl, hfound, hnone⟩ := fatTreeNodeSearch_ok hok hsearch
  exact ⟨node, hrun, hfound, hnone⟩

/-- A truncation counts a handle that nobody holds, if it finds a file that is no directory. -/
theorem fatFuseTruncate_ok {offset : Nat} {r : Int} (h : s.TreeWf)
    (hrun : fatFuseTruncate env path offset s = .ok r u) : u.TreeWf ∧
      ((u.treeEntry = s.treeEntry ∧ ∀ a, ¬ Finds s.treeEntry false path a) ∨
        ∃ a, Finds s.treeEntry false path a ∧
          Counted incCount (some a) s.treeEntry u.treeEntry) := by
  obtain ⟨node, hbody, hfound, hnone⟩ := search_bind_eq_ok h hrun
  -- `errno` is set to zero first, which no entry depends on.
  have hk₀ : KeepsEntries s { s with errno := 0 } := keepsEntries_of_eq rfl rfl rfl
  have hentry := hk₀.treeEntry_eq h
  replace h := hk₀.treeWf h
  rw [← hentry] at hfound hnone ⊢
  generalize ({ s with errno := 0 } : State) = s' at *
  cases node with
  | none =>
      rw [if_pos (.inl rfl)] at hbody
      obtain ⟨⟨⟩, s₂, hset, hbody⟩ := bind_eq_ok.mp hbody
      cases hbody
      have hk := (setErrno_within (R := KeepsEntries) _).ok hset
      refine ⟨hk.treeWf h, .inl ⟨hk.treeEntry_eq h, ?_⟩⟩
      rintro a ⟨e, he, hpath, -⟩
      exact hnone.mp rfl ⟨a, e, he, hpath⟩
  | some a =>
      obtain ⟨e, he, hpath⟩ := (hfound a).mp rfl
      rw [if_neg (by simp)] at hbody
      simp only [bind_ok (fatTreeGetFile_run he), bind_ok (fatFileIsDirectory_entry he), ite_run] at hbody
      -- A directory is refused before anything is counted.
      split at hbody
      · next hdir =>
          cases hbody
          refine ⟨h, .inl ⟨rfl, ?_⟩⟩
          rintro b ⟨e', he', hpath', hfile⟩
          obtain ⟨p, t, hok⟩ := h
          obtain rfl := hok.path_inj ⟨e, he, hpath⟩ ⟨e', he', hpath'⟩
          rw [he] at he'
          cases he'
          rw [hfile] at hdir
          cases hdir
      · next hdir =>
          -- The count goes up by one here and is never taken back.
          obtain ⟨parent, s₂, hparent, hbody⟩ := bind_eq_ok.mp hbody
          have hk₂ := (lookup_within (R := KeepsEntries) (within_fatTreeGetParent _)).ok hparent
          obtain ⟨⟨⟩, s₃, hinc, hbody⟩ := bind_eq_ok.mp hbody
          obtain ⟨hwf, hcounted⟩ := fatTreeIncNumTimesOpened_ok (hk₂.treeWf h) hinc
          obtain ⟨c, -, hbody⟩ := nonNull_bind_eq_ok hbody
          obtain ⟨⟨⟩, s₄, htruncate, hbody⟩ := bind_eq_ok.mp hbody
          cases hbody
          have hk₄ := (within_fatFileTruncate (R := KeepsEntries) _ _ _ _).ok htruncate
          refine ⟨hk₄.treeWf hwf, .inr ⟨a, ⟨e, he, hpath, by simpa using hdir⟩, ?_⟩⟩
          rw [hk₄.treeEntry_eq hwf, ← hk₂.treeEntry_eq h]
          exact hcounted

end Opening

/-! ## Removal -/

/-- The entry is below one of a directory. -/
def InDirectory (E : Nat → Option TreeEntry) (e : TreeEntry) : Prop :=
  ∃ q d, e.parent = some q ∧ E q = some d ∧ d.isDir = true

/-- The operation goes on to remove the node `a`: it is the node of the file or of the directory, and
a directory lists nothing. -/
def Drops (env : Env) (s : State) : Op → Nat → Prop
  | .unlink path, a => ∃ e, s.treeEntry a = some e ∧ e.path = path ∧ e.isDir = false ∧
      InDirectory s.treeEntry e
  | .rmdir path, a => ∃ e, s.treeEntry a = some e ∧ e.path = path ∧ e.isDir = true ∧
      InDirectory s.treeEntry e ∧
      ∃ t, fatFileReadChildren env e.file { s with errno := 0 } = .ok [] t
  | _, _ => False

section Removal

variable {s t u : State} {a : Nat} {e : TreeEntry} {path : CString} {env : Env} {r : Int}

/-- Removing the file of a node drops its entry. -/
theorem removeFile_ok {parent : Ptr} {file : Nat} (h : s.TreeWf) (ha : PathAt s.treeEntry a path)
    (hrun : removeFile path file parent s = .ok r u) :
    u.TreeWf ∧ u.treeEntry = Function.update s.treeEntry a none := by
  obtain ⟨f, -, hrun⟩ := readFile_bind_eq_ok hrun
  obtain ⟨⟨⟩, s₁, hfree, hrun⟩ := bind_eq_ok.mp hrun
  obtain ⟨⟨⟩, s₂, hsize, hrun⟩ := bind_eq_ok.mp hrun
  obtain ⟨⟨⟩, s₃, hchild, hrun⟩ := bind_eq_ok.mp hrun
  obtain ⟨⟨⟩, s₄, hdelete, hrun⟩ := bind_eq_ok.mp hrun
  cases hrun
  have hk : KeepsEntries s s₃ := ((within_freeChain (R := KeepsEntries) _).ok hfree).trans
    (((within_updateDentry (R := KeepsEntries) _ fun _ => DirEntry.attribs_setFileSize _ _).ok
      hsize).trans ((within_fatFileDentryRemoveChild _ _).ok hchild))
  have hentry := hk.treeEntry_eq h
  obtain ⟨p, t, hok⟩ := hk.treeWf h
  rw [← hentry] at ha ⊢
  obtain ⟨hno, -⟩ | ⟨b, e, hb, hpath, hwf, htable, -⟩ := fatTreeDelete_ok hok hdelete
  · exact absurd ⟨a, ha⟩ hno
  · obtain rfl := hok.path_inj ha ⟨e, hb, hpath⟩
    exact ⟨hwf, htable⟩

/-- The parent of a node that is looked at as a directory. -/
theorem parentIsDirectory_bind_eq_ok {f : Ptr → Bool → M Int} (h : s.TreeWf)
    (he : s.treeEntry a = some e)
    (hrun : (do
      let parent ← fatTreeGetParent (some a)
      let parentIsDir ← fatFileIsDirectory parent
      f parent parentIsDir) s = .ok r u) :
    ∃ parent parentIsDir, f parent parentIsDir s = .ok r u ∧
      (parentIsDir = true ↔ InDirectory s.treeEntry e) := by
  obtain ⟨parent, s₁, hparent, hbody⟩ := bind_eq_ok.mp hrun
  obtain ⟨isDir, s₂, hdir, hf⟩ := bind_eq_ok.mp hbody
  rw [fatTreeGetParent_run he] at hparent
  cases hq : e.parent with
  | none =>
      rw [hq, fatTreeGetFile_none] at hparent
      cases hparent
      cases hdir
  | some q =>
      rw [hq] at hparent
      obtain ⟨p, t, hok⟩ := h
      cases parent with
      | none => cases hdir
      | some c =>
          obtain ⟨rfl, d, hd, rfl⟩ := fatTreeGetFile_ok hok hparent
          rw [fatFileIsDirectory_entry hd] at hdir
          cases hdir
          refine ⟨some d.file, d.isDir, hf, fun hisDir => ⟨q, d, hq, hd, hisDir⟩, ?_⟩
          rintro ⟨q', d', hq', hd', hisDir⟩
          rw [hq] at hq'
          cases hq'
          rw [hd] at hd'
          cases hd'
          exact hisDir

/-- A removal drops one entry, or it changes nothing in the tree. -/
def Removes (env : Env) (op : Op) (s u : State) : Prop :=
  u.TreeWf ∧ ((u.treeEntry = s.treeEntry ∧ ∀ a, ¬ Drops env s op a) ∨
    ∃ a, Drops env s op a ∧ u.treeEntry = Function.update s.treeEntry a none)

/-- An operation that drops no node and keeps the entries removes nothing. -/
theorem removes_nothing {op : Op} (h : s.TreeWf) (hk : KeepsEntries s u) (hno : ∀ a, ¬ Drops env s op a) :
    Removes env op s u :=
  ⟨hk.treeWf h, .inl ⟨hk.treeEntry_eq h, hno⟩⟩

/-- A file is dropped if it has the path, is no directory, and its parent is one. -/
theorem fatFuseUnlink_ok (h : s.TreeWf) (hrun : fatFuseUnlink path s = .ok r u) :
    Removes env (.unlink path) s u := by
  obtain ⟨node, hbody, hfound, hnone⟩ := search_bind_eq_ok h hrun
  have hk₀ : KeepsEntries s { s with errno := 0 } := keepsEntries_of_eq rfl rfl rfl
  cases node with
  | none =>
      rw [if_pos (.inl rfl)] at hbody
      obtain ⟨⟨⟩, s₂, hset, hbody⟩ := bind_eq_ok.mp hbody
      cases hbody
      refine removes_nothing h (hk₀.trans ((setErrno_within _).ok hset)) ?_
      rintro a ⟨e, he, hpath, -⟩
      exact hnone.mp rfl ⟨a, e, he, hpath⟩
  | some a =>
      obtain ⟨e, he, hpath⟩ := (hfound a).mp rfl
      have he₀ : ({ s with errno := 0 } : State).treeEntry a = some e := he
      -- only this node has the path
      have honly {b : Nat} (hb : Drops env s (.unlink path) b) :
          e.isDir = false ∧ InDirectory s.treeEntry e := by
        obtain ⟨p, t, hok⟩ := h
        obtain ⟨e', he', hpath', hfile, hin⟩ := hb
        obtain rfl := hok.path_inj ⟨e, he, hpath⟩ ⟨e', he', hpath'⟩
        rw [he] at he'
        cases he'
        exact ⟨hfile, hin⟩
      rw [if_neg (by simp)] at hbody
      simp only [bind_ok (fatTreeGetFile_run he₀), bind_ok (fatFileIsDirectory_entry he₀), ite_run]
        at hbody
      split at hbody
      · next hdir =>
          cases hbody
          refine removes_nothing h hk₀ fun b hb => ?_
          rw [(honly hb).1] at hdir
          cases hdir
      · next hdir =>
          obtain ⟨parent, parentIsDir, hbody, hin⟩ :=
            parentIsDirectory_bind_eq_ok (hk₀.treeWf h) he₀ hbody
          rw [ite_run] at hbody
          split at hbody
          · next hno =>
              obtain ⟨⟨⟩, s₄, hset, hbody⟩ := bind_eq_ok.mp hbody
              cases hbody
              refine removes_nothing h (hk₀.trans ((setErrno_within _).ok hset)) fun b hb => ?_
              rw [hin.mpr (honly hb).2] at hno
              cases hno
          · next hyes =>
              obtain ⟨c, -, hbody⟩ := nonNull_bind_eq_ok hbody
              obtain ⟨hwf, htable⟩ := removeFile_ok (hk₀.treeWf h) ⟨e, he₀, hpath⟩ hbody
              exact ⟨hwf, .inr ⟨a, ⟨e, he, hpath, by simpa using hdir, hin.mp (by simpa using hyes)⟩,
                htable⟩⟩

/-- How `fat_fuse_rmdir` returns: it finds no directory to remove, or it lists the directory and then
gives up or removes it. -/
inductive RmdirRun (env : Env) (path : CString) (s : State) (r : Int) (u : State) : Prop
  | refused (result : r = -enoent ∨ r = -enotdir) (keeps : KeepsEntries s u)
      (noDrop : ∀ a, ¬ Drops env s (.rmdir path) a)
  | listed (a : Nat) (e : TreeEntry) (parent : Ptr) (children : List Nat) (t : State)
      (entry : s.treeEntry a = some e) (path_eq : e.path = path) (isDir : e.isDir = true)
      (inDirectory : InDirectory s.treeEntry e)
      (read : fatFileReadChildren env e.file { s with errno := 0 } = .ok children t)
      (outcome : (children ≠ [] ∧ r = -enotempty ∧ u = { t with errno := enotempty }) ∨
        (children = [] ∧ removeFile path e.file parent t = .ok r u))

/-- What `rmdir` has done when it answers, step by step. -/
theorem fatFuseRmdir_run (h : s.TreeWf) (hrun : fatFuseRmdir env path s = .ok r u) :
    RmdirRun env path s r u := by
  obtain ⟨node, hbody, hfound, hnone⟩ := search_bind_eq_ok h hrun
  have hk₀ : KeepsEntries s { s with errno := 0 } := keepsEntries_of_eq rfl rfl rfl
  cases node with
  | none =>
      rw [if_pos (.inl rfl)] at hbody
      obtain ⟨⟨⟩, s₂, hset, hbody⟩ := bind_eq_ok.mp hbody
      cases hset
      cases hbody
      refine .refused (.inl rfl) (keepsEntries_of_eq rfl rfl rfl) ?_
      rintro a ⟨e, he, hpath, -⟩
      exact hnone.mp rfl ⟨a, e, he, hpath⟩
  | some a =>
      obtain ⟨e, he, hpath⟩ := (hfound a).mp rfl
      have he₀ : ({ s with errno := 0 } : State).treeEntry a = some e := he
      -- only this node has the path
      have honly {b : Nat} (hb : Drops env s (.rmdir path) b) :
          e.isDir = true ∧ InDirectory s.treeEntry e := by
        obtain ⟨p, t, hok⟩ := h
        obtain ⟨e', he', hpath', hdir, hin, -⟩ := hb
        obtain rfl := hok.path_inj ⟨e, he, hpath⟩ ⟨e', he', hpath'⟩
        rw [he] at he'
        cases he'
        exact ⟨hdir, hin⟩
      rw [if_neg (by simp)] at hbody
      simp only [bind_ok (fatTreeGetFile_run he₀), bind_ok (fatFileIsDirectory_entry he₀), ite_run]
        at hbody
      split at hbody
      · next hdir =>
          cases hbody
          refine .refused (.inr rfl) hk₀ fun b hb => ?_
          rw [(honly hb).1] at hdir
          cases hdir
      · next hdir =>
          obtain ⟨parent, parentIsDir, hbody, hin⟩ :=
            parentIsDirectory_bind_eq_ok (hk₀.treeWf h) he₀ hbody
          rw [ite_run] at hbody
          split at hbody
          · next hno =>
              obtain ⟨⟨⟩, s₄, hset, hbody⟩ := bind_eq_ok.mp hbody
              cases hset
              cases hbody
              refine .refused (.inr rfl) (keepsEntries_of_eq rfl rfl rfl) fun b hb => ?_
              rw [hin.mpr (honly hb).2] at hno
              cases hno
          · next hyes =>
              obtain ⟨c, hc, hbody⟩ := nonNull_bind_eq_ok hbody
              cases hc
              obtain ⟨children, t, hread, hbody⟩ := bind_eq_ok.mp hbody
              refine .listed a e parent children t he hpath (by simpa using hdir)
                (hin.mp (by simpa using hyes)) hread ?_
              rw [ite_run] at hbody
              split at hbody
              · next hsome =>
                  obtain ⟨⟨⟩, s₅, hset, hbody⟩ := bind_eq_ok.mp hbody
                  cases hset
                  cases hbody
                  exact .inl ⟨List.ne_nil_of_length_pos hsome, rfl, rfl⟩
              · next hempty =>
                  refine .inr ⟨?_, hbody⟩
                  cases children with
                  | nil => rfl
                  | cons c cs => exact absurd (Nat.succ_pos _) hempty

/-- A directory is dropped if it has the path and lists nothing, and its parent is a directory. -/
theorem fatFuseRmdir_ok (h : s.TreeWf) (hrun : fatFuseRmdir env path s = .ok r u) :
    Removes env (.rmdir path) s u := by
  have hk₀ : KeepsEntries s { s with errno := 0 } := keepsEntries_of_eq rfl rfl rfl
  cases fatFuseRmdir_run h hrun with
  | refused _ keeps noDrop => exact removes_nothing h keeps noDrop
  | listed a e parent children t he hpath hdir hin hread houtcome =>
      have he₀ : ({ s with errno := 0 } : State).treeEntry a = some e := he
      obtain ⟨node, f, -, hf, rfl⟩ := treeEntry_eq_some he₀
      have hall := hk₀.trans (fatFileReadChildren_ok ⟨f, hf, rfl⟩ hread).keeps
      obtain ⟨hsome, -, rfl⟩ | ⟨rfl, hremove⟩ := houtcome
      · refine removes_nothing h (hall.trans (keepsEntries_of_eq rfl rfl rfl)) fun b hb => ?_
        obtain ⟨p, tr, hok⟩ := h
        obtain ⟨e', he', hpath', -, -, v, hlist⟩ := hb
        obtain rfl := hok.path_inj ⟨_, he, hpath⟩ ⟨e', he', hpath'⟩
        rw [he] at he'
        cases he'
        rw [hread] at hlist
        cases hlist
        exact hsome rfl
      · have hentry := hall.treeEntry_eq h
        obtain ⟨hwf, htable⟩ :=
          removeFile_ok (hall.treeWf h) (by rw [hentry]; exact ⟨_, he, hpath⟩) hremove
        rw [hentry] at htable
        exact ⟨hwf, .inr ⟨a, ⟨_, he, hpath, hdir, hin, t, hread⟩, htable⟩⟩

end Removal

/-! ## All operations -/

/-- What an operation that returned did to the file tree. -/
def Effect (env : Env) (s : State) (op : Op) (reply : Reply) (u : State) : Prop :=
  match op with
  | .open path => (reply.fh = none ∧ u.treeEntry = s.treeEntry ∧
      ∀ a, ¬ Finds s.treeEntry false path a) ∨
      ∃ a, reply.fh = some a ∧ Finds s.treeEntry false path a ∧
        Counted incCount (some a) s.treeEntry u.treeEntry
  | .opendir path => (reply.fh = none ∧ u.treeEntry = s.treeEntry ∧
      ∀ a, ¬ Finds s.treeEntry true path a) ∨
      ∃ a, reply.fh = some a ∧ Finds s.treeEntry true path a ∧
        Counted incCount (some a) s.treeEntry u.treeEntry
  | .release fh | .releasedir fh => Counted decCount fh s.treeEntry u.treeEntry
  | .truncate path _ => (u.treeEntry = s.treeEntry ∧ ∀ a, ¬ Finds s.treeEntry false path a) ∨
      ∃ a, Finds s.treeEntry false path a ∧ Counted incCount (some a) s.treeEntry u.treeEntry
  | .unlink _ | .rmdir _ => (u.treeEntry = s.treeEntry ∧ ∀ a, ¬ Drops env s op a) ∨
      ∃ a, Drops env s op a ∧ u.treeEntry = Function.update s.treeEntry a none
  | .readdir .. | .mkdir _ | .mknod _ => Enlarged s.treeEntry u.treeEntry
  | .getattr _ | .fgetattr _ | .read .. | .write .. | .utime .. => u.treeEntry = s.treeEntry

/-- Run an operation and pack what it gives back. -/
theorem reply_eq_ok {γ : Type} {m : M γ} {f : γ → Reply} {s u : State} {reply : Reply}
    (h : (do let x ← m; pure (f x) : M Reply) s = .ok reply u) :
    ∃ x, m s = .ok x u ∧ reply = f x := by
  obtain ⟨x, t, hx, hrest⟩ := bind_eq_ok.mp h
  cases hrest
  exact ⟨x, hx, rfl⟩

/-- The operations that keep all entries. -/
theorem keepsEntries_effect {γ : Type} {m : M γ} {f : γ → Reply} {s u : State} {reply : Reply}
    (h : s.TreeWf) (hm : Within KeepsEntries m)
    (hrun : (do let x ← m; pure (f x) : M Reply) s = .ok reply u) :
    u.TreeWf ∧ u.treeEntry = s.treeEntry := by
  obtain ⟨x, hx, -⟩ := reply_eq_ok hrun
  exact ⟨(hm.ok hx).treeWf h, (hm.ok hx).treeEntry_eq h⟩

/-- **The operations on the tree.** An operation that returns keeps the tree well formed and has its
effect. -/
theorem step_effect {env : Env} {s u : State} {op : Op} {reply : Reply} (h : s.TreeWf)
    (hrun : step env op s = .ok reply u) : u.TreeWf ∧ Effect env s op reply u := by
  cases op with
  | getattr path => exact keepsEntries_effect h (within_fatFuseGetattr env path) hrun
  | fgetattr fh => exact keepsEntries_effect h (within_fatFuseFgetattr env fh) hrun
  | «open» path =>
      obtain ⟨⟨ret, fh⟩, hopen, rfl⟩ := reply_eq_ok hrun
      exact openNode_ok (g := id) (by simp) h hopen
  | opendir path =>
      obtain ⟨⟨ret, fh⟩, hopen, rfl⟩ := reply_eq_ok hrun
      exact openNode_ok (g := not) (by simp) h hopen
  | readdir fh filler =>
      obtain ⟨x, hx, -⟩ := reply_eq_ok hrun
      have hlarger := fatFuseReaddir_enlarges h hx
      exact ⟨hlarger.wf, hlarger.entries⟩
  | read fh mem size offset =>
      exact keepsEntries_effect h (within_fatFuseRead env fh mem size offset) hrun
  | write fh buf offset => exact keepsEntries_effect h (within_fatFuseWrite env fh buf offset) hrun
  | release fh =>
      obtain ⟨x, hx, -⟩ := reply_eq_ok hrun
      obtain ⟨⟨⟩, v, hdec, hrest⟩ := bind_eq_ok.mp hx
      cases hrest
      exact fatTreeDecNumTimesOpened_ok h hdec
  | releasedir fh =>
      obtain ⟨x, hx, -⟩ := reply_eq_ok hrun
      obtain ⟨⟨⟩, v, hdec, hrest⟩ := bind_eq_ok.mp hx
      cases hrest
      exact fatTreeDecNumTimesOpened_ok h hdec
  | mkdir path =>
      obtain ⟨x, hx, -⟩ := reply_eq_ok hrun
      have hlarger := createFile_enlarges h hx
      exact ⟨hlarger.wf, hlarger.entries⟩
  | mknod path =>
      obtain ⟨x, hx, -⟩ := reply_eq_ok hrun
      have hlarger := createFile_enlarges h hx
      exact ⟨hlarger.wf, hlarger.entries⟩
  | unlink path =>
      obtain ⟨x, hx, -⟩ := reply_eq_ok hrun
      exact fatFuseUnlink_ok h hx
  | rmdir path =>
      obtain ⟨x, hx, -⟩ := reply_eq_ok hrun
      exact fatFuseRmdir_ok h hx
  | utime path actime modtime =>
      exact keepsEntries_effect h (within_fatFuseUtime path actime modtime) hrun
  | truncate path offset =>
      obtain ⟨x, hx, -⟩ := reply_eq_ok hrun
      exact fatFuseTruncate_ok h hx

/-! ## Mounting -/

/-- A volume just mounted has the root directory as its only entry. -/
theorem initFileTree_ok {env : Env} {root : Nat} {table : FatTable} {image : Nat → UInt8}
    {io : List IoResult} {s : State}
    (hrun : initFileTree env root (bareState table image io) = .ok ⟨⟩ s) :
    s.TreeWf ∧ ∃ d, s.treeEntry = Function.update (fun _ => none) 0 (some d) ∧ d.path = rootPath ∧
      d.parent = none ∧ d.opened = 0 := by
  obtain ⟨entry, s₁, hentry, hrun⟩ := bind_eq_ok.mp hrun
  have hlook := (within_initDirentry env true rootPath root).ok hentry
  rw [bind_ok (fatFileInitEmpty_run rootPath s₁)] at hrun
  have hcell : ({ s₁ with store := s₁.files.alloc (emptyFile rootPath) } : State).files.cell
      s₁.files.next = some (emptyFile rootPath) := Heap.cell_alloc_next _ _
  rw [bind_ok (updateFile_run hcell _), modify_bind] at hrun
  have hroot := State.cell_updated_self hcell fun f =>
    { f with dentry := some entry, startCluster := root }
  have hnodes := hlook.nodes
  generalize hv : ({ (State.updated _ _ _) with fileTree := some none } : State) = v at hrun
  have hv₁ : v.nodes = s₁.nodes := by rw [← hv]; rfl
  have hv₂ : v.fileTree = some none := by rw [← hv]
  rw [show (State.updated _ _ _).files = v.files by rw [← hv]; rfl] at hroot
  -- the tree is still empty
  have hcells (a : Nat) : v.nodes.cell a = none := by
    rw [hv₁, hnodes]
    rfl
  have hempty : TreeOk v none .nil := by
    refine ⟨hv₂, represents_nil _, fun a node hc => ?_, fun a node hc => ?_,
      fun a b node node' hc => ?_, fun a node q hc => ?_, List.Pairwise.nil⟩ <;>
    · rw [hcells] at hc
      cases hc
  have hnone : v.treeEntry = fun _ => none := by
    funext a
    exact treeEntry_of_none (hcells a)
  obtain ⟨-, ⟨⟨a, e, he, -⟩, -⟩ | ⟨-, -, hwf, htable⟩⟩ :=
    fatTreeInsert_ok hempty hroot rfl (fun a e he => by rw [hnone] at he; cases he) hrun
  · rw [hnone] at he
    cases he
  · rw [insertedEntry, hnone, hv₁, hnodes] at htable
    exact ⟨hwf, ⟨_, rootPath, none, 0, _⟩, htable, rfl, rfl, rfl⟩

end OsLabs.Fat
