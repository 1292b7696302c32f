import OsLabs.Fat.Entries
import OsLabs.Fat.Frames
import OsLabs.Fat.ReadDirectory

/-! # New files

The commands that make files, for all results of the device calls. They keep every entry of the file
tree (`KeepsEntries`), and what they return is not in the tree yet.

* `NewFile s c path u`: `c` is a file of `u` with this path, made since `s`;
* `fatFileInit_ok`: a creation makes at most one file;
* `Makes s dirpath cs u`: the list `cs` of files was made, with paths below `dirpath`;
  `fatFileReadChildren_ok`: a listing makes the children of its directory. -/

namespace OsLabs.Fat

open Cmd

/-! ## The frame of entries -/

/-- The tree with other files behind its nodes. -/
theorem keepsEntries_store {s : State} {store : Heap FatFile} (hnext : s.files.next ≤ store.next)
    (hfile : ∀ a f, s.files.cell a = some f → ∃ f', store.cell a = some f' ∧ KeepsFile f f') :
    KeepsEntries s { s with store := store } where
  fileTree := rfl
  represents _ _ _ h := h
  nodes _ := rfl
  next := rfl
  files a f hf := by
    obtain ⟨f', hf', hkeep⟩ := hfile a f hf
    exact ⟨f', hf', hkeep.filepath, hkeep.opened, hkeep.dentry⟩
  filesNext := hnext

/-- A file keeps what it has. -/
theorem KeepsFile.refl (f : FatFile) : KeepsFile f f := ⟨rfl, rfl, fun h => ⟨h, rfl⟩⟩

/-- A state that has the nodes, the files and the root of another one keeps its entries. -/
theorem keepsEntries_of_eq {s u : State} (htree : u.fileTree = s.fileTree) (hnodes : u.nodes = s.nodes)
    (hfiles : u.files = s.files) : KeepsEntries s u where
  fileTree := htree
  represents _ _ _ h := by rwa [hnodes]
  nodes _ := by rw [hnodes]
  next := by rw [hnodes]
  files a f hf := ⟨f, by rw [hfiles]; exact hf, rfl, rfl, fun h => ⟨h, rfl⟩⟩
  filesNext := by rw [hfiles]

instance : DataFrame KeepsEntries where
  lookedUp _ _ h := keepsEntries_of_eq h.fileTree h.nodes h.files
  io _ _ := keepsEntries_of_eq rfl rfl rfl
  write _ _ _ _ := keepsEntries_of_eq rfl rfl rfl
  entry _ _ _ := keepsEntries_of_eq rfl rfl rfl
  file s file x f hx hkeep := by
    refine keepsEntries_store (Nat.le_refl _) fun a g hg => ?_
    by_cases ha : a = file
    · subst ha
      rw [hx] at hg
      cases hg
      exact ⟨f x, State.cell_updated_self hx f, hkeep⟩
    · exact ⟨g, (State.cell_updated_ne ha f).trans hg, .refl g⟩
  alloc s f := by
    refine keepsEntries_store (Nat.le_succ _) fun a g hg => ?_
    exact ⟨g, Heap.cell_alloc_of_live hg f, .refl g⟩

section Frame

variable {s t u : State}

/-- Keeping the entries twice is keeping them. -/
theorem KeepsEntries.trans (h : KeepsEntries s t) (h' : KeepsEntries t u) : KeepsEntries s u :=
  IsTrans.trans s t u h h'

/-- A file made since `s` may be destroyed. -/
theorem KeepsEntries.freed (h : KeepsEntries s u) {c : Nat} (hc : s.files.next ≤ c) :
    KeepsEntries s { u with store := u.files.free c } where
  fileTree := h.fileTree
  represents := h.represents
  nodes := h.nodes
  next := h.next
  files a f hf := by
    obtain ⟨f', hf', hrest⟩ := h.files a f hf
    have hne : a ≠ c := Nat.ne_of_lt (Nat.lt_of_lt_of_le (Heap.lt_next hf) hc)
    exact ⟨f', (Heap.cell_free_ne hne).trans hf', hrest⟩
  filesNext := h.filesNext

/-- A command that reads a file first. -/
theorem readFile_bind_eq_ok {γ : Type} {c : Nat} {f : FatFile → M γ} {r : γ}
    (h : (readFile c >>= f) s = .ok r u) : ∃ x, s.files.cell c = some x ∧ f x s = .ok r u := by
  obtain ⟨x, t, hx, hf⟩ := bind_eq_ok.mp h
  obtain ⟨rfl, hx⟩ := readFile_eq_ok hx
  exact ⟨x, hx, hf⟩

/-- A command that uses a pointer first. -/
theorem nonNull_bind_eq_ok {γ : Type} {p : Ptr} {f : Nat → M γ} {r : γ}
    (h : (nonNull p >>= f) s = .ok r u) : ∃ c, p = some c ∧ f c s = .ok r u := by
  cases p with
  | none => cases h
  | some c => exact ⟨c, rfl, h⟩

/-- A destruction that returns frees the file. -/
theorem fatFileDestroy_ok {c : Nat} (h : fatFileDestroy c s = .ok ⟨⟩ u) :
    u = { s with store := s.files.free c } := by
  cases hf : s.files.cell c with
  | none =>
      have herr : modifyData destroyFile c s.toHMem = .error .doubleFree s.toHMem :=
        modifyData_error (m := s.toHMem) (by
          show destroyFile c s.files = _
          unfold destroyFile
          rw [hf])
      unfold fatFileDestroy at h
      rw [liftTree_error herr] at h
      cases h
  | some f =>
      rw [fatFileDestroy_run hf] at h
      cases h
      rfl

/-! ## Files that were made -/

/-- `c` is a file with this path made since `s`: nobody opened it, and it has an entry. -/
structure NewFile (s : State) (c : Nat) (path : CString) (u : State) : Prop where
  fresh : s.files.next ≤ c
  file : ∃ f, u.files.cell c = some f ∧ f.filepath = path ∧ f.numTimesOpened = 0 ∧
    f.dentry.isSome = true

/-- A new file is kept by what keeps entries. -/
theorem NewFile.kept {c : Nat} {path : CString} (h : NewFile s c path t) (hk : KeepsEntries t u) :
    NewFile s c path u := by
  obtain ⟨f, hf, hpath, hopened, hd⟩ := h.file
  obtain ⟨f', hf', hpath', hopened', hdentry⟩ := hk.files c f hf
  exact ⟨h.fresh, f', hf', hpath'.trans hpath, hopened'.trans hopened, (hdentry hd).1⟩

/-- A file made later is new. -/
theorem NewFile.since {c : Nat} {path : CString} (hk : KeepsEntries s t) (h : NewFile t c path u) :
    NewFile s c path u :=
  ⟨Nat.le_trans hk.filesNext h.fresh, h.file⟩

/-- A new file is behind no node. -/
theorem NewFile.not_mem {c : Nat} {path : CString} (h : NewFile s c path u) {a : Nat} {e : TreeEntry}
    (he : s.treeEntry a = some e) : e.file ≠ c := by
  obtain ⟨node, f, -, hf, rfl⟩ := treeEntry_eq_some he
  exact Nat.ne_of_lt (Nat.lt_of_lt_of_le (Heap.lt_next hf) h.fresh)

/-- Allocating a file with an entry. -/
theorem newFile_alloc (s : State) {f : FatFile} (hopened : f.numTimesOpened = 0)
    (hd : f.dentry.isSome = true) :
    NewFile s s.files.next f.filepath { s with store := s.files.alloc f } :=
  ⟨Nat.le_refl _, f, Heap.cell_alloc_next _ _, rfl, hopened, hd⟩

end Frame

/-! ## Creation -/

section Creation

variable {s t u : State}

/-- `fat_file_init` gives an entry to the file it allocated. -/
theorem newFile_updated {c : Nat} {x : FatFile} {path : CString} {f : FatFile → FatFile}
    (hfresh : s.files.next ≤ c) (hx : t.files.cell c = some x) (hpath : x.filepath = path)
    (hopened : x.numTimesOpened = 0)
    (hf : (f x).filepath = x.filepath ∧ (f x).numTimesOpened = x.numTimesOpened ∧
      (f x).dentry.isSome = true) : NewFile s c path (t.updated c f) :=
  ⟨hfresh, f x, State.cell_updated_self hx f, hf.1.trans hpath, hf.2.1.trans hopened, hf.2.2⟩

/-- An update of a file made since `s`. -/
theorem KeepsEntries.updated {c : Nat} (h : KeepsEntries s t) (hfresh : s.files.next ≤ c)
    (f : FatFile → FatFile) : KeepsEntries s (t.updated c f) where
  fileTree := h.fileTree
  represents := h.represents
  nodes := h.nodes
  next := h.next
  files a g hg := by
    obtain ⟨g', hg', hrest⟩ := h.files a g hg
    have hne : a ≠ c := Nat.ne_of_lt (Nat.lt_of_lt_of_le (Heap.lt_next hg) hfresh)
    exact ⟨g', (State.cell_updated_ne hne f).trans hg', hrest⟩
  filesNext := h.filesNext

/-- The file `fat_file_init_empty` allocates. -/
def emptyFile (filepath : CString) : FatFile where
  dentry := none
  name := []
  filepath := filepath
  startCluster := 0
  nentries := 0
  posInParent := 0
  numTimesOpened := 0
  childrenRead := false

/-- `fat_file_init` of no entry allocates a file with the path and nothing else. -/
theorem fatFileInitEmpty_run (path : CString) (s : State) :
    fatFileInitEmpty path s =
      .ok s.files.next { s with store := s.files.alloc (emptyFile path) } := rfl

/-- A file that is destroyed again. -/
theorem destroyed_ok {c : Nat} {r : Ptr} (hk : KeepsEntries s t) (hfresh : s.files.next ≤ c)
    (hrun : (do fatFileDestroy c; pure none : M Ptr) t = .ok r u) : KeepsEntries s u ∧ r = none := by
  obtain ⟨⟨⟩, v, hdestroy, hrest⟩ := bind_eq_ok.mp hrun
  cases hrest
  rw [fatFileDestroy_ok hdestroy]
  exact ⟨hk.freed hfresh, rfl⟩

/-- A creation makes at most one file. -/
theorem fatFileInit_ok {env : Env} {isDir : Bool} {path : CString} {r : Ptr}
    (hrun : fatFileInit env isDir path s = .ok r u) :
    KeepsEntries s u ∧ ∀ c, r = some c → NewFile s c path u := by
  have hgiveUp (h : KeepsEntries s u ∧ r = none) :
      KeepsEntries s u ∧ ∀ c, r = some c → NewFile s c path u := by
    refine ⟨h.1, fun c hc => ?_⟩
    rw [h.2] at hc
    cases hc
  have hfresh := Nat.le_refl s.files.next
  unfold fatFileInit at hrun
  rw [bind_ok (fatFileInitEmpty_run path s)] at hrun
  have hkeep : KeepsEntries s { s with store := s.files.alloc (emptyFile path) } :=
    DataFrame.alloc s (emptyFile path)
  obtain ⟨x, hx, hpath, hopened⟩ : ∃ x, ({ s with store := s.files.alloc (emptyFile path) } :
      State).files.cell s.files.next = some x ∧ x.filepath = path ∧ x.numTimesOpened = 0 :=
    ⟨_, Heap.cell_alloc_next _ _, rfl, rfl⟩
  generalize ({ s with store := s.files.alloc (emptyFile path) } : State) = t₁ at hrun hkeep hx
  obtain ⟨errno, t₂, herrno, hrun⟩ := bind_eq_ok.mp hrun
  cases herrno
  rw [ite_run] at hrun
  split at hrun
  · exact hgiveUp (destroyed_ok hkeep hfresh hrun)
  obtain ⟨cluster, t₃, hfree, hrun⟩ := bind_eq_ok.mp hrun
  obtain ⟨used, t₄, hused, hrun⟩ := bind_eq_ok.mp hrun
  have hk₄ := ((within_fatTableGetNextFreeCluster (R := KeepsEntries)).ok hfree).trans
    ((within_fatTableIsClusterUsed cluster).ok hused)
  rw [ite_run] at hrun
  split at hrun
  · obtain ⟨⟨⟩, t₅, hset, hrun⟩ := bind_eq_ok.mp hrun
    exact hgiveUp (destroyed_ok
      (hkeep.trans (hk₄.trans ((setErrno_within _).ok hset))) hfresh hrun)
  obtain ⟨entry, t₅, hentry, hrun⟩ := bind_eq_ok.mp hrun
  have hk₅ := hk₄.trans ((within_fatFileInitDirentry env isDir path cluster).ok hentry)
  obtain ⟨y, hy, hypath, hyopened, -⟩ := hk₅.files _ x hx
  rw [bind_ok (updateFile_run hy _)] at hrun
  -- the file has its entry, and its cluster is marked
  have hnew := newFile_updated (f := fun f =>
    { f with
      dentry := some entry
      name := buildFilename entry.baseName entry.extension
      startCluster := fileStartCluster entry }) hfresh hy (hypath.trans hpath) (hyopened.trans hopened)
    ⟨rfl, rfl, rfl⟩
  obtain ⟨⟨⟩, t₆, hmark, hrun⟩ := bind_eq_ok.mp hrun
  have hk₆ := (within_fatTableSetNextCluster (R := KeepsEntries) _ _).ok hmark
  have hall := ((hkeep.trans hk₅).updated hfresh _).trans hk₆
  obtain ⟨errno', t₇, herrno', hrun⟩ := bind_eq_ok.mp hrun
  cases herrno'
  rw [ite_run] at hrun
  split at hrun
  · exact hgiveUp (destroyed_ok hall hfresh hrun)
  · cases hrun
    refine ⟨hall, ?_⟩
    rintro c ⟨⟩
    exact hnew.kept hk₆

end Creation

/-! ## Listing -/

/-- The path of a file. -/
def FileAt (s : State) (c : Nat) (path : CString) : Prop :=
  ∃ f, s.files.cell c = some f ∧ f.filepath = path

/-- The files `cs` were made since `s`, all different, with paths below `dirpath`. -/
structure Makes (s : State) (dirpath : CString) (cs : List Nat) (u : State) : Prop where
  keeps : KeepsEntries s u
  nodup : cs.Nodup
  new : ∀ c ∈ cs, ∃ name, NewFile s c (filepathFromName dirpath name) u

section Listing

variable {s t u : State} {dirpath : CString}

/-- A file stays at its path while entries are kept. -/
theorem FileAt.kept {c : Nat} {path : CString} (h : FileAt s c path) (hk : KeepsEntries s u) :
    FileAt u c path := by
  obtain ⟨f, hf, hpath⟩ := h
  obtain ⟨f', hf', hpath', -⟩ := hk.files c f hf
  exact ⟨f', hf', hpath'.trans hpath⟩

/-- Nothing is made while entries are kept. -/
theorem Makes.nil (hk : KeepsEntries s u) : Makes s dirpath [] u :=
  ⟨hk, List.nodup_nil, fun _ hc => absurd hc List.not_mem_nil⟩

/-- What keeps entries keeps what was made. -/
theorem Makes.kept {cs : List Nat} (h : Makes s dirpath cs t) (hk : KeepsEntries t u) : Makes s dirpath cs u := by
  refine ⟨h.keeps.trans hk, h.nodup, fun c hc => ?_⟩
  obtain ⟨name, hnew⟩ := h.new c hc
  exact ⟨name, hnew.kept hk⟩

/-- What is made later is made, as long as entries are kept before. -/
theorem Makes.since {cs : List Nat} (hk : KeepsEntries s t) (h : Makes t dirpath cs u) : Makes s dirpath cs u := by
  refine ⟨hk.trans h.keeps, h.nodup, fun c hc => ?_⟩
  obtain ⟨name, hnew⟩ := h.new c hc
  exact ⟨name, hnew.since hk⟩

/-- Files that were made one after another. -/
theorem Makes.append {cs ds : List Nat} (h : Makes s dirpath cs t) (h' : Makes t dirpath ds u) :
    Makes s dirpath (cs ++ ds) u := by
  refine ⟨h.keeps.trans h'.keeps, ?_, fun c hc => ?_⟩
  · rw [List.nodup_append]
    refine ⟨h.nodup, h'.nodup, fun c hc d hd hcd => ?_⟩
    obtain ⟨name, hnew⟩ := h.new c hc
    obtain ⟨f, hf, -⟩ := hnew.file
    obtain ⟨name', hnew'⟩ := h'.new d hd
    have := Heap.lt_next hf
    have := hnew'.fresh
    omega
  · rw [List.mem_append] at hc
    obtain hc | hc := hc
    · exact (h.kept h'.keeps).new c hc
    · exact (h'.since h.keeps).new c hc

/-- A single file made in a directory. -/
theorem Makes.single {c : Nat} {name : CString} (hk : KeepsEntries s u)
    (h : NewFile s c (filepathFromName dirpath name) u) : Makes s dirpath [c] u := by
  refine ⟨hk, List.nodup_singleton c, fun d hd => ?_⟩
  rw [List.mem_singleton] at hd
  subst hd
  exact ⟨name, h⟩

/-- The child made of an entry. -/
theorem initFileFromDentry_ok {entry : DirEntry} {dir c : Nat} (hdir : FileAt s dir dirpath)
    (hrun : initFileFromDentry entry dir s = .ok c u) : c = s.files.next ∧ KeepsEntries s u ∧
      ∃ name, NewFile s c (filepathFromName dirpath name) u := by
  obtain ⟨x, hx, hrest⟩ := readFile_bind_eq_ok hrun
  obtain ⟨y, hy, rfl⟩ := hdir
  rw [hx] at hy
  cases hy
  cases hrest
  exact ⟨rfl, DataFrame.alloc _ _, cstr (fileFromDentry entry x).name,
    newFile_alloc s (f := fileFromDentry entry x) rfl rfl⟩

/-- The children made of one entry of a directory. -/
theorem readDirEntry_ok {entry : DirEntry} {dir : Nat} {cs : List Nat} (hdir : FileAt s dir dirpath)
    (hrun : readDirEntry entry dir s = .ok cs u) : Makes s dirpath cs u := by
  unfold readDirEntry at hrun
  rw [ite_run] at hrun
  split at hrun
  · rw [ite_run] at hrun
    split at hrun
    · obtain ⟨c, t, hinit, hrun⟩ := bind_eq_ok.mp hrun
      obtain ⟨rfl, hk, name, hnew⟩ := initFileFromDentry_ok hdir hinit
      obtain ⟨⟨⟩, t', hhide, hrun⟩ := bind_eq_ok.mp hrun
      have hk' := (within_updateDentry (R := KeepsEntries)
        (g := fun entry => entry.setBaseName0 deletedMark) _ fun _ => by
          simp [DirEntry.attribs, DirEntry.setBaseName0]).ok hhide
      obtain ⟨x, -, hrun⟩ := readFile_bind_eq_ok hrun
      rw [ite_run] at hrun
      split at hrun
      · obtain ⟨⟨⟩, v, hdestroy, hrest⟩ := bind_eq_ok.mp hrun
        cases hrest
        rw [fatFileDestroy_ok hdestroy]
        exact .nil ((hk.trans hk').freed (Nat.le_refl _))
      · cases hrun
        exact .single (hk.trans hk') (hnew.kept hk')
    · cases hrun
      exact .nil (Std.Refl.refl s)
  · obtain ⟨c, t, hinit, hrun⟩ := bind_eq_ok.mp hrun
    obtain ⟨-, hk, name, hnew⟩ := initFileFromDentry_ok hdir hinit
    cases hrun
    exact .single hk hnew

/-- Counting the entries of a directory, or noting that its children were read. -/
theorem updateFile_keeps {dir : Nat} {f : FatFile → FatFile} (hrun : updateFile dir f s = .ok ⟨⟩ u)
    (hf : ∀ x, (f x).filepath = x.filepath ∧ (f x).numTimesOpened = x.numTimesOpened ∧
      (f x).dentry = x.dentry) : KeepsEntries s u :=
  (within_updateFile_of_eq dir hf).ok hrun

/-- Reading the entries of a cluster makes files of this directory. -/
theorem readEntriesFrom_ok {buffer : Int → UInt8} {dir left n : Nat} {elems cs : List Nat}
    (hdir : FileAt s dir dirpath) (hrun : readEntriesFrom buffer dir left n elems s = .ok cs u) :
    ∃ ds, cs = elems ++ ds ∧ Makes s dirpath ds u := by
  induction left generalizing s n elems with
  | zero =>
      obtain ⟨⟨⟩, t, hcount, hrest⟩ := bind_eq_ok.mp hrun
      cases hrest
      exact ⟨[], (List.append_nil _).symm, .nil (updateFile_keeps hcount fun _ => ⟨rfl, rfl, rfl⟩)⟩
  | succ left ih =>
      obtain ⟨⟨⟩, t, hcount, hrun⟩ := bind_eq_ok.mp hrun
      have hk := updateFile_keeps hcount fun _ => ⟨rfl, rfl, rfl⟩
      rw [ite_run] at hrun
      split at hrun
      · obtain ⟨⟨⟩, t', hread, hrun⟩ := bind_eq_ok.mp hrun
        obtain ⟨⟨⟩, t'', hcount', hrest⟩ := bind_eq_ok.mp hrun
        cases hrest
        refine ⟨[], (List.append_nil _).symm, .nil (hk.trans ?_)⟩
        exact (updateFile_keeps hread fun _ => ⟨rfl, rfl, rfl⟩).trans
          (updateFile_keeps hcount' fun _ => ⟨rfl, rfl, rfl⟩)
      · obtain ⟨child, t', hchild, hrun⟩ := bind_eq_ok.mp hrun
        have hmade := readDirEntry_ok (hdir.kept hk) hchild
        obtain ⟨ds, rfl, hds⟩ := ih ((hdir.kept hk).kept hmade.keeps) hrun
        exact ⟨child ++ ds, List.append_assoc _ _ _, (hmade.append hds).since hk⟩

/-- Reading the clusters of a directory makes files of this directory. -/
theorem readChildrenFrom_ok {env : Env} {dir fuel cluster : Nat} {elems : List Nat}
    {r : Option (List Nat)} (hdir : FileAt s dir dirpath)
    (hrun : readChildrenFrom env dir fuel cluster elems s = .ok r u) :
    KeepsEntries s u ∧ ∀ cs, r = some cs → ∃ ds, cs = elems ++ ds ∧ Makes s dirpath ds u := by
  induction fuel generalizing s cluster elems with
  | zero => cases hrun
  | succ fuel ih =>
      rw [readChildrenFrom, ite_run] at hrun
      split at hrun
      · cases hrun
        refine ⟨Std.Refl.refl _, ?_⟩
        rintro cs ⟨⟩
        exact ⟨[], (List.append_nil _).symm, .nil (Std.Refl.refl _)⟩
      · rw [get_bind] at hrun
        obtain ⟨⟨bytesRead, buf⟩, t, hread, hrun⟩ := bind_eq_ok.mp hrun
        have hk := (within_fullPread (R := KeepsEntries) _ _ _).ok hread
        simp only [ite_run] at hrun
        split at hrun
        · obtain ⟨⟨⟩, t', hset, hrest⟩ := bind_eq_ok.mp hrun
          cases hrest
          refine ⟨hk.trans ((setErrno_within _).ok hset), ?_⟩
          intro cs hcs
          cases hcs
        · obtain ⟨cs, t', hentries, hrun⟩ := bind_eq_ok.mp hrun
          obtain ⟨ds, rfl, hds⟩ := readEntriesFrom_ok (hdir.kept hk) hentries
          obtain ⟨next, t'', hnext, hrun⟩ := bind_eq_ok.mp hrun
          have hk' := (within_fatTableGetNextCluster (R := KeepsEntries) _).ok hnext
          obtain ⟨hrest, hall⟩ := ih (((hdir.kept hk).kept hds.keeps).kept hk') hrun
          refine ⟨hk.trans (hds.keeps.trans (hk'.trans hrest)), fun cs hcs => ?_⟩
          obtain ⟨es, rfl, hes⟩ := hall cs hcs
          exact ⟨ds ++ es, List.append_assoc _ _ _, ((hds.kept hk').append hes).since hk⟩

/-- A listing makes its children. -/
theorem fatFileReadChildren_ok {env : Env} {dir : Nat} {cs : List Nat} (hdir : FileAt s dir dirpath)
    (hrun : fatFileReadChildren env dir s = .ok cs u) : Makes s dirpath cs u := by
  obtain ⟨x, -, hrun⟩ := readFile_bind_eq_ok hrun
  rw [get_bind, ite_run] at hrun
  split at hrun
  · obtain ⟨⟨⟩, t', hset, hrest⟩ := bind_eq_ok.mp hrun
    cases hrest
    exact .nil ((setErrno_within _).ok hset)
  · obtain ⟨r, t', hread, hrun⟩ := bind_eq_ok.mp hrun
    obtain ⟨hk, hall⟩ := readChildrenFrom_ok hdir hread
    cases r with
    | none =>
        cases hrun
        exact .nil hk
    | some l =>
        obtain ⟨ds, heq, hds⟩ := hall l rfl
        obtain ⟨⟨⟩, t'', hread', hrest⟩ := bind_eq_ok.mp hrun
        cases hrest
        rw [heq, List.nil_append]
        exact hds.kept (updateFile_keeps hread' fun _ => ⟨rfl, rfl, rfl⟩)

end Listing

end OsLabs.Fat
