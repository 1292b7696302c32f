import OsLabs.Fat.FileSpec
import OsLabs.Fat.ReadFile

/-! # Reading a directory

What `fat_file_read_children` makes of the clusters of a directory. The entries of the directory are
those of its clusters, one after the other, up to the first end mark (`dirEntries`), and the files of
the children are `childrenOf` them. The function goes through the clusters one by one instead: each has
an end mark of its own, and the index of an entry starts again at 0 (`fatFileReadChildren_run`). So the
two agree only for directories whose children lie in the first cluster
(`fatFileReadChildren_readsDirectory_iff`). -/

namespace OsLabs.Fat

/-! ## Entries and their children -/

namespace DirEntry

/-- A hidden log: an entry marked as deleted, with the system attribute, that has the name of the log
once its first byte is restored. -/
def HiddenLog (e : DirEntry) : Prop :=
  e.MarkedSystem ∧
    cstr (buildFilename (e.setBaseName0 102).baseName (e.setBaseName0 102).extension) = fsLogName

instance (e : DirEntry) : Decidable e.HiddenLog := inferInstanceAs (Decidable (_ ∧ _))

/-- The entries that have a child. -/
def Yields (e : DirEntry) : Prop := ¬ e.Ignored ∨ e.HiddenLog

instance (e : DirEntry) : Decidable e.Yields := inferInstanceAs (Decidable (_ ∨ _))

/-- The file of the child of entry `i` of a directory. -/
def childOf (dir : FatFile) (e : DirEntry) (i : Nat) : FatFile :=
  { fileFromDentry (if e.Ignored then e.setBaseName0 102 else e) { dir with nentries := i } with
    dentry := some e }

/-- An entry marked as deleted with the attribute of the log is ignored. -/
theorem ignored_of_markedSystem {e : DirEntry} (h : e.MarkedSystem) : e.Ignored := by
  refine .inr (.inl ?_)
  have hbyte : e.baseName 0 = 0xe5 := h.1
  rw [fileBasenameValid, if_pos (.inr (.inr hbyte))]

/-- Restoring the first byte of a name and marking it again. -/
theorem setBaseName0_setBaseName0 {e : DirEntry} {b : UInt8} (h : e.byte 0 = b) (c : UInt8) :
    (e.setBaseName0 c).setBaseName0 b = e := by
  apply Vector.ext
  intro i hi
  have hzero : e[0] = b := by
    rw [← h]
    simp [byte]
  unfold setBaseName0 setByte
  rw [Vector.getElem_setIfInBounds hi, Vector.getElem_setIfInBounds hi]
  split_ifs with h0
  · subst h0
    exact hzero.symm
  · rfl

end DirEntry

/-- The files of the children of some entries, the first of which has index `i`. -/
def childrenOf (dir : FatFile) (entries : List DirEntry) (i : Nat) : List FatFile :=
  (entries.zipIdx i).filterMap fun p => if p.1.Yields then some (p.1.childOf dir p.2) else none

section Children

variable {x y : FatFile} {e : DirEntry} {es es' : List DirEntry} {i : Nat}

/-- No children come out of no entries. -/
theorem childrenOf_nil (x : FatFile) (i : Nat) : childrenOf x [] i = [] := rfl

/-- An entry gives a child, or none. -/
theorem childrenOf_cons (x : FatFile) (e : DirEntry) (es : List DirEntry) (i : Nat) :
    childrenOf x (e :: es) i =
      (if e.Yields then [e.childOf x i] else []) ++ childrenOf x es (i + 1) := by
  unfold childrenOf
  rw [List.zipIdx_cons, List.filterMap_cons]
  by_cases h : e.Yields <;> simp [h]

/-- The children of two runs of entries, the second one counting on. -/
theorem childrenOf_append (x : FatFile) (es es' : List DirEntry) (i : Nat) :
    childrenOf x (es ++ es') i = childrenOf x es i ++ childrenOf x es' (i + es.length) := by
  induction es generalizing i with
  | nil => rfl
  | cons e es ih =>
      rw [List.cons_append, childrenOf_cons, childrenOf_cons, ih, List.append_assoc,
        List.length_cons, Nat.add_assoc, Nat.add_comm 1]

/-- No children come out just if no entry yields one. -/
theorem childrenOf_eq_nil_iff : childrenOf x es i = [] ↔ ∀ e ∈ es, ¬ e.Yields := by
  induction es generalizing i with
  | nil => simp [childrenOf_nil]
  | cons e es ih =>
      rw [childrenOf_cons, List.append_eq_nil_iff, ih, List.forall_mem_cons]
      by_cases h : e.Yields <;> simp [h]

/-- The positions of children are the indices of their entries. -/
theorem posInParent_mem_childrenOf {f : FatFile} (hf : f ∈ childrenOf x es i) :
    i ≤ f.posInParent ∧ f.posInParent < i + es.length := by
  induction es generalizing i with
  | nil => cases hf
  | cons e es ih =>
      rw [childrenOf_cons, List.mem_append] at hf
      rw [List.length_cons]
      rcases hf with hf | hf
      · split_ifs at hf
        · rw [List.mem_singleton.mp hf]
          have hpos : (e.childOf x i).posInParent = i := rfl
          omega
        · cases hf
      · have := ih hf
        omega

end Children

/-! ## Entries on the device -/

/-- Entry `nentry` of a cluster. -/
def State.clusterEntry (s : State) (cluster nentry : Nat) : DirEntry :=
  Vector.ofFn fun k : Fin 32 => s.dev.byte (s.table.clusterOffset cluster + (32 * nentry + k))

/-- The entries of a cluster. -/
def clusterEntries (s : State) (cluster : Nat) : List DirEntry :=
  (List.range (s.table.bytesPerCluster / 32)).map fun i => s.clusterEntry cluster i

/-- Entries up to the end mark. -/
def cutAtEnd (entries : List DirEntry) : List DirEntry :=
  entries.takeWhile fun e => ¬ e.IsEndOfDirectory

/-- The entries end in front of the end mark. -/
theorem cutAtEnd_cons (e : DirEntry) (es : List DirEntry) :
    cutAtEnd (e :: es) = if e.IsEndOfDirectory then [] else e :: cutAtEnd es := by
  unfold cutAtEnd
  by_cases h : e.IsEndOfDirectory <;> simp [h]

/-- The entries of the directory with the clusters `l`. -/
def dirEntries (s : State) (l : List Nat) : List DirEntry := cutAtEnd (l.flatMap (clusterEntries s))

/-! ## What reading changes -/

/-- From `s` to `s'` the files `fs` were made at the addresses `cs`, and of the others only the counter
and the mark of the directory `dir` changed. -/
structure Listed (dir : Nat) (cs : List Nat) (fs : List FatFile) (s s' : State) : Prop where
  frame : s' = { s with store := s'.store, io := s'.io }
  ioOk : s'.IoOk
  dir_cell : ∀ x, s.files.cell dir = some x →
    ∃ n b, s'.files.cell dir = some { x with nentries := n, childrenRead := b }
  kept : ∀ a, a < s.files.next → a ≠ dir → s'.files.cell a = s.files.cell a
  next_le : s.files.next ≤ s'.files.next
  fresh : ∀ c ∈ cs, s.files.next ≤ c ∧ c < s'.files.next
  nodup : cs.Nodup
  made : cs.map s'.files.cell = fs.map some

namespace Listed

variable {dir : Nat} {cs ds : List Nat} {fs gs : List FatFile} {s s' s'' : State}

/-- A listing leaves the FAT in memory alone. -/
theorem table (h : Listed dir cs fs s s') : s'.table = s.table := by rw [h.frame]

/-- A listing does not write to the device. -/
theorem dev (h : Listed dir cs fs s s') : s'.dev = s.dev := by rw [h.frame]

/-- An update of the counter or the mark of the directory. -/
theorem updated (hio : s.IoOk) (dir : Nat) (f : FatFile → FatFile)
    (hf : ∀ x, ∃ n b, f x = { x with nentries := n, childrenRead := b }) :
    Listed dir [] [] s (s.updated dir f) where
  frame := rfl
  ioOk := hio
  dir_cell x hx := by
    obtain ⟨n, b, hnb⟩ := hf x
    exact ⟨n, b, by rw [State.cell_updated_self hx, hnb]⟩
  kept a _ ha := State.cell_updated_ne ha f
  next_le := Nat.le_refl _
  fresh _ hc := absurd hc List.not_mem_nil
  nodup := List.nodup_nil
  made := rfl

/-- A listing of nothing. -/
theorem refl (hio : s.IoOk) : Listed dir [] [] s s where
  frame := rfl
  ioOk := hio
  dir_cell x hx := ⟨x.nentries, x.childrenRead, hx⟩
  kept _ _ _ := rfl
  next_le := Nat.le_refl _
  fresh _ hc := absurd hc List.not_mem_nil
  nodup := List.nodup_nil
  made := rfl

/-- A device call changes no file. -/
theorem tail (hio : s.IoOk) : Listed dir [] [] s { s with io := s.io.tail } where
  frame := rfl
  ioOk := hio.tail rfl
  dir_cell x hx := ⟨x.nentries, x.childrenRead, hx⟩
  kept _ _ _ := rfl
  next_le := Nat.le_refl _
  fresh _ hc := absurd hc List.not_mem_nil
  nodup := List.nodup_nil
  made := rfl

/-- Two listings in a row are one. -/
theorem append (hdir : dir < s.files.next) (h : Listed dir cs fs s s') (h' : Listed dir ds gs s' s'') :
    Listed dir (cs ++ ds) (fs ++ gs) s s'' where
  frame := by
    rw [h'.frame, h.frame]
  ioOk := h'.ioOk
  dir_cell x hx := by
    obtain ⟨n, b, hx'⟩ := h.dir_cell x hx
    obtain ⟨n', b', hx''⟩ := h'.dir_cell _ hx'
    exact ⟨n', b', hx''⟩
  kept a ha hne := (h'.kept a (Nat.lt_of_lt_of_le ha h.next_le) hne).trans (h.kept a ha hne)
  next_le := Nat.le_trans h.next_le h'.next_le
  fresh c hc := by
    have h1 := h.next_le
    have h2 := h'.next_le
    rcases List.mem_append.mp hc with hc | hc
    · have := h.fresh c hc
      omega
    · have := h'.fresh c hc
      omega
  nodup := by
    refine List.nodup_append.mpr ⟨h.nodup, h'.nodup, fun a ha b hb => ?_⟩
    have := h.fresh a ha
    have := h'.fresh b hb
    omega
  made := by
    -- the files made first are not touched afterwards
    have hsame : cs.map s''.files.cell = cs.map s'.files.cell := by
      refine List.map_congr_left fun c hc => ?_
      have hc' := h.fresh c hc
      exact h'.kept c hc'.2 (by omega)
    rw [List.map_append, List.map_append, hsame, h.made, h'.made]

end Listed

/-! ## Reading one cluster -/

section ReadCluster

variable {s : State} {dir : Nat} {x : FatFile}

/-- A live file can be destroyed. -/
theorem fatFileDestroy_run {file : Nat} {f : FatFile} (hf : s.files.cell file = some f) :
    fatFileDestroy file s = .ok ⟨⟩ { s with store := s.files.free file } := by
  have hf' : s.store.cell file = some f := hf
  unfold fatFileDestroy liftTree modifyData
  rw [Cmd.get_bind]
  simp only [destroyFile, hf']
  rfl

/-- A file made from an entry of a live directory. -/
theorem initFileFromDentry_run (hx : s.files.cell dir = some x) (e : DirEntry) :
    initFileFromDentry e dir s =
      .ok s.files.next { s with store := s.files.alloc (fileFromDentry e x) } := by
  unfold initFileFromDentry
  rw [Cmd.bind_ok (readFile_run hx)]
  rfl

/-- New files that leave the others alone. -/
theorem listed_new (hio : s.IoOk) {store : Heap FatFile}
    (hkept : ∀ a, a < s.files.next → store.cell a = s.files.cell a)
    (hnext : store.next = s.files.next + 1) {fs : List FatFile}
    (hmade : fs = [] ∨ ∃ f, fs = [f] ∧ store.cell s.files.next = some f) :
    Listed dir (fs.map fun _ => s.files.next) fs s { s with store := store } where
  frame := rfl
  ioOk := hio
  dir_cell y hy := ⟨y.nentries, y.childrenRead, (hkept dir (Heap.lt_next hy)).trans hy⟩
  kept a ha _ := hkept a ha
  next_le := hnext ▸ Nat.le_succ _
  fresh c hc := by
    obtain ⟨f, -, rfl⟩ := List.mem_map.mp hc
    exact ⟨Nat.le_refl _, hnext ▸ Nat.lt_succ_self _⟩
  nodup := by
    rcases hmade with rfl | ⟨f, rfl, -⟩
    · exact List.nodup_nil
    · exact List.nodup_singleton _
  made := by
    rcases hmade with rfl | ⟨f, rfl, hf⟩
    · rfl
    · exact congrArg (fun o => [o]) hf

/-- The body of the loop makes the child of an entry that has one. -/
theorem readDirEntry_run (hio : s.IoOk) (hx : s.files.cell dir = some x) (e : DirEntry) :
    ∃ cs s', readDirEntry e dir s = .ok cs s' ∧ s'.files.cell dir = some x ∧
      Listed dir cs (if e.Yields then [e.childOf x x.nentries] else []) s s' := by
  have hlt := Heap.lt_next hx
  by_cases hign : e.Ignored
  · by_cases hsys : e.MarkedSystem
    · have hne : dir ≠ s.files.next := Nat.ne_of_lt hlt
      -- the entry is restored, copied and hidden again
      have hchild : e.childOf x x.nentries =
          { fileFromDentry (e.setBaseName0 102) x with
            dentry := some ((e.setBaseName0 102).setBaseName0 deletedMark) } := by
        rw [DirEntry.setBaseName0_setBaseName0 hsys.1, DirEntry.childOf, if_pos hign]
      have hnew := Heap.cell_alloc_next s.files (fileFromDentry (e.setBaseName0 102) x)
      have hupdated := State.cell_updated_self
        (s := { s with store := s.files.alloc (fileFromDentry (e.setBaseName0 102) x) }) hnew fun f =>
          { f with dentry := some ((e.setBaseName0 102).setBaseName0 deletedMark) }
      rw [← hchild] at hupdated
      have hold (a : Nat) (ha : a < s.files.next) :
          ((s.files.alloc (fileFromDentry (e.setBaseName0 102) x)).modify s.files.next fun f =>
            { f with dentry := some ((e.setBaseName0 102).setBaseName0 deletedMark) }).cell a =
              s.files.cell a :=
        (Heap.cell_modify_ne (Nat.ne_of_lt ha) _).trans (Heap.cell_alloc_ne (Nat.ne_of_lt ha) _)
      rw [readDirEntry, if_pos hign, if_pos hsys, Cmd.bind_ok (initFileFromDentry_run hx _),
        Cmd.bind_ok (updateDentry_run (s := { s with store := s.files.alloc _ }) hnew rfl _),
        Cmd.bind_ok (readFile_run hupdated)]
      have hname : (e.childOf x x.nentries).name =
          buildFilename (e.setBaseName0 102).baseName (e.setBaseName0 102).extension := by
        rw [hchild]
        rfl
      by_cases hlog : cstr (e.childOf x x.nentries).name = fsLogName
      · have hy : e.Yields := .inr ⟨hsys, hname ▸ hlog⟩
        rw [if_neg (not_not.mpr hlog), if_pos hy]
        exact ⟨_, _, rfl, (hold dir hlt).trans hx,
          listed_new hio hold rfl (.inr ⟨_, rfl, hupdated⟩)⟩
      · have hy : ¬ e.Yields := fun h =>
          h.elim (fun h' => h' hign) fun h' => hlog (hname ▸ h'.2)
        rw [if_pos hlog, if_neg hy, Cmd.bind_ok (fatFileDestroy_run hupdated)]
        have hfreed (a : Nat) (ha : a < s.files.next) :=
          (Heap.cell_free_ne (Nat.ne_of_lt ha)).trans (hold a ha)
        exact ⟨_, _, rfl, (hfreed dir hlt).trans hx, listed_new hio hfreed rfl (.inl rfl)⟩
    · have hy : ¬ e.Yields := fun h => h.elim (fun h' => h' hign) fun h' => hsys h'.1
      refine ⟨[], s, ?_, hx, by rw [if_neg hy]; exact .refl hio⟩
      rw [readDirEntry, if_pos hign, if_neg hsys]
      rfl
  · have hchild : e.childOf x x.nentries = fileFromDentry e x := by
      rw [DirEntry.childOf, if_neg hign]
      rfl
    rw [readDirEntry, if_neg hign, Cmd.bind_ok (initFileFromDentry_run hx e), if_pos (.inl hign), hchild]
    exact ⟨_, _, rfl, Heap.cell_alloc_of_live hx _,
      listed_new hio (fun a ha => Heap.cell_alloc_ne (Nat.ne_of_lt ha) _) rfl
        (.inr ⟨_, rfl, Heap.cell_alloc_next s.files _⟩)⟩

/-- The loop makes the children of the entries up to the end mark. -/
theorem readEntriesFrom_run (hio : s.IoOk) (hx : s.files.cell dir = some x) (buffer : Int → UInt8)
    (left k : Nat) (elems : List Nat) :
    ∃ cs s' n b, readEntriesFrom buffer dir left k elems s = .ok (elems ++ cs) s' ∧
      n = k + (cutAtEnd ((List.range' k left).map (entryAt buffer))).length ∧
      s'.files.cell dir = some { x with nentries := n, childrenRead := b } ∧
      Listed dir cs (childrenOf x (cutAtEnd ((List.range' k left).map (entryAt buffer))) k) s s' := by
  -- the counter is stored in every round, so `n` is the slot at which the loop stops
  induction left generalizing s x k elems with
  | zero =>
      have hcell := State.cell_updated_self hx fun f => { f with nentries := k }
      refine ⟨[], _, k, x.childrenRead, ?_, rfl, hcell,
        .updated hio dir _ fun x => ⟨k, x.childrenRead, rfl⟩⟩
      rw [readEntriesFrom, Cmd.bind_ok (updateFile_run hx _), List.append_nil]
      rfl
  | succ left ih =>
      have hcell := State.cell_updated_self hx fun f => { f with nentries := k }
      have hset : Listed dir [] [] s (s.updated dir fun f => { f with nentries := k }) :=
        .updated hio dir _ fun x => ⟨k, x.childrenRead, rfl⟩
      rw [List.range'_succ, List.map_cons, readEntriesFrom, Cmd.bind_ok (updateFile_run hx _)]
      by_cases hend : (entryAt buffer k).IsEndOfDirectory
      · -- the end mark: the counter is stored once more
        have hcell₂ := State.cell_updated_self hcell fun f => { f with childrenRead := true }
        have hcell₃ := State.cell_updated_self hcell₂ fun f => { f with nentries := k }
        have hmark := Listed.updated hset.ioOk dir (fun f => { f with childrenRead := true }) fun x =>
          ⟨x.nentries, true, rfl⟩
        have hagain := Listed.updated hmark.ioOk dir (fun f => { f with nentries := k }) fun x =>
          ⟨k, x.childrenRead, rfl⟩
        rw [cutAtEnd_cons, if_pos hend, if_pos hend, Cmd.bind_ok (updateFile_run hcell _),
          Cmd.bind_ok (updateFile_run hcell₂ _)]
        refine ⟨[], _, k, true, ?_, rfl, hcell₃, ?_⟩
        · rw [List.append_nil]
          rfl
        · exact (hset.append (Heap.lt_next hx) hmark).append (Heap.lt_next hx) hagain
      -- an entry: the child made of it, if any, comes before the later ones
      · obtain ⟨cs, s₂, hrun, hcell₂, hread⟩ := readDirEntry_run (s := s.updated dir _) hset.ioOk hcell
          (entryAt buffer k)
        obtain ⟨ds, s', n, b, hrest, hn, hcell', hlist⟩ := ih hread.ioOk hcell₂ (k + 1) (elems ++ cs)
        rw [if_neg hend, Cmd.bind_ok hrun, hrest, cutAtEnd_cons, if_neg hend, childrenOf_cons]
        refine ⟨cs ++ ds, s', n, b, by rw [List.append_assoc], ?_, hcell', ?_⟩
        · rw [hn, List.length_cons]
          omega
        · have hall := (hset.append (Heap.lt_next hx) hread).append (Heap.lt_next hx) hlist
          exact hall

end ReadCluster

/-! ## Reading the chain -/

section ReadChain

variable {s : State} {dir : Nat} {x : FatFile} {l : List Nat}

/-- The entries of a cluster read into memory. -/
theorem map_entryAt {mem mem' : Int → UInt8} {c : Nat}
    (h : Loaded s 0 (s.table.clusterOffset c) s.table.bytesPerCluster mem mem') :
    (List.range' 0 (s.table.bytesPerCluster / 32)).map (entryAt mem') = clusterEntries s c := by
  unfold clusterEntries
  rw [← List.range_eq_range']
  refine List.map_congr_left fun i hi => ?_
  have hi' := List.mem_range.mp hi
  have hle := Nat.div_mul_le_self s.table.bytesPerCluster 32
  have hmul : (i + 1) * 32 ≤ s.table.bytesPerCluster / 32 * 32 := Nat.mul_le_mul_right 32 hi'
  unfold entryAt State.clusterEntry
  congr 1
  funext k
  have hk := k.isLt
  rw [h, if_pos ⟨by omega, by omega⟩]
  congr 1

/-- The entries of a cluster are those on the device. -/
theorem clusterEntries_congr {s' : State} (hdev : s'.dev = s.dev) (htable : s'.table = s.table) (c : Nat) :
    clusterEntries s' c = clusterEntries s c := by
  unfold clusterEntries State.clusterEntry
  rw [hdev, htable]

/-- One round of the loop: the cluster is read up to its end mark, and the loop asks for the next one. -/
theorem readChildrenFrom_round (env : Env) (hio : s.IoOk) {c : Nat} (heoc : ¬ FatTableIsEoc c)
    (hx : s.files.cell dir = some x) (fuel : Nat) (elems : List Nat) :
    ∃ cs s' b, readChildrenFrom env dir (fuel + 1) c elems s =
        (do
          let next ← fatTableGetNextCluster c
          readChildrenFrom env dir fuel next (elems ++ cs)) s' ∧
      s'.files.cell dir =
        some { x with nentries := (cutAtEnd (clusterEntries s c)).length, childrenRead := b } ∧
      Listed dir cs (childrenOf x (cutAtEnd (clusterEntries s c)) 0) s s' := by
  obtain ⟨mem', hread, hloaded⟩ := fullPread_run hio env.aroundBuffer s.table.bytesPerCluster_pos
    (s.table.clusterOffset c)
  have htail : Listed dir [] [] s { s with io := s.io.tail } := .tail hio
  obtain ⟨cs, s', n, b, hentries, hn, hcell, hlist⟩ := readEntriesFrom_run htail.ioOk hx
    mem' (s.table.bytesPerCluster / 32) 0 elems
  rw [map_entryAt hloaded] at hn hlist
  rw [Nat.zero_add] at hn
  subst hn
  have hall := htail.append (Heap.lt_next hx) hlist
  refine ⟨cs, s', b, ?_, hcell, hall⟩
  rw [readChildrenFrom, if_neg heoc, Cmd.get_bind]
  dsimp only
  rw [Cmd.bind_ok hread]
  dsimp only
  rw [if_neg (by simp)]
  unfold readClusterDirEntries
  rw [Cmd.bind_ok hentries]

/-- A round about a cluster that has an entry in the table goes on with the next one. -/
theorem readChildrenFrom_succ (env : Env) (hio : s.IoOk) {c : Nat} (heoc : ¬ FatTableIsEoc c)
    (hlt : c < s.table.fatLen) (hx : s.files.cell dir = some x) (fuel : Nat) (elems : List Nat) :
    ∃ cs s' b, readChildrenFrom env dir (fuel + 1) c elems s =
        readChildrenFrom env dir fuel (s.table.nextCluster c) (elems ++ cs) s' ∧
      s'.files.cell dir =
        some { x with nentries := (cutAtEnd (clusterEntries s c)).length, childrenRead := b } ∧
      Listed dir cs (childrenOf x (cutAtEnd (clusterEntries s c)) 0) s s' := by
  obtain ⟨cs, s', b, hround, hcell, hlist⟩ := readChildrenFrom_round env hio heoc hx fuel elems
  refine ⟨cs, s', b, ?_, hcell, hlist⟩
  rw [hround, Cmd.bind_ok (fatTableGetNextCluster_run (by rwa [hlist.table])), hlist.table]

/-- Every cluster is read up to an end mark of its own, with indices from 0 on. -/
theorem readChildrenFrom_run (env : Env) (hio : s.IoOk) {cur : Nat}
    (hl : Chain s.table.next (FatTable.cluster? cur) l) (hin : ∀ c ∈ l, c < s.table.fatLen)
    {fuel : Nat} (hfuel : l.length < fuel) (hx : s.files.cell dir = some x) (elems : List Nat) :
    ∃ cs s' n b, readChildrenFrom env dir fuel cur elems s =
        .ok (some (elems ++ cs)) s' ∧
      n = (l.getLast?.map fun c => (cutAtEnd (clusterEntries s c)).length).getD x.nentries ∧
      s'.files.cell dir = some { x with nentries := n, childrenRead := b } ∧
      Listed dir cs (l.flatMap fun c => childrenOf x (cutAtEnd (clusterEntries s c)) 0) s s' := by
  -- by induction on the chain; the counter left is that of the last cluster
  induction l generalizing s x cur fuel elems with
  | nil =>
      obtain ⟨fuel, rfl⟩ := Nat.exists_eq_succ_of_ne_zero (Nat.ne_of_gt hfuel)
      refine ⟨[], s, x.nentries, x.childrenRead, ?_, rfl, hx, .refl hio⟩
      rw [readChildrenFrom, if_pos (FatTable.cluster?_eq_none.mp hl), List.append_nil]
      rfl
  | cons c l ih =>
      obtain ⟨fuel, rfl⟩ := Nat.exists_eq_succ_of_ne_zero (Nat.ne_of_gt (Nat.zero_lt_of_lt hfuel))
      obtain ⟨hcur, hl⟩ := hl
      obtain ⟨heoc, rfl⟩ := FatTable.cluster?_eq_some.mp hcur
      obtain ⟨cs, s₂, b, hround, hcell, hfirst⟩ :=
        readChildrenFrom_succ env hio heoc (hin cur List.mem_cons_self) hx fuel elems
      have htable := hfirst.table
      have hsame := clusterEntries_congr hfirst.dev htable
      have hl₂ : Chain s₂.table.next (FatTable.cluster? (s.table.nextCluster cur)) l := by
        rw [htable]
        exact hl
      have hin₂ : ∀ d ∈ l, d < s₂.table.fatLen := fun d hd => by
        rw [htable]
        exact hin d (List.mem_cons_of_mem cur hd)
      obtain ⟨ds, s', m, b', hrest, hm, hcell', hlist'⟩ :=
        ih hfirst.ioOk hl₂ hin₂ (Nat.lt_of_succ_lt_succ hfuel) hcell (elems ++ cs)
      simp only [hsame] at hm hlist'
      refine ⟨cs ++ ds, s', m, b', ?_, ?_, hcell', ?_⟩
      · rw [hround, hrest, List.append_assoc]
      · rw [hm, List.getLast?_cons]
        cases l.getLast? with
        | none => rfl
        | some d => rfl
      · have hall := hfirst.append (Heap.lt_next hx) hlist'
        rw [List.flatMap_cons]
        exact hall

/-- What `fat_file_read_children` makes of a directory. -/
theorem fatFileReadChildren_run (env : Env) (hio : s.IoOk)
    (hx : s.files.cell dir = some x) (hv : s.table.IsValidClusterNumber x.startCluster)
    (hl : Chain s.table.next (FatTable.cluster? x.startCluster) l) (hin : ∀ c ∈ l, c < s.table.fatLen) :
    ∃ cs s' x', fatFileReadChildren env dir s = .ok cs s' ∧
      s'.files.cell dir = some x' ∧
      x'.nentries = (l.getLast?.map fun c => (cutAtEnd (clusterEntries s c)).length).getD x.nentries ∧
      Listed dir cs (l.flatMap fun c => childrenOf x (cutAtEnd (clusterEntries s c)) 0) s s' := by
  have hlen := FatTable.length_le_fatLen hin hl.nodup
  obtain ⟨cs, s', n, b, hrun, hn, hcell, hlist⟩ := readChildrenFrom_run env hio hl hin
    (show l.length < s.table.fatLen + s.io.length + 2 by omega) hx []
  have hmark := Listed.updated hlist.ioOk dir (fun f => { f with childrenRead := true }) fun x =>
    ⟨x.nentries, true, rfl⟩
  have hcell' := State.cell_updated_self hcell fun f => { f with childrenRead := true }
  refine ⟨cs, _, _, ?_, hcell', hn, ?_⟩
  · unfold fatFileReadChildren
    rw [Cmd.bind_ok (readFile_run hx), Cmd.get_bind, if_neg (not_not.mpr hv), Cmd.bind_ok hrun]
    dsimp only
    rw [Cmd.bind_ok (updateFile_run hcell _)]
    rfl
  · have hall := hlist.append (Heap.lt_next hx) hmark
    rwa [List.append_nil, List.append_nil] at hall

end ReadChain

/-! ## The reference -/

/-- `fat_file_read_children` makes exactly the children of the entries of the directory, with their
indices, and counts these entries. -/
def ReadsDirectory (env : Env) (dir : Nat) (x : FatFile) (l : List Nat) (s : State) : Prop :=
  ∃ cs s' x', fatFileReadChildren env dir s = .ok cs s' ∧ cs.Nodup ∧
    cs.map s'.files.cell = (childrenOf x (dirEntries s l) 0).map some ∧
    s'.files.cell dir = some x' ∧ x'.nentries = (dirEntries s l).length

/-- The clusters behind the first one have no child before an end mark of their own, and the last
cluster has as many entries before its end mark as the directory. -/
def ReadsAlike (s : State) (l : List Nat) : Prop :=
  (∀ c ∈ l.tail, ∀ e ∈ cutAtEnd (clusterEntries s c), ¬ e.Yields) ∧
    ∀ c, l.getLast? = some c → (cutAtEnd (clusterEntries s c)).length = (dirEntries s l).length

section Reference

variable {s : State} {dir : Nat} {x : FatFile} {c : Nat} {l : List Nat}

/-- The entries of the first cluster come first; if it has no end mark, those of the others follow. -/
theorem dirEntries_cons (s : State) (c : Nat) (l : List Nat) :
    ∃ rest, dirEntries s (c :: l) = cutAtEnd (clusterEntries s c) ++ rest ∧
      (rest = [] ∨ rest = dirEntries s l ∧
        (cutAtEnd (clusterEntries s c)).length = s.table.bytesPerCluster / 32) := by
  have hlen : (clusterEntries s c).length = s.table.bytesPerCluster / 32 := by
    rw [clusterEntries, List.length_map, List.length_range]
  unfold dirEntries
  rw [List.flatMap_cons]
  by_cases hfull : (cutAtEnd (clusterEntries s c)).length = (clusterEntries s c).length
  · have hall : cutAtEnd (clusterEntries s c) = clusterEntries s c :=
      (List.takeWhile_prefix _).eq_of_length hfull
    refine ⟨_, ?_, .inr ⟨rfl, hfull.trans hlen⟩⟩
    rw [hall]
    exact (List.takeWhile_append).trans (if_pos hfull)
  · refine ⟨[], ?_, .inl rfl⟩
    rw [List.append_nil]
    exact (List.takeWhile_append).trans (if_neg hfull)

/-- Every entry of the directory lies before the end mark of its cluster. -/
theorem exists_of_mem_dirEntries {e : DirEntry} (he : e ∈ dirEntries s l) :
    ∃ c ∈ l, e ∈ cutAtEnd (clusterEntries s c) := by
  induction l with
  | nil => cases he
  | cons c l ih =>
      obtain ⟨rest, hcons, hrest⟩ := dirEntries_cons s c l
      rw [hcons, List.mem_append] at he
      rcases he with he | he
      · exact ⟨c, List.mem_cons_self, he⟩
      · rcases hrest with rfl | ⟨rfl, -⟩
        · cases he
        · obtain ⟨d, hd, he⟩ := ih he
          exact ⟨d, List.mem_cons_of_mem c hd, he⟩

/-- Under the condition the children are those of the first cluster. -/
theorem ReadsAlike.childrenOf (h : ReadsAlike s (c :: l)) (x : FatFile) :
    ((c :: l).flatMap fun c => childrenOf x (cutAtEnd (clusterEntries s c)) 0) =
      childrenOf x (dirEntries s (c :: l)) 0 := by
  obtain ⟨rest, hcons, hrest⟩ := dirEntries_cons s c l
  have hlater : (l.flatMap fun c => OsLabs.Fat.childrenOf x (cutAtEnd (clusterEntries s c)) 0) = [] := by
    rw [List.flatMap_eq_nil_iff]
    exact fun d hd => childrenOf_eq_nil_iff.mpr (h.1 d hd)
  have hnone : ∀ e ∈ rest, ¬ e.Yields := by
    rcases hrest with rfl | ⟨rfl, -⟩
    · exact fun e he => absurd he List.not_mem_nil
    · intro e he
      obtain ⟨d, hd, he⟩ := exists_of_mem_dirEntries he
      exact h.1 d hd e he
  rw [List.flatMap_cons, hlater, hcons, childrenOf_append, childrenOf_eq_nil_iff.mpr hnone]

/-- Children of later clusters have positions below those of the reference. -/
theorem readsAlike_of_childrenOf
    (h : ((c :: l).flatMap fun c => childrenOf x (cutAtEnd (clusterEntries s c)) 0) =
      childrenOf x (dirEntries s (c :: l)) 0) :
    ∀ d ∈ l, ∀ e ∈ cutAtEnd (clusterEntries s d), ¬ e.Yields := by
  obtain ⟨rest, hcons, hrest⟩ := dirEntries_cons s c l
  rw [List.flatMap_cons, hcons, childrenOf_append, Nat.zero_add] at h
  have heq := List.append_cancel_left h
  have hlater : (l.flatMap fun c => childrenOf x (cutAtEnd (clusterEntries s c)) 0) = [] := by
    rw [List.eq_nil_iff_forall_not_mem]
    intro f hf
    have hf' := heq ▸ hf
    obtain ⟨d, -, hfd⟩ := List.mem_flatMap.mp hf
    have hpos := posInParent_mem_childrenOf hfd
    have hpos' := posInParent_mem_childrenOf hf'
    have hle : (cutAtEnd (clusterEntries s d)).length ≤ s.table.bytesPerCluster / 32 := by
      have hprefix : cutAtEnd (clusterEntries s d) <+: clusterEntries s d := List.takeWhile_prefix _
      have := hprefix.length_le
      rwa [clusterEntries, List.length_map, List.length_range] at this
    rcases hrest with rfl | ⟨-, hfull⟩
    · rw [childrenOf_nil] at hf'
      cases hf'
    · omega
  intro d hd
  exact childrenOf_eq_nil_iff.mp (List.flatMap_eq_nil_iff.mp hlater d hd)

/-- When the clusters read alike, the reader returns what the directory holds. -/
theorem readsDirectory_of_alike (env : Env) (hio : s.IoOk)
    (hx : s.files.cell dir = some x) (hv : s.table.IsValidClusterNumber x.startCluster)
    (hs : ¬ FatTableIsEoc x.startCluster) (hl : Chain s.table.next (some x.startCluster) l)
    (hin : ∀ c ∈ l, c < s.table.fatLen) (h : ReadsAlike s l) :
    ReadsDirectory env dir x l s := by
  obtain ⟨cs, s', x', hrun, hcell, hn, hlist⟩ :=
    fatFileReadChildren_run env hio hx hv (by rwa [FatTable.cluster?_of_not_isEoc hs]) hin
  cases l with
  | nil => cases hl
  | cons c l =>
      refine ⟨cs, s', x', hrun, hlist.nodup, ?_, hcell, ?_⟩
      · rw [hlist.made, h.childrenOf]
      · rw [hn, ← h.2 _ List.getLast?_cons, List.getLast?_cons]
        rfl

/-- When the reader returns what the directory holds, the clusters read alike. -/
theorem alike_of_readsDirectory (env : Env) (hio : s.IoOk)
    (hx : s.files.cell dir = some x) (hv : s.table.IsValidClusterNumber x.startCluster)
    (hs : ¬ FatTableIsEoc x.startCluster) (hl : Chain s.table.next (some x.startCluster) l)
    (hin : ∀ c ∈ l, c < s.table.fatLen) (h : ReadsDirectory env dir x l s) :
    ReadsAlike s l := by
  obtain ⟨cs, s', x', hrun, hcell, hn, hlist⟩ :=
    fatFileReadChildren_run env hio hx hv (by rwa [FatTable.cluster?_of_not_isEoc hs]) hin
  obtain ⟨cs', t', y, hrun', -, hmade, hcell', hcount⟩ := h
  cases hrun.symm.trans hrun'
  cases hcell.symm.trans hcell'
  have hchildren := hlist.made.symm.trans hmade
  rw [List.map_inj_right fun a b hab => Option.some.inj hab] at hchildren
  cases l with
  | nil => cases hl
  | cons c l =>
      refine ⟨readsAlike_of_childrenOf hchildren, fun d hd => ?_⟩
      rw [← hcount, hn, hd]
      rfl

/-- **Directory reading.** `fat_file_read_children` agrees with the reference just when the clusters
behind the first one have no children, and the last one has as many entries as the directory. Of the table
it is only supposed that the chain of the directory ends and has all its entries in it. -/
theorem fatFileReadChildren_readsDirectory_iff (env : Env) (hio : s.IoOk)
    (hx : s.files.cell dir = some x) (hv : s.table.IsValidClusterNumber x.startCluster)
    (hs : ¬ FatTableIsEoc x.startCluster) (hl : Chain s.table.next (some x.startCluster) l)
    (hin : ∀ c ∈ l, c < s.table.fatLen) : ReadsDirectory env dir x l s ↔ ReadsAlike s l :=
  ⟨alike_of_readsDirectory env hio hx hv hs hl hin, readsDirectory_of_alike env hio hx hv hs hl hin⟩

/-- A volume whose root directory has the clusters 2 and 4, with one entry each. -/
def twoClusterVolume : State where
  nodes := Heap.empty
  store := Heap.empty.alloc (fileAt 2 fileAttributeDirectory rootPath)
  errno := 0
  dev := ⟨fun i => if i = 32 ∨ i = 96 then 65 else 0, []⟩
  io := []
  tick := 0
  table := (smallTable.setEntry 2 4).setEntry 4 fatClusterEndOfChain
  fileTree := none

/-- The chain of the directory with two clusters. -/
theorem twoClusterVolume_isChain : twoClusterVolume.table.IsChain 2 [2, 4] :=
  FatTable.IsChain.extend (l := []) (smallTable_isChain (.inl rfl)) (by decide) (by decide)

/-- The same directory with clusters of two entries: one in the first cluster, and a deleted one in the second. -/
def deletedTailVolume : State :=
  { twoClusterVolume with
    dev := ⟨fun i => if i = 32 then 65 else if i = 160 then 0xe5 else 0, []⟩
    table := { twoClusterVolume.table with clusterOrder := 6 } }

/-- The chain of the directory whose second cluster begins with a deleted entry. -/
theorem deletedTailVolume_chain : Chain deletedTailVolume.table.next (some 2) [2, 4] := by
  have hnext : deletedTailVolume.table.next 2 = some 4 := by decide
  have hend : deletedTailVolume.table.next 4 = none := by decide
  exact ⟨rfl, hnext, hend⟩

/-- The second cluster has one entry before its end mark, like the directory, and it is no child. -/
theorem fatFileReadChildren_readsDirectory_deletedTailVolume :
    ReadsDirectory quietEnv 0 (fileAt 2 fileAttributeDirectory rootPath) [2, 4] deletedTailVolume :=
  (fatFileReadChildren_readsDirectory_iff quietEnv (fun _ h => absurd h List.not_mem_nil) rfl (by decide)
    (by decide) deletedTailVolume_chain (by decide)).mpr
      ⟨by decide, by decide⟩

/-- Of two entries in two clusters, the second one is not counted, and is taken for the first. -/
theorem not_readsDirectory_twoClusterVolume :
    ¬ ReadsDirectory quietEnv 0 (fileAt 2 fileAttributeDirectory rootPath) [2, 4] twoClusterVolume := by
  intro h
  have hio : twoClusterVolume.IoOk := fun _ h => absurd h List.not_mem_nil
  have halike := alike_of_readsDirectory quietEnv hio rfl (by decide) (by decide) twoClusterVolume_isChain.chain
    twoClusterVolume_isChain.lt_fatLen h
  exact absurd (halike.2 4 rfl) (by decide)

end Reference

end OsLabs.Fat
