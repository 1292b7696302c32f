import OsLabs.Fat.AnyTable
import OsLabs.Fat.ErrorNumbers
import OsLabs.Fat.Session
import OsLabs.Fat.ShortWrites

/-! # Removing a directory

`fat_fuse_rmdir` takes a directory for empty when the listing of its clusters yields no child, while
the children to protect are the nodes below its node in the file tree. `ListsRight` says that the two
agree, and that the listing leaves the counter of entries as it is. With all results of the device
calls:

* `fatFileReadChildren_listed`: what a listing that returned did, whether or not it was given up;
* `removeFile_errno`: what is behind the listing passes on the error numbers of the device;
* `rmdirRight_iff`: in every state reached, a removal is right exactly when its listing is. -/

namespace OsLabs.Fat

open Cmd Transition

/-! ## Listing with all device results -/

/-- A state with other device results to come and another error number. -/
def State.resume (io : List IoResult) (e : Int) (s : State) : State := { s with io := io, errno := e }

section Commutes

variable {io : List IoResult} {e : Int}

/-- Reading a file does not look at the device. -/
theorem commutes_readFile (file : Nat) : Commutes (State.resume io e) (readFile file) := by
  intro s
  have hsame : (s.resume io e).files.cell file = s.files.cell file := rfl
  cases hx : s.files.cell file with
  | none =>
      rw [readFile_error hx, readFile_error (hsame.trans hx)]
      rfl
  | some x =>
      rw [readFile_run hx, readFile_run (hsame.trans hx)]
      rfl

/-- Changing a file does not look at the device. -/
theorem commutes_updateFile (file : Nat) (f : FatFile → FatFile) :
    Commutes (State.resume io e) (updateFile file f) :=
  (commutes_readFile file).bind fun _ => commutes_modify fun _ => rfl

/-- Changing an entry does not look at the device. -/
theorem commutes_updateDentry (file : Nat) (g : DirEntry → DirEntry) :
    Commutes (State.resume io e) (updateDentry file g) := by
  have hread : Commutes (State.resume io e) (readDentry file) := by
    refine (commutes_readFile file).bind fun f => ?_
    split
    · exact commutes_pure _
    · exact commutes_throw _
  exact hread.bind fun d => commutes_updateFile file _

/-- Making a file from an entry does not look at the device. -/
theorem commutes_initFileFromDentry (dentry : DirEntry) (parent : Nat) :
    Commutes (State.resume io e) (initFileFromDentry dentry parent) :=
  (commutes_readFile parent).bind fun _ _ => rfl

/-- Destroying a file does not look at the device. -/
theorem commutes_fatFileDestroy (file : Nat) : Commutes (State.resume io e) (fatFileDestroy file) := by
  intro s
  cases hx : s.store.cell file with
  | none =>
      have hrun (t : State) (ht : t.store.cell file = none) :
          fatFileDestroy file t = .error .doubleFree t := by
        unfold fatFileDestroy liftTree modifyData
        rw [Cmd.get_bind]
        simp only [destroyFile, ht]
        rfl
      rw [hrun s hx, hrun (s.resume io e) hx]
      rfl
  | some f =>
      rw [fatFileDestroy_run (s := s) hx, fatFileDestroy_run (s := s.resume io e) hx]
      rfl

/-- Taking an entry up does not look at the device. -/
theorem commutes_readDirEntry (entry : DirEntry) (dir : Nat) :
    Commutes (State.resume io e) (readDirEntry entry dir) := by
  unfold readDirEntry
  refine commutes_ite (commutes_ite ?_ (commutes_pure _)) ?_
  · refine (commutes_initFileFromDentry _ dir).bind fun c => ?_
    refine (commutes_updateDentry c _).bind fun _ => (commutes_readFile c).bind fun f => ?_
    exact commutes_ite ((commutes_fatFileDestroy c).bind fun _ => commutes_pure _) (commutes_pure _)
  · exact (commutes_initFileFromDentry entry dir).bind fun c => commutes_pure _

/-- Going through the entries of a cluster takes no device call. -/
theorem commutes_readEntriesFrom (buffer : Int → UInt8) (dir left k : Nat) (elems : List Nat) :
    Commutes (State.resume io e) (readEntriesFrom buffer dir left k elems) := by
  induction left generalizing k elems with
  | zero => exact (commutes_updateFile dir _).bind fun _ => commutes_pure _
  | succ left ih =>
      rw [readEntriesFrom]
      refine (commutes_updateFile dir _).bind fun _ => commutes_ite ?_ ?_
      · exact (commutes_updateFile dir _).bind fun _ => (commutes_updateFile dir _).bind fun _ =>
          commutes_pure _
      · exact (commutes_readDirEntry _ dir).bind fun child => ih _ _

end Commutes

/-! ## What a listing finds -/

/-- The clusters that a listing of the directory goes through. -/
def State.listedClusters (s : State) (x : FatFile) : List Nat :=
  if s.table.IsValidClusterNumber x.startCluster then
    roundClusters s.table (s.table.fatLen + s.io.length + 2) x.startCluster
  else []

/-- Of the clusters `l` of `bytes` bytes, those that are read before a call falls short. -/
def wholeClusters (bytes : Nat) : List Nat → List IoResult → List Nat
  | [], _ => []
  | c :: l, io =>
      if (transferred io bytes).1 = bytes then c :: wholeClusters bytes l (transferred io bytes).2
      else []

/-- The entries in the last one of the clusters `l`, as a listing counts them. -/
def State.lastCount (s : State) (l : List Nat) (nentries : Nat) : Nat :=
  (l.getLast?.map fun c => (cutAtEnd (clusterEntries s c)).length).getD nentries

/-- No call of a listing is interrupted. -/
def State.ListsUninterrupted (s : State) (x : FatFile) : Prop :=
  OnlyChunksStop ((s.listedClusters x).map fun _ => .chunk s.table.bytesPerCluster) s.io

section Listing

variable {s s' t : State} {dir : Nat} {x : FatFile} {env : Env}

/-- `full_pread` returns the bytes moved. -/
theorem fullPread_transferred {n : Nat} (mem : Int → UInt8) (offset : Nat) (h : Uninterrupted s.io n) :
    ∃ mem' s', fullPread mem n offset s = .ok (((transferred s.io n).1 : Int), mem') s' ∧
      s'.dev = s.dev ∧ Loaded s 0 offset (transferred s.io n).1 mem mem' ∧
      AfterTransfer s.io n s s' := by
  obtain ⟨mem', s', hrun, hdev, hloaded, hafter⟩ := fullPreadLoop_uninterrupted mem 0 offset rfl
    (Nat.le_refl (s.io.length + 2)) h
  refine ⟨mem', s', ?_, hdev, hloaded, hafter⟩
  have hle := transferred_le s.io n
  unfold fullPread
  rw [Cmd.get_bind, ← Nat.cast_zero, Cmd.bind_ok hrun, Nat.cast_sub hle]
  show EStateM.Result.ok ((n : Int) - (n - ((transferred s.io n).1 : Int)), mem') s' = _
  rw [Int.sub_sub_self]

/-- A device call that keeps the device does not count. -/
theorem resume_of_onlyDevice (h : OnlyDevice s t) (hdev : t.dev = s.dev) :
    t.resume [] 0 = s.resume [] 0 := by
  unfold OnlyDevice at h
  rw [hdev] at h
  rw [h]
  rfl

/-- The entries of a cluster, with all results of the device calls. -/
theorem readEntriesFrom_resumed (hx : s.files.cell dir = some x) (buffer : Int → UInt8) (left : Nat)
    (elems : List Nat) :
    ∃ cs s' b, readEntriesFrom buffer dir left 0 elems s = .ok (elems ++ cs) s' ∧
      s'.io = s.io ∧ s'.errno = s.errno ∧
      s'.files.cell dir = some { x with
        nentries := (cutAtEnd ((List.range' 0 left).map (entryAt buffer))).length, childrenRead := b } ∧
      Listed dir cs (childrenOf x (cutAtEnd ((List.range' 0 left).map (entryAt buffer))) 0)
        (s.resume [] 0) (s'.resume [] 0) := by
  have hio : (s.resume [] 0).IoOk := by
    rintro r hr
    cases hr
  obtain ⟨cs, s', n, b, hrun, hn, hcell, hlist⟩ :=
    readEntriesFrom_run (s := s.resume [] 0) hio hx buffer left 0 elems
  have hcommutes : readEntriesFrom buffer dir left 0 elems ((s.resume [] 0).resume s.io s.errno) =
      mapFinal (State.resume s.io s.errno)
        (readEntriesFrom buffer dir left 0 elems (s.resume [] 0)) :=
    commutes_readEntriesFrom buffer dir left 0 elems (s.resume [] 0)
  rw [hrun] at hcommutes
  rw [Nat.zero_add] at hn
  subst hn
  -- without device calls the run from a quiet state ends in a quiet one
  have hquiet : s' = s'.resume [] 0 := by
    have hself : readEntriesFrom buffer dir left 0 elems (s.resume [] 0) =
        mapFinal (State.resume [] 0) (readEntriesFrom buffer dir left 0 elems (s.resume [] 0)) :=
      commutes_readEntriesFrom buffer dir left 0 elems (s.resume [] 0)
    rw [hrun] at hself
    injection hself
  have hsame : (s'.resume s.io s.errno).resume [] 0 = s' := hquiet.symm
  exact ⟨cs, s'.resume s.io s.errno, b, hcommutes, rfl, rfl, hcell, by rwa [hsame]⟩

/-- A transfer leaves a suffix of the results. -/
theorem transferred_suffix (io : List IoResult) (n : Nat) : (transferred io n).2 <:+ io := by
  induction io generalizing n with
  | nil => exact List.suffix_rfl
  | cons r rest ih =>
      have hrest : rest <:+ r :: rest := List.suffix_cons r rest
      cases r with
      | full =>
          unfold transferred
          split_ifs
          · exact List.suffix_rfl
          · exact hrest
      | fail e =>
          unfold transferred
          split_ifs
          · exact List.suffix_rfl
          · exact hrest
      | short k =>
          unfold transferred
          split
          · exact List.suffix_rfl
          · dsimp only
            split_ifs
            · exact hrest
            · exact hrest
            · exact (ih (n - k)).trans hrest

/-- The counter behind two runs of clusters. -/
theorem State.lastCount_cons (s : State) (c : Nat) (l : List Nat) (n : Nat) :
    s.lastCount (c :: l) n = s.lastCount l (cutAtEnd (clusterEntries s c)).length := by
  unfold State.lastCount
  rw [List.getLast?_cons]
  cases l.getLast? with
  | none => rfl
  | some d => rfl

/-- The counter depends on the device and on the FAT. -/
theorem State.lastCount_congr (hdev : t.dev = s.dev) (htable : t.table = s.table) (l : List Nat) (n : Nat) :
    t.lastCount l n = s.lastCount l n := by
  unfold State.lastCount
  simp only [clusterEntries_congr hdev htable]

/-- How the loop of a listing goes on from the state `s`, if it returns `r` in the state `s'`: the
files it makes are those of the clusters read whole, and the last of these is the one whose entries are
counted. -/
structure ListingRun (dir : Nat) (x : FatFile) (l : List Nat) (elems : List Nat) (s : State)
    (r : Option (List Nat)) (s' : State) (cs : List Nat) : Prop where
  io : s'.io <:+ s.io
  cell : ∃ b, s'.files.cell dir = some { x with
    nentries := s.lastCount (wholeClusters s.table.bytesPerCluster l s.io) x.nentries
    childrenRead := b }
  listed : Listed dir cs ((wholeClusters s.table.bytesPerCluster l s.io).flatMap fun c =>
    childrenOf x (cutAtEnd (clusterEntries s c)) 0) (s.resume [] 0) (s'.resume [] 0)
  result : (r = none ∧ s'.errno = eio) ∨
    r = some (elems ++ cs) ∧ wholeClusters s.table.bytesPerCluster l s.io = l ∧ s'.errno = s.errno

/-- With no results left every call is carried out whole. -/
theorem resume_ioOk (s : State) (e : Int) : (s.resume [] e).IoOk := by
  rintro r hr
  cases hr

/-- A round that reads its cluster whole, and the rounds after it. -/
theorem ListingRun.cons {c : Nat} {l elems cs ds : List Nat} {b : Bool} {r : Option (List Nat)}
    (hx : s.files.cell dir = some x)
    (hwhole : (transferred s.io s.table.bytesPerCluster).1 = s.table.bytesPerCluster)
    (hio : t.io = (transferred s.io s.table.bytesPerCluster).2) (herrno : t.errno = s.errno)
    (hfirst : Listed dir cs (childrenOf x (cutAtEnd (clusterEntries s c)) 0) (s.resume [] 0)
      (t.resume [] 0))
    (h : ListingRun dir { x with
      nentries := (cutAtEnd (clusterEntries s c)).length, childrenRead := b } l (elems ++ cs) t r s' ds) :
    ListingRun dir x (c :: l) elems s r s' (cs ++ ds) := by
  have htable : t.table = s.table := hfirst.table
  have hdev : t.dev = s.dev := hfirst.dev
  have hclusters : wholeClusters s.table.bytesPerCluster (c :: l) s.io =
      c :: wholeClusters t.table.bytesPerCluster l t.io := by
    rw [wholeClusters, if_pos hwhole, htable, hio]
  refine ⟨?_, ?_, ?_, ?_⟩
  · have hsuffix := transferred_suffix s.io s.table.bytesPerCluster
    rw [← hio] at hsuffix
    exact h.io.trans hsuffix
  · obtain ⟨b', hcell⟩ := h.cell
    rw [hclusters, State.lastCount_cons, ← State.lastCount_congr hdev htable]
    exact ⟨b', hcell⟩
  · rw [hclusters, List.flatMap_cons]
    have hlater := h.listed
    simp only [clusterEntries_congr hdev htable] at hlater
    exact hfirst.append (Heap.lt_next hx) hlater
  · rcases h.result with hnone | ⟨hr, hl, herr⟩
    · exact .inl hnone
    · refine .inr ⟨?_, ?_, herr.trans herrno⟩
      · rw [hr, List.append_assoc]
      · rw [hclusters, hl]

/-- A listing that answers has read a prefix of the clusters, each whole or not at all. -/
theorem readChildrenFrom_listed {fuel c : Nat} {elems : List Nat} {r : Option (List Nat)}
    (hx : s.files.cell dir = some x)
    (hio : OnlyChunksStop ((roundClusters s.table fuel c).map fun _ => .chunk s.table.bytesPerCluster)
      s.io)
    (hrun : readChildrenFrom env dir fuel c elems s = .ok r s') :
    ∃ cs, ListingRun dir x (roundClusters s.table fuel c) elems s r s' cs := by
  induction fuel generalizing s x c elems with
  | zero => cases hrun
  | succ fuel ih =>
      -- one round: the listing ends, or reads a whole cluster and goes on, or gives up with `EIO`
      rw [readChildrenFrom, ite_run] at hrun
      rw [roundClusters] at hio ⊢
      by_cases hend : FatTableIsEoc c
      · rw [if_pos hend] at hrun ⊢
        cases hrun
        refine ⟨[], List.suffix_rfl, ⟨x.childrenRead, hx⟩, .refl (resume_ioOk _ _), .inr ⟨?_, rfl, rfl⟩⟩
        rw [List.append_nil]
      rw [if_neg hend] at hrun hio ⊢
      rw [Cmd.get_bind] at hrun
      obtain ⟨hun, hio⟩ := hio
      obtain ⟨mem', t, hread, hdev, hloaded, hafter⟩ :=
        fullPread_transferred env.aroundBuffer (s.table.clusterOffset c) hun
      have hquiet := resume_of_onlyDevice hafter.only hdev
      -- the read moves device results and bytes of the buffer, and no file
      have hxt : t.files.cell dir = some x := by
        rw [hafter.only.files]
        exact hx
      dsimp only at hrun
      rw [Cmd.bind_ok hread] at hrun
      dsimp only at hrun
      by_cases hwhole : (transferred s.io s.table.bytesPerCluster).1 = s.table.bytesPerCluster
      · have hio' := hio hwhole
        rw [hwhole, if_neg (not_not.mpr rfl)] at hrun
        rw [hwhole] at hloaded
        obtain ⟨cs, u, b, hentries, huio, huerr, hcell, hfirst⟩ :=
          readEntriesFrom_resumed hxt mem' (s.table.bytesPerCluster / 32) elems
        rw [map_entryAt hloaded] at hcell hfirst
        rw [hquiet] at hfirst
        unfold readClusterDirEntries at hrun
        rw [Cmd.bind_ok hentries] at hrun
        obtain ⟨next, v, hnext, hrun⟩ := Cmd.bind_eq_ok.mp hrun
        obtain ⟨rfl, rfl, -⟩ := fatTableGetNextCluster_eq_ok hnext
        have htable : v.table = s.table := hfirst.table
        have hvio : v.io = (transferred s.io s.table.bytesPerCluster).2 := huio.trans hafter.io_eq
        rw [← hvio, ← htable] at hio'
        obtain ⟨ds, hrest⟩ := ih hcell hio' hrun
        rw [htable] at hrest
        exact ⟨cs ++ ds, hrest.cons hx hwhole hvio (huerr.trans (hafter.errno hwhole)) hfirst⟩
      -- a short read: nothing of this cluster is listed
      · rw [if_pos (by exact_mod_cast hwhole)] at hrun
        obtain ⟨⟨⟩, u, hset, hrun⟩ := Cmd.bind_eq_ok.mp hrun
        cases hset
        cases hrun
        have hnone : ∀ l, wholeClusters s.table.bytesPerCluster (c :: l) s.io = [] := fun l => by
          rw [wholeClusters, if_neg hwhole]
        refine ⟨[], ?_, ⟨x.childrenRead, ?_⟩, ?_, .inl ⟨rfl, rfl⟩⟩
        · show t.io <:+ s.io
          rw [hafter.io_eq]
          exact transferred_suffix _ _
        · rw [hnone]
          exact hxt
        · rw [hnone]
          show Listed dir [] [] (s.resume [] 0) (t.resume [] 0)
          rw [hquiet]
          exact .refl (resume_ioOk _ _)

/-- What `fat_file_read_children` does, with all results of the device calls. -/
theorem fatFileReadChildren_listed {cs : List Nat} (hx : s.files.cell dir = some x)
    (hio : s.ListsUninterrupted x) (hrun : fatFileReadChildren env dir s = .ok cs s') :
    ∃ r made, ListingRun dir x (s.listedClusters x) [] s r s' made ∧ cs = r.getD [] := by
  unfold State.ListsUninterrupted at hio
  unfold State.listedClusters at hio ⊢
  unfold fatFileReadChildren at hrun
  rw [Cmd.bind_ok (readFile_run hx), Cmd.get_bind, ite_run] at hrun
  by_cases hv : s.table.IsValidClusterNumber x.startCluster
  · rw [if_neg (not_not.mpr hv)] at hrun
    rw [if_pos hv] at hio ⊢
    obtain ⟨r, t, hread, hrun⟩ := Cmd.bind_eq_ok.mp hrun
    obtain ⟨made, hlisting⟩ := readChildrenFrom_listed hx hio hread
    cases r with
    | none =>
        cases hrun
        exact ⟨none, made, hlisting, rfl⟩
    | some l =>
        dsimp only at hrun
        obtain ⟨b, hcell⟩ := hlisting.cell
        rw [Cmd.bind_ok (updateFile_run hcell _)] at hrun
        cases hrun
        have hmark := Listed.updated (s := t.resume [] 0) (resume_ioOk _ _) dir
          (fun f => { f with childrenRead := true }) fun y => ⟨y.nentries, true, rfl⟩
        have hall := Listed.append (s := s.resume [] 0) (Heap.lt_next hx) hlisting.listed hmark
        rw [List.append_nil, List.append_nil] at hall
        have hcell' := State.cell_updated_self hcell fun f => { f with childrenRead := true }
        exact ⟨some _, made, ⟨hlisting.io, ⟨true, hcell'⟩, hall, hlisting.result⟩, rfl⟩
  · rw [if_pos hv] at hrun
    rw [if_neg hv] at hio ⊢
    cases hrun
    refine ⟨none, [], ⟨List.suffix_rfl, ⟨x.childrenRead, hx⟩, .refl (resume_ioOk _ _), .inl ⟨rfl, rfl⟩⟩,
      rfl⟩

end Listing

/-! ## The error number of a removal -/

section TreeFrame

variable {α β κ : Type} {R : HMem α β → HMem α β → Prop} [Std.Refl R] [IsTrans _ R]

/-- Counting the nodes keeps what does not look at the links. -/
theorem within_updateSize (hnodes : ∀ m nodes, R m { m with nodes := nodes }) (r : Nat) :
    Within R (updateSize r : HM α β PUnit) := by
  have hsize (p : Ptr) : Within R (hTreeSize p : HM α β Int) := by
    cases p with
    | none => exact Cmd.within_pure _
    | some r => exact (within_deref R r).bind fun _ => Cmd.within_pure _
  refine (within_deref R r).bind fun node => (hsize _).bind fun _ => (hsize _).bind fun _ => ?_
  exact within_setNode fun m => hnodes m _

/-- Taking a child out keeps what does not look at the links. -/
theorem within_removeChild (hnodes : ∀ m nodes, R m { m with nodes := nodes })
    (herrno : ∀ m, R m { m with errno := einval }) (r : Nat) :
    Within R (removeChildFromH r : HM α β PUnit) := by
  have hset (r : Nat) (f : HNode α → HNode α) : Within R (setNode r f : HM α β PUnit) :=
    within_setNode fun m => hnodes m _
  have hloop (next : Ptr) (fuel iter : Nat) :
      Within R (unlinkSibling r next fuel iter : HM α β PUnit) := by
    induction fuel generalizing iter with
    | zero => exact Cmd.within_throw _
    | succ fuel ih =>
        refine (within_deref R iter).bind fun node => ?_
        cases node.hNextSibling with
        | none => exact hset iter _
        | some sibling => exact Cmd.within_ite (fun _ => hset iter _) fun _ => ih sibling
  refine (within_deref R r).bind fun child => ?_
  cases child.hParent with
  | none => exact Cmd.within_pure _
  | some p =>
      refine (within_deref R p).bind fun parent => ?_
      cases parent.hChildren with
      | none => exact Cmd.within_modify herrno
      | some iter =>
          refine Cmd.within_ite (fun _ => hset p _) fun _ => ?_
          exact Cmd.within_get.bind fun m => hloop _ _ iter

/-- A frame that allows changes of the nodes, the error of the tree and the destruction of data is one
of `delete_root`. -/
theorem within_deleteRoot (hnodes : ∀ m nodes, R m { m with nodes := nodes })
    {dataDestroy : DataModifyFn α β}
    (hdata : ∀ data, Within R (modifyData dataDestroy data : HM α β PUnit)) (fuel r : Nat) :
    Within R (deleteRoot dataDestroy fuel r) := by
  -- every change is one of a node, of the data, or a free
  have hset (r : Nat) (f : HNode α → HNode α) : Within R (setNode r f : HM α β PUnit) :=
    within_setNode fun m => hnodes m _
  have hfree (r : Nat) : Within R (freeNode r : HM α β PUnit) :=
    (within_deref R r).bind fun _ => Cmd.within_modify fun m => hnodes m _
  have hwalk (fuel minimum minimumParent : Nat) :
      Within R (walkToMinimum fuel minimum minimumParent : HM α β (Nat × Nat)) := by
    induction fuel generalizing minimum minimumParent with
    | zero => exact Cmd.within_throw _
    | succ fuel ih =>
        refine (within_deref R minimum).bind fun node => ?_
        cases node.left with
        | none => exact Cmd.within_pure _
        | some left => exact (hset left _).bind fun _ => ih left left
  have hswap (a b : Nat) : Within R (swapNodes a b : HM α β PUnit) :=
    (within_deref R a).bind fun _ => (within_deref R b).bind fun _ => (hset a _).bind fun _ =>
      (hset b _).bind fun _ => (within_updateSize hnodes b).bind fun _ => within_updateSize hnodes a
  -- the successor takes the place of the root, and the deletion goes on in the old place
  induction fuel generalizing r with
  | zero => exact Cmd.within_throw _
  | succ fuel ih =>
      rw [deleteRoot]
      refine (within_deref R r).bind fun node => (hdata _).bind fun _ => ?_
      cases node.left with
      | none => exact (hfree r).bind fun _ => Cmd.within_pure _
      | some left =>
          cases node.right with
          | none => exact (hfree r).bind fun _ => Cmd.within_pure _
          | some mr =>
              refine (within_deref R mr).bind fun parent => ?_
              cases parent.left with
              | none =>
                  refine (hset mr _).bind fun _ => (within_updateSize hnodes mr).bind fun _ => ?_
                  exact (hfree r).bind fun _ => Cmd.within_pure _
              | some first =>
                  refine (hset mr _).bind fun _ => Cmd.within_get.bind fun m => ?_
                  refine (hwalk _ first mr).bind fun w => (hswap r w.1).bind fun _ => ?_
                  exact (ih r).bind fun rest => (hset w.2 _).bind fun _ => Cmd.within_pure _

/-- It is one of a deletion, too. -/
theorem within_hTreeDelete (hnodes : ∀ m nodes, R m { m with nodes := nodes })
    (herrno : ∀ m, R m { m with errno := einval }) {dataDestroy : DataModifyFn α β}
    (hdata : ∀ data, Within R (modifyData dataDestroy data : HM α β PUnit)) (key : κ)
    (cmp : DataCmpFn α β κ) (fuel : Nat) (p : Ptr) :
    Within R (hTreeDelete key cmp dataDestroy fuel p) := by
  induction fuel generalizing p with
  | zero => exact Cmd.within_throw _
  | succ fuel ih =>
      cases p with
      | none => exact Cmd.within_pure _
      | some r =>
          have hset (f : HNode α → HNode α) : Within R (setNode r f : HM α β PUnit) :=
            within_setNode fun m => hnodes m _
          rw [hTreeDelete]
          refine (within_deref R r).bind fun node => (within_compareData _).bind fun c => ?_
          refine Cmd.within_ite (fun _ => ?_) fun _ => Cmd.within_ite (fun _ => ?_) fun _ => ?_
          · exact (within_removeChild hnodes herrno r).bind fun _ =>
              within_deleteRoot hnodes hdata 2 r
          · exact (ih node.right).bind fun right => (hset _).bind fun _ =>
              (within_updateSize hnodes r).bind fun _ => Cmd.within_pure _
          · exact (ih node.left).bind fun left => (hset _).bind fun _ =>
              (within_updateSize hnodes r).bind fun _ => Cmd.within_pure _

end TreeFrame

/-- The tree reports an invalid argument at most. -/
theorem errnoFrom_fatTreeDelete (path : CString) : Within ErrnoFrom (fatTreeDelete path) := by
  refine Cmd.within_get_bind fun s => ?_
  cases s.fileTree with
  | none => exact errnoFrom_setErrno (.inr (.inr rfl)) s
  | some p =>
      cases p with
      | none => exact Std.Refl.refl s
      | some root =>
          -- of the memory of the tree, only its error number is looked at
          let R (m m' : HMem Nat (Heap FatFile)) : Prop := m'.errno = m.errno ∨ m'.errno = einval
          have hrefl : Std.Refl R := ⟨fun _ => .inl rfl⟩
          have htrans : IsTrans _ R := ⟨fun m m' m'' h h' => by
            rcases h' with h' | h'
            · rcases h with h | h
              · exact .inl (h'.trans h)
              · exact .inr (h'.trans h)
            · exact .inr h'⟩
          have hdelete : Within R (hTreeDelete path fatFileCmpPath destroyFile (s.nodes.next + 1)
              (some root)) := by
            refine within_hTreeDelete (fun m nodes => .inl rfl) (fun m => .inr rfl) (fun data => ?_) _ _ _ _
            refine Cmd.within_get_bind fun m => ?_
            cases destroyFile data m.store with
            | error e => exact .inl rfl
            | ok store => exact .inl rfl
          have hlift : Within ErrnoFrom (liftTree (hTreeDelete path fatFileCmpPath destroyFile
              (s.nodes.next + 1) (some root))) := by
            -- lifting the call to the whole state uses no device result up
            intro t
            have hall := hdelete t.toHMem
            unfold liftTree
            cases hrun : hTreeDelete path fatFileCmpPath destroyFile (s.nodes.next + 1) (some root)
                t.toHMem with
            | ok q m =>
                rw [hrun] at hall
                exact ⟨[], rfl, hall.imp id fun h => .inr (.inr (.inl h))⟩
            | error e m =>
                rw [hrun] at hall
                exact ⟨[], rfl, hall.imp id fun h => .inr (.inr (.inl h))⟩
          have hroot (q : Ptr) : Within ErrnoFrom (modify fun s => { s with fileTree := some q } : M PUnit) :=
            errnoFrom_modify (fun _ => rfl) fun _ => rfl
          exact (hlift.bind hroot) s

/-- Behind its listing a removal reports what went wrong, if anything did. -/
theorem removeFile_errno {path : CString} {file : Nat} {parent : Ptr} {s u : State} {r : Int}
    (hrun : removeFile path file parent s = .ok r u) : r = -u.errno ∧ ErrnoFrom s u := by
  obtain ⟨f, -, hrun⟩ := readFile_bind_eq_ok hrun
  obtain ⟨⟨⟩, s₁, hfree, hrun⟩ := bind_eq_ok.mp hrun
  obtain ⟨⟨⟩, s₂, hsize, hrun⟩ := bind_eq_ok.mp hrun
  obtain ⟨⟨⟩, s₃, hchild, hrun⟩ := bind_eq_ok.mp hrun
  obtain ⟨⟨⟩, s₄, hdelete, hrun⟩ := bind_eq_ok.mp hrun
  cases hrun
  have hremove : Within ErrnoFrom (fatFileDentryRemoveChild parent file) :=
    (errnoFrom_updateDentry _ _).bind fun _ => (within_readFile _).bind fun _ =>
      (within_readDentry _).bind fun _ => errnoFrom_writeDirEntry _ _ _
  have h₁ := (errnoFrom_freeChain _).ok hfree
  have h₂ := (errnoFrom_updateDentry _ _).ok hsize
  have h₃ := hremove.ok hchild
  have h₄ := (errnoFrom_fatTreeDelete _).ok hdelete
  exact ⟨rfl, IsTrans.trans _ _ _ h₁ (IsTrans.trans _ _ _ h₂ (IsTrans.trans _ _ _ h₃ h₄))⟩

/-! ## Removals -/

/-- Some entry of the clusters yields a child. -/
def State.ListsChild (s : State) (x : FatFile) : Prop :=
  ∃ c ∈ s.listedClusters x, ∃ entry ∈ cutAtEnd (clusterEntries s c), entry.Yields

instance (s : State) (x : FatFile) : Decidable (s.ListsChild x) :=
  inferInstanceAs (Decidable (∃ c ∈ s.listedClusters x, _))

/-- The listing of the directory with the file `x` at the node `a` sees that it has children, if it
has, and leaves its counter alone if it sees some. -/
structure ListsRight (s : State) (a : Nat) (x : FatFile) : Prop where
  sees : (∃ b d, s.treeEntry b = some d ∧ d.parent = some a) → s.ListsChild x
  counts : s.ListsChild x → s.lastCount (s.listedClusters x) x.nentries = x.nentries

/-- The condition on the state before a removal: it is about the directory with the path. -/
def RmdirSafe (s : State) (path : CString) : Prop :=
  ∀ a e x, s.treeEntry a = some e → e.path = path → s.files.cell e.file = some x → ListsRight s a x

/-- No device call is interrupted during the listing, and none of those that the removal makes from `s`
to `u` reports that a directory is not empty. -/
structure QuietDevice (s u : State) (path : CString) : Prop where
  uninterrupted : ∀ a e x, s.treeEntry a = some e → e.path = path → s.files.cell e.file = some x →
    s.ListsUninterrupted x
  otherErrors : ∀ used, s.io = used ++ u.io → IoResult.fail 38 ∉ used

/-- A removal from `s` to `u` that returns 0 is that of a node without children, and leaves no node
behind that it was the parent of. One that returns `-ENOTEMPTY` leaves the tree, the table, the counter
of the directory and the device alone. -/
structure RmdirRight (s : State) (path : CString) (r : Int) (u : State) : Prop where
  childless : r = 0 → ∀ a, PathAt s.treeEntry a path →
    (∀ b d, s.treeEntry b = some d → d.parent ≠ some a) ∧ ∀ b d, u.treeEntry b = some d → d.parent ≠ some a
  unchanged : r = -enotempty →
    u.treeEntry = s.treeEntry ∧ u.nodes = s.nodes ∧ u.fileTree = s.fileTree ∧ u.table = s.table ∧
      u.dev = s.dev ∧ ∀ a e x, s.treeEntry a = some e → e.path = path → s.files.cell e.file = some x →
        ∃ x', u.files.cell e.file = some x' ∧ x'.nentries = x.nentries

section Removal

variable {env : Env} {s u : State} {path : CString} {r : Int}

/-- A listing without children lists no entry that yields one. -/
theorem not_listsChild {dir : Nat} {x : FatFile} {s' : State} {cs : List Nat}
    (h : ListingRun dir x (s.listedClusters x) [] s (some []) s' cs) : ¬ s.ListsChild x := by
  rintro ⟨c, hc, entry, hentry, hyields⟩
  rcases h.result with ⟨hnone, -⟩ | ⟨hsome, hall, -⟩
  · cases hnone
  · have hcs : cs = [] := by simpa using hsome.symm
    have hmade := h.listed.made
    rw [hcs, hall] at hmade
    have hnil := List.map_eq_nil_iff.mp hmade.symm
    have hnone := List.flatMap_eq_nil_iff.mp hnil c hc
    exact childrenOf_eq_nil_iff.mp hnone entry hentry hyields

/-- One with children lists such an entry. -/
theorem listsChild_of_ne_nil {dir : Nat} {x : FatFile} {s' : State} {cs : List Nat}
    (h : Listed dir cs ((s.listedClusters x).flatMap fun c =>
      childrenOf x (cutAtEnd (clusterEntries s c)) 0) (s.resume [] 0) (s'.resume [] 0))
    (hcs : cs ≠ []) : s.ListsChild x := by
  by_contra hno
  refine hcs ?_
  have hnil : ((s.listedClusters x).flatMap fun c =>
      childrenOf x (cutAtEnd (clusterEntries s c)) 0) = [] := by
    rw [List.flatMap_eq_nil_iff]
    intro c hc
    rw [childrenOf_eq_nil_iff]
    intro entry hentry hyields
    exact hno ⟨c, hc, entry, hentry, hyields⟩
  have hmade := h.made
  rw [hnil] at hmade
  exact List.map_eq_nil_iff.mp hmade

/-- A removal that returns 0 has listed no child; one that returns `-ENOTEMPTY` has, and has changed
nothing but the counter of the directory, which is now that of the last cluster. -/
inductive RmdirOutcome (s : State) (a : Nat) (e : TreeEntry) (x : FatFile) (r : Int) (u : State) : Prop
  | removed (result : r = 0) (empty : ¬ s.ListsChild x)
  | notEmpty (result : r = -enotempty) (child : s.ListsChild x) (entries : u.treeEntry = s.treeEntry)
      (nodes : u.nodes = s.nodes) (fileTree : u.fileTree = s.fileTree) (table : u.table = s.table)
      (dev : u.dev = s.dev) (cell : ∃ b, u.files.cell e.file = some { x with
        nentries := s.lastCount (s.listedClusters x) x.nentries
        childrenRead := b })

/-- What `rmdir` answers 0 or `-ENOTEMPTY` for. -/
theorem rmdir_outcome (h : s.TreeWf) (hdev : QuietDevice s u path)
    (hrun : fatFuseRmdir env path s = .ok r u) (hr : r = 0 ∨ r = -enotempty) :
    ∃ a e x, s.treeEntry a = some e ∧ e.path = path ∧ s.files.cell e.file = some x ∧
      RmdirOutcome s a e x r u := by
  cases fatFuseRmdir_run h hrun with
  | refused result _ _ =>
      rcases result with rfl | rfl
      · exact absurd hr (by decide)
      · exact absurd hr (by decide)
  | listed a e parent children t he hpath _ _ hread houtcome =>
      obtain ⟨node, x, hnode, hx, rfl⟩ := treeEntry_eq_some he
      refine ⟨a, _, x, he, hpath, hx, ?_⟩
      obtain ⟨result, made, hlisting, rfl⟩ := fatFileReadChildren_listed (s := { s with errno := 0 }) hx
        (hdev.uninterrupted a _ x he hpath hx) hread
      obtain ⟨hsome, rfl, rfl⟩ | ⟨hempty, hremove⟩ := houtcome
      · -- the listing was read to its end
        rcases hlisting.result with ⟨rfl, -⟩ | ⟨rfl, hwhole, -⟩
        · exact absurd rfl hsome
        have hk₀ : KeepsEntries s { s with errno := 0 } := keepsEntries_of_eq rfl rfl rfl
        have hdir : FileAt { s with errno := 0 } node.data x.filepath := ⟨x, hx, rfl⟩
        have hkeeps := hk₀.trans (fatFileReadChildren_ok hdir hread).keeps
        have hlisted := hlisting.listed
        obtain ⟨b, hcell⟩ := hlisting.cell
        rw [hwhole] at hlisted hcell
        have hnodes := congrArg (fun v : State => v.nodes) hlisted.frame
        exact .notEmpty rfl (listsChild_of_ne_nil (s := { s with errno := 0 }) hlisted hsome)
          (hkeeps.treeEntry_eq h) hnodes hkeeps.fileTree hlisted.table hlisted.dev ⟨b, hcell⟩
      -- `rmdir` went on to the removal: the listing was empty, or was given up
      · obtain ⟨hret, herrno⟩ := removeFile_errno hremove
        have hne : u.errno ≠ enotempty := by
          refine herrno.ne_enotempty ?_ fun used hused hmem => ?_
          · rcases hlisting.result with ⟨-, heio⟩ | ⟨-, -, hzero⟩
            · rw [heio]
              decide
            · rw [hzero]
              exact (by decide : (0 : Int) ≠ enotempty)
          · -- what the removal used comes behind what the listing used
            obtain ⟨first, hfirst⟩ := hlisting.io
            refine hdev.otherErrors (first ++ used) ?_ (List.mem_append_right first hmem)
            rw [List.append_assoc, ← hused]
            exact hfirst.symm
        obtain rfl : r = 0 := hr.resolve_right fun hr => hne (neg_inj.mp (hret.symm.trans hr))
        refine .removed rfl ?_
        rcases hlisting.result with ⟨-, heio⟩ | ⟨rfl, -⟩
        · -- a listing that was given up is reported in the end
          have hbad := herrno.ne_zero (by rw [heio]; decide)
          omega
        · have hnil : [] ++ made = [] := hempty
          rw [hnil] at hlisting
          exact not_listsChild (s := { s with errno := 0 }) hlisting

/-- A removal that returns 0 leaves no other node out. -/
theorem rmdir_entries (h : s.TreeWf) (hrun : fatFuseRmdir env path s = .ok r u) {b : Nat} {d : TreeEntry}
    (hd : u.treeEntry b = some d) : s.treeEntry b = some d := by
  obtain ⟨-, ⟨heq, -⟩ | ⟨a, -, heq⟩⟩ := fatFuseRmdir_ok h hrun
  · rwa [← heq]
  · rw [heq] at hd
    by_cases hb : b = a
    · rw [hb, Function.update_self] at hd
      cases hd
    · rwa [Function.update_of_ne hb] at hd

/-- `rmdir` is right in a well-formed tree just in the states described. -/
theorem rmdirRight_iff_of_treeWf (h : s.TreeWf) (hdev : QuietDevice s u path)
    (hrun : fatFuseRmdir env path s = .ok r u) (hr : r = 0 ∨ r = -enotempty) :
    RmdirRight s path r u ↔ RmdirSafe s path := by
  obtain ⟨a, e, x, he, hpath, hx, houtcome⟩ := rmdir_outcome h hdev hrun hr
  -- there is one node with the path
  have hone {a' : Nat} {e' : TreeEntry} (he' : s.treeEntry a' = some e') (hpath' : e'.path = path) :
      a' = a ∧ e' = e := by
    obtain ⟨p, tr, hok⟩ := h
    obtain rfl := hok.path_inj ⟨e', he', hpath'⟩ ⟨e, he, hpath⟩
    rw [he] at he'
    exact ⟨rfl, (Option.some.inj he').symm⟩
  cases houtcome with
  | removed result empty =>
      subst result
      constructor
      · intro hright a' e' x' he' hpath' hx'
        obtain ⟨rfl, rfl⟩ := hone he' hpath'
        rw [hx] at hx'
        cases hx'
        have hno := (hright.childless rfl a' ⟨e', he, hpath⟩).1
        exact ⟨fun ⟨b, d, hd, hparent⟩ => absurd hparent (hno b d hd), fun hchild => absurd hchild empty⟩
      · intro hsafe
        refine ⟨fun _ a' ha' => ?_, fun hr => absurd hr (by decide)⟩
        obtain ⟨e', he', hpath'⟩ := ha'
        obtain ⟨rfl, rfl⟩ := hone he' hpath'
        have hbefore (b : Nat) (d : TreeEntry) (hd : s.treeEntry b = some d) : d.parent ≠ some a' :=
          fun hparent => empty ((hsafe a' e' x he hpath hx).sees ⟨b, d, hd, hparent⟩)
        exact ⟨hbefore, fun b d hd => hbefore b d (rmdir_entries h hrun hd)⟩
  | notEmpty result child entries nodes fileTree table dev cell =>
      subst result
      obtain ⟨b, hcell⟩ := cell
      constructor
      · intro hright a' e' x' he' hpath' hx'
        obtain ⟨rfl, rfl⟩ := hone he' hpath'
        rw [hx] at hx'
        cases hx'
        obtain ⟨-, -, -, -, -, hcount⟩ := hright.unchanged rfl
        obtain ⟨x', hx', hsame⟩ := hcount a' e' x he hpath hx
        rw [hcell] at hx'
        cases hx'
        exact ⟨fun _ => child, fun _ => hsame⟩
      · intro hsafe
        refine ⟨fun hr => absurd hr (by decide), fun _ => ⟨entries, nodes, fileTree, table, dev,
          fun a' e' x' he' hpath' hx' => ?_⟩⟩
        obtain ⟨rfl, rfl⟩ := hone he' hpath'
        rw [hx] at hx'
        cases hx'
        exact ⟨_, hcell, (hsafe a' e' x he hpath hx).counts child⟩

/-- The tree stays well formed over a session. -/
theorem treeWf_of_reached {s t : Session} (hs : s.Mounted env) {ops : List Op} {replies : List Reply}
    (hreached : exec (Session.call env) [] s ops = some (replies, t)) : t.vol.TreeWf := by
  refine exec_invariant (I := fun _ (s : Session) => s.vol.TreeWf) (C := fun _ _ _ => True) ?_ hs.treeWf
    (meets_of_forall_mem fun _ _ => trivial) hreached
  intro evs s op u new hI _ hcall
  exact (call_moves hI hcall).1

end Removal

/-- **Removing directories.** Take a removal that returns 0 or `-ENOTEMPTY`, in any state that a run of
operations on a volume just mounted reaches, with no interrupted device call. It does what it should exactly
when the listing of the directory sees that it has children, if it has, and does not change the counter of
the directory if it sees some. -/
theorem rmdirRight_iff {env : Env} {s t : Session} (hs : s.Mounted env) {ops : List Op}
    {replies : List Reply} (hreached : exec (Session.call env) [] s ops = some (replies, t)) {path : CString}
    {r : Int} {u : State} (hrun : fatFuseRmdir env path t.vol = .ok r u) (hr : r = 0 ∨ r = -enotempty)
    (hdev : QuietDevice t.vol u path) : RmdirRight t.vol path r u ↔ RmdirSafe t.vol path :=
  rmdirRight_iff_of_treeWf (treeWf_of_reached hs hreached) hdev hrun hr

/-- A device that does all calls whole is quiet. -/
theorem quietDevice_of_nil {s : State} (hio : s.io.length = 0) (u : State) (path : CString) :
    QuietDevice s u path := by
  rw [List.length_eq_zero_iff] at hio
  constructor
  · intro a e x _ _ _
    unfold State.ListsUninterrupted
    rw [hio]
    generalize s.listedClusters x = l
    induction l with
    | nil => trivial
    | cons c l ih => exact ⟨trivial, fun _ => ih⟩
  · intro used hused hmem
    rw [hio] at hused
    rw [(List.append_eq_nil_iff.mp hused.symm).1] at hmem
    cases hmem

/-- What is to be checked of the directory at the node `a` with the file `x`. -/
def RemovalChecked (s : State) (a : Nat) (x : FatFile) : Prop :=
  ((∀ b < s.nodes.next, (s.treeEntry b).bind TreeEntry.parent ≠ some a) ∨ s.ListsChild x) ∧
    (s.ListsChild x → s.lastCount (s.listedClusters x) x.nentries = x.nentries)

instance (s : State) (a : Nat) (x : FatFile) : Decidable (RemovalChecked s a x) :=
  inferInstanceAs (Decidable (_ ∧ _))

/-- The checks of a removal give the condition. -/
theorem RemovalChecked.rmdirSafe {s : State} {a : Nat} {e : TreeEntry} {x : FatFile} {path : CString}
    (h : RemovalChecked s a x) (hwf : s.TreeWf) (he : s.treeEntry a = some e) (hpath : e.path = path)
    (hx : s.files.cell e.file = some x) : RmdirSafe s path := by
  intro a' e' x' he' hpath' hx'
  obtain ⟨p, tr, hok⟩ := hwf
  obtain rfl := hok.path_inj ⟨e, he, hpath⟩ ⟨e', he', hpath'⟩
  rw [he] at he'
  cases he'
  rw [hx] at hx'
  cases hx'
  refine ⟨fun ⟨b, d, hd, hparent⟩ => h.1.resolve_left fun hno => ?_, h.2⟩
  obtain ⟨node, y, hnode, -, -⟩ := treeEntry_eq_some hd
  refine hno b (Heap.lt_next hnode) ?_
  rw [hd]
  exact hparent

/-- The removal of `"/d"`, which is node 1, after some operations. -/
theorem rmdirRight_of_checked (ops : List Op) (r : Int)
    (hends : (exec (Session.call quietEnv) [] freshSession ops).map (fun z =>
      ((z.2.vol.io.length, Cmd.ret? (fatFuseRmdir quietEnv dirPath z.2.vol)),
        (z.2.vol.treeEntry 1).map (fun e => (e.path, e.file)),
        (z.2.vol.files.cell 1).map fun x => decide (RemovalChecked z.2.vol 1 x))) =
      some ((0, some r), some (dirPath, 1), some true)) :
    ∃ replies t u, exec (Session.call quietEnv) [] freshSession ops = some (replies, t) ∧
      fatFuseRmdir quietEnv dirPath t.vol = .ok r u ∧ t.vol.TreeWf ∧ RmdirSafe t.vol dirPath ∧
      QuietDevice t.vol u dirPath := by
  obtain ⟨⟨replies, t⟩, hrun, hend⟩ := Option.map_eq_some_iff.mp hends
  simp only [Prod.mk.injEq] at hend
  obtain ⟨⟨hio, hret⟩, hdir, hfile⟩ := hend
  obtain ⟨e, he, hdata⟩ := Option.map_eq_some_iff.mp hdir
  obtain ⟨x, hx, hchecked⟩ := Option.map_eq_some_iff.mp hfile
  obtain ⟨hpath, hefile⟩ := Prod.mk.inj hdata
  obtain ⟨u, hremove⟩ := Cmd.ret?_eq_some hret
  have hwf := treeWf_of_reached freshSession_mounted hrun
  rw [← hefile] at hx
  exact ⟨replies, t, u, hrun, hremove, hwf, (of_decide_eq_true hchecked).rmdirSafe hwf he hpath hx,
    quietDevice_of_nil hio u dirPath⟩

/-- `"/d/A"`. -/
def childPath : CString := dirPath ++ [slash, 65]

/-- A directory just made is empty, in the tree and on the device, and is removed; one with a file is
not. -/
theorem rmdirRight_iff_dirPath :
    (∃ replies t u, exec (Session.call quietEnv) [] freshSession [.mkdir dirPath] = some (replies, t) ∧
      fatFuseRmdir quietEnv dirPath t.vol = .ok 0 u ∧ RmdirRight t.vol dirPath 0 u) ∧
    ∃ replies t u, exec (Session.call quietEnv) [] freshSession [.mkdir dirPath, .mknod childPath] =
        some (replies, t) ∧
      fatFuseRmdir quietEnv dirPath t.vol = .ok (-enotempty) u ∧ RmdirRight t.vol dirPath (-enotempty) u := by
  obtain ⟨replies, t, u, hrun, hremove, -, hsafe, hquiet⟩ :=
    rmdirRight_of_checked [.mkdir dirPath] 0 (by decide +kernel)
  obtain ⟨replies', t', u', hrun', hremove', -, hsafe', hquiet'⟩ :=
    rmdirRight_of_checked [.mkdir dirPath, .mknod childPath] (-enotempty) (by decide +kernel)
  exact ⟨⟨replies, t, u, hrun, hremove,
      (rmdirRight_iff freshSession_mounted hrun hremove (.inl rfl) hquiet).mpr hsafe⟩,
    replies', t', u', hrun', hremove',
      (rmdirRight_iff freshSession_mounted hrun' hremove' (.inr rfl) hquiet').mpr hsafe'⟩

/-- `"/d/+"`: the name is taken for no file's when the directory is listed. -/
def plusPath : CString := [47, 100, 47, 43]

/-- A directory with such a file is removed. -/
theorem not_forall_rmdirRight :
    ¬ ∀ (env : Env) (s t : Session) (ops : List Op) (replies : List Reply), s.Mounted env →
      exec (Session.call env) [] s ops = some (replies, t) → ∀ (path : CString) (r : Int) (u : State),
        fatFuseRmdir env path t.vol = .ok r u → RmdirRight t.vol path r u := by
  intro hall
  have hends : (exec (Session.call quietEnv) [] freshSession [.mkdir dirPath, .mknod plusPath]).map
      (fun r => ((r.2.vol.treeEntry 1).map TreeEntry.path, (r.2.vol.treeEntry 2).map TreeEntry.parent,
        Cmd.ret? (fatFuseRmdir quietEnv dirPath r.2.vol))) =
      some (some dirPath, some (some 1), some 0) := by decide +kernel
  obtain ⟨⟨replies, t⟩, hrun, hend⟩ := Option.map_eq_some_iff.mp hends
  simp only [Prod.mk.injEq] at hend
  obtain ⟨hdir, hchild, hret⟩ := hend
  obtain ⟨e, he, hpath⟩ := Option.map_eq_some_iff.mp hdir
  obtain ⟨d, hd, hparent⟩ := Option.map_eq_some_iff.mp hchild
  obtain ⟨u, hremove⟩ := Cmd.ret?_eq_some hret
  have hright := hall quietEnv freshSession t _ replies freshSession_mounted hrun dirPath 0 u hremove
  exact (hright.childless rfl 1 ⟨e, he, hpath⟩).1 2 d hd hparent

end OsLabs.Fat
