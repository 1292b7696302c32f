import OsLabs.Fat.FailedCreation
import OsLabs.Fat.Listing
import OsLabs.Fat.RemoveDirectory

/-! # What a removal leaves in the directory

`fat_fuse_unlink` and `fat_fuse_rmdir`, for all results of the device calls. When they return 0, the
clusters reached from the start of the file are free, the slot that the file remembers holds its entry
with size 0 and the mark `0xe5`, and nothing else changed in the data area (`Removed`). -/

namespace OsLabs.Fat

open Cmd

/-! ## Freeing -/

/-- The table is of the same volume. -/
def SameGeometry (s t : State) : Prop := s.table.SameVolume t.table

instance : DataFrame SameGeometry where
  refl s := .refl s.table
  trans _ _ _ h h' := FatTable.SameVolume.trans h h'
  lookedUp s u h := by
    have htable : u.table = s.table := by rw [h]
    show s.table.SameVolume u.table
    rw [htable]
    exact .refl _
  io s _ := .refl s.table
  write s _ _ _ := .refl s.table
  entry s c v := .setEntry s.table c v
  file s _ _ _ _ _ := .refl s.table
  alloc s _ := .refl s.table

/-- The loop that frees a chain comes to the cluster `d` when it starts at `c`. -/
def FatTable.FreedFrom (t : FatTable) (c d : Nat) : Prop :=
  ¬ FatTableIsEoc c ∧ ReachesBy t.next c d

/-- From `s` to `t` the clusters `F` were freed, and no other entry of the table, no file and no data
changed. -/
structure Freed (F : Nat → Prop) (s t : State) : Prop where
  frame : t = { s with dev := t.dev, io := t.io, table := t.table }
  sameVolume : s.table.SameVolume t.table
  freed : ∀ d, F d → t.table.fatMap d = fatClusterFree
  others : ∀ d, ¬ F d → t.table.fatMap d = s.table.fatMap d
  byte : ∀ i, s.table.dataStartOffset ≤ i → t.dev.byte i = s.dev.byte i

section Freeing

variable {s t : State} {c fuel : Nat}

/-- On one volume the table lies before the data, or not, whatever the entries. -/
theorem FatTable.BeforeData.congr {t t' : FatTable} (h : t.BeforeData) (hsame : t.SameVolume t') :
    t'.BeforeData := by
  unfold FatTable.SameVolume at hsame
  rw [hsame]
  exact h

/-- An entry of the table that is freed without an error. -/
theorem freed_of_setNextCluster (hbefore : s.table.BeforeData)
    (hrun : fatTableSetNextCluster c fatClusterFree s = .ok ⟨⟩ t) (herrno : t.errno = 0) :
    s.errno = 0 ∧ t.table = s.table.setEntry c fatClusterFree ∧ Freed (· = c) s t := by
  obtain ⟨hzero, hlt, hframe, hbyte⟩ := fatTableSetNextCluster_stored hrun herrno
  have hpos := hbefore.entry_le hlt
  have htable : t.table = s.table.setEntry c fatClusterFree := by rw [hframe]
  refine ⟨hzero, htable, ?_, ?_, ?_, ?_, fun i hi => hbyte i (by omega)⟩
  · rw [hframe]
  · rw [htable]
    exact .setEntry _ _ _
  · rintro d rfl
    rw [htable, FatTable.fatMap_setEntry, if_pos rfl]
  · intro d hd
    rw [htable, FatTable.fatMap_setEntry, if_neg hd]

/-- A cluster, and the clusters freed after it. -/
theorem Freed.trans {F G : Nat → Prop} {u : State} (h : Freed F s t) (h' : Freed G t u) :
    Freed (fun d => F d ∨ G d) s u where
  frame := by rw [h'.frame, h.frame]
  sameVolume := h.sameVolume.trans h'.sameVolume
  freed d hd := by
    by_cases hg : G d
    · exact h'.freed d hg
    · rw [h'.others d hg]
      exact h.freed d (hd.resolve_right hg)
  others d hd := by
    rw [h'.others d fun hg => hd (.inr hg)]
    exact h.others d fun hf => hd (.inl hf)
  byte i hi := by
    rw [h'.byte i (by rwa [h.sameVolume.dataStartOffset]), h.byte i hi]

/-- The set of freed clusters matters, not how it is described. -/
theorem Freed.congr {F G : Nat → Prop} (h : Freed F s t) (hiff : ∀ d, G d ↔ F d) : Freed G s t where
  frame := h.frame
  sameVolume := h.sameVolume
  freed d hd := h.freed d ((hiff d).mp hd)
  others d hd := h.others d fun hf => hd ((hiff d).mpr hf)
  byte := h.byte

/-- Nothing is freed between a state and itself. -/
theorem Freed.refl (s : State) : Freed (fun _ => False) s s where
  frame := rfl
  sameVolume := .refl _
  freed _ hd := hd.elim
  others _ _ := rfl
  byte _ _ := rfl

/-- The loop frees what is reached from its start. -/
theorem freeChainFrom_freed (hbefore : s.table.BeforeData)
    (hrun : freeChainFrom fuel c s = .ok ⟨⟩ t) (herrno : t.errno = 0) :
    s.errno = 0 ∧ Freed (s.table.FreedFrom c) s t := by
  induction fuel generalizing s c with
  | zero => cases hrun
  | succ fuel ih =>
      rw [freeChainFrom, ite_run] at hrun
      split at hrun
      · next hend =>
          cases hrun
          exact ⟨herrno, (Freed.refl _).congr fun d => iff_of_false (fun h => h.1 hend) id⟩
      next hend =>
        obtain ⟨next, s₁, hnext, hfreeing⟩ := bind_eq_ok.mp hrun
        obtain ⟨rfl, rfl, -⟩ := fatTableGetNextCluster_eq_ok hnext
        obtain ⟨⟨⟩, s₂, hset, hrest⟩ := bind_eq_ok.mp hfreeing
        have hone {t' : State} (hset' : fatTableSetNextCluster c fatClusterFree s₁ = .ok ⟨⟩ t')
            (h : t'.errno = 0) := freed_of_setNextCluster hbefore hset' h
        cases hn : s₁.table.next c with
        | none =>
            -- the chain ends here
            have hsame : t = s₂ := by
              cases fuel with
              | zero => cases hrest
              | succ fuel =>
                  rw [freeChainFrom, if_pos ((FatTable.isEoc_nextCluster_iff c).mpr hn)] at hrest
                  cases hrest
                  rfl
            rw [hsame] at herrno ⊢
            obtain ⟨hzero, -, hfreed⟩ := hone hset herrno
            refine ⟨hzero, hfreed.congr fun d => ?_⟩
            unfold FatTable.FreedFrom
            rw [reachesBy_end_iff hn]
            exact and_iff_right hend
        | some b =>
            rw [FatTable.nextCluster_eq_of_next hn] at hrest
            have hsame : s₁.table.SameVolume s₂.table :=
              (within_fatTableSetNextCluster (R := SameGeometry) _ _).ok hset
            obtain ⟨hzero₂, hlater⟩ := ih (hbefore.congr hsame) hrest
            obtain ⟨hzero, htable, hfreed⟩ := hone hset hzero₂
            refine ⟨hzero, (hfreed.trans hlater).congr fun d => ?_⟩
            have hnone : s₂.table.next c = none := by
              refine FatTable.next_eq_none (.inr ?_)
              rw [htable, FatTable.fatMap_setEntry, if_pos rfl]
              exact fun h => absurd h.1 (by decide)
            have hothers (x : Nat) (hx : x ≠ c) : s₂.table.next x = s₁.table.next x := by
              rw [htable]
              exact FatTable.next_setEntry_ne hx
            unfold FatTable.FreedFrom
            rw [reachesBy_unlink_iff hn hnone hothers]
            have hgoes := FatTable.not_isEoc_of_next hn
            simp only [hend, hgoes, not_false_eq_true, true_and]

end Freeing

/-! ## The entry of a removed file -/

/-- The entry that a removal writes: without data, and marked as deleted. -/
def removedEntry (e : DirEntry) : DirEntry := (e.setFileSize 0).setBaseName0 deletedMark

/-- A removal of the file `x` with the entry `e` from the directory `y` that returned 0. -/
structure Removed (x y : FatFile) (e : DirEntry) (dir : Nat) (s u : State) : Prop where
  sameVolume : s.table.SameVolume u.table
  fits : x.posInParent < s.table.bytesPerCluster / 32
  freed : ∀ d, s.table.FreedFrom x.startCluster d → u.table.fatMap d = fatClusterFree
  others : ∀ d, ¬ s.table.FreedFrom x.startCluster d → u.table.fatMap d = s.table.fatMap d
  byte : ∀ i, s.table.dataStartOffset ≤ i → u.dev.byte i =
    if x.posInParent * 32 + s.table.clusterOffset y.startCluster ≤ i ∧
        i < x.posInParent * 32 + s.table.clusterOffset y.startCluster + 32 then
      (removedEntry e).byte (i - (x.posInParent * 32 + s.table.clusterOffset y.startCluster))
    else s.dev.byte i
  before : s.files.cell dir = some y
  directory : u.files.cell dir = some y

/-- The table, the device and the files but one are the same. -/
def SameDisk (s t : State) : Prop := t.table = s.table ∧ t.dev = s.dev

instance : Std.Refl SameDisk := ⟨fun _ => ⟨rfl, rfl⟩⟩

instance : IsTrans State SameDisk := ⟨fun _ _ _ h h' => ⟨h'.1.trans h.1, h'.2.trans h.2⟩⟩

section Removal

variable {s u : State} {path : CString} {file dir : Nat} {x y : FatFile} {e : DirEntry}

/-- Taking a node out of the tree does not touch the disk. -/
theorem sameDisk_fatTreeDelete (key : CString) : Within SameDisk (fatTreeDelete key) := by
  refine within_get_bind fun s => ?_
  cases s.fileTree with
  | none => exact ⟨rfl, rfl⟩
  | some root =>
      cases root with
      | none => exact ⟨rfl, rfl⟩
      | some r =>
          have hlift {γ : Type} (m : HM Nat (Heap FatFile) γ) : Within SameDisk (liftTree m) := by
            intro s
            unfold liftTree
            cases m s.toHMem with
            | ok a h => exact ⟨rfl, rfl⟩
            | error e h => exact ⟨rfl, rfl⟩
          have hroot (q : Ptr) : Within SameDisk (modify fun s => { s with fileTree := some q } : M PUnit) :=
            fun s => ⟨rfl, rfl⟩
          exact ((hlift _).bind hroot) s

/-- A removal that answers 0 has rewritten the slot and freed the chain. -/
theorem removeFile_removed (h : s.TreeWf) (hord : 5 ≤ s.table.clusterOrder) (hbefore : s.table.BeforeData)
    (hx : s.files.cell file = some x) (he : x.dentry = some e) (hy : s.files.cell dir = some y)
    (hne : dir ≠ file) (hnode : ∃ a d, s.treeEntry a = some d ∧ d.path = path ∧ d.file = file)
    (hrun : removeFile path file (some dir) s = .ok 0 u) : Removed x y e dir s u := by
  unfold removeFile at hrun
  rw [bind_ok (readFile_run hx)] at hrun
  obtain ⟨⟨⟩, s₁, hfree, hsizing⟩ := bind_eq_ok.mp hrun
  obtain ⟨⟨⟩, s₂, hsize, hmarking⟩ := bind_eq_ok.mp hsizing
  obtain ⟨⟨⟩, s₃, hchild, hdeleting⟩ := bind_eq_ok.mp hmarking
  obtain ⟨⟨⟩, s₄, hdelete, hret⟩ := bind_eq_ok.mp hdeleting
  obtain ⟨hresult, rfl⟩ := EStateM.Result.ok.inj hret
  have hk : KeepsEntries s s₃ := ((within_freeChain (R := KeepsEntries) _).ok hfree).trans
    (((within_updateDentry (R := KeepsEntries) _ fun _ => DirEntry.attribs_setFileSize _ _).ok
      hsize).trans ((within_fatFileDentryRemoveChild _ _).ok hchild))
  -- an error of one of the steps would still be reported
  have hremove : Within ErrnoFrom (fatFileDentryRemoveChild (some dir) file) :=
    (errnoFrom_updateDentry _ _).bind fun _ => (within_readFile _).bind fun _ =>
      (within_readDentry _).bind fun _ => errnoFrom_writeDirEntry _ _ _
  have hlast := (errnoFrom_fatTreeDelete _).ok hdelete
  have hzero₃ : s₃.errno = 0 := by
    by_contra hbad
    exact hlast.ne_zero hbad (neg_eq_zero.mp hresult)
  have hzero₁ : s₁.errno = 0 := by
    by_contra hbad
    have hsteps : ErrnoFrom s₁ s₃ :=
      IsTrans.trans _ _ _ ((errnoFrom_updateDentry _ _).ok hsize) (hremove.ok hchild)
    exact hsteps.ne_zero hbad hzero₃
  obtain ⟨-, hfreed⟩ := freeChainFrom_freed hbefore hfree hzero₁
  have hfiles : s₁.files = s.files := by
    rw [hfreed.frame]
    rfl
  have hx₁ : s₁.files.cell file = some x := by rwa [hfiles]
  rw [updateDentry_run hx₁ he] at hsize
  have hx₂ := State.cell_updated_self hx₁ fun x => { x with dentry := some (e.setFileSize 0) }
  have hs₂ := (EStateM.Result.ok.inj hsize).2
  rw [hs₂] at hx₂
  unfold fatFileDentryRemoveChild at hchild
  rw [bind_ok (updateDentry_run hx₂ rfl _)] at hchild
  generalize hv : s₂.updated file _ = v at hchild
  have hxv : v.files.cell file = some { x with dentry := some (removedEntry e) } := by
    rw [← hv]
    exact State.cell_updated_self hx₂ _
  have hyv : v.files.cell dir = some y := by
    rw [← hv, State.cell_updated_ne hne, ← hs₂, State.cell_updated_ne hne, hfiles, hy]
  have hvtable : v.table = s₁.table := by rw [← hv, ← hs₂]; rfl
  have hvdev : v.dev = s₁.dev := by rw [← hv, ← hs₂]; rfl
  rw [bind_ok (readFile_run hxv), bind_ok (readDentry_run hxv rfl)] at hchild
  obtain ⟨hstored, -⟩ := writeDirEntry_stored hyv hchild hzero₃
  obtain ⟨hdtable, hddev⟩ := (sameDisk_fatTreeDelete _).ok hdelete
  have htable : s₄.table = s₁.table := by rw [hdtable, hstored.frame, hvtable]
  have hsame := hfreed.sameVolume
  refine ⟨?_, ?_, fun d hd => ?_, fun d hd => ?_, fun i hi => ?_, hy, ?_⟩
  · rwa [htable]
  · have hfits : x.posInParent * 32 < v.table.bytesPerCluster := hstored.fits
    have hdvd := FatTable.thirty_two_dvd_bytesPerCluster hord
    rw [hvtable, hsame.bytesPerCluster] at hfits
    obtain ⟨n, hn⟩ := hdvd
    omega
  · rw [htable]
    exact hfreed.freed d hd
  · rw [htable]
    exact hfreed.others d hd
  · have hlen : (removedEntry e).toList.length = 32 := Vector.length_toList
    have hdev := hstored.dev
    rw [hvdev, hvtable, hsame.clusterOffset] at hdev
    rw [hddev, hdev, ← hfreed.byte i hi]
    show (if _ ∧ i < _ + List.length _ then _ else _) = _
    rw [hlen]
    rfl
  · have hcell : s₃.files.cell dir = some y := by
      have hfiles₃ : s₃.files = v.files := by
        rw [hstored.frame]
        rfl
      rw [hfiles₃, hyv]
    -- the tree gives up the removed file only
    obtain ⟨p, t, hok⟩ := hk.treeWf h
    obtain ⟨hno, -⟩ | ⟨b, e', hb, hpath', -, -, hgone⟩ := fatTreeDelete_ok hok hdelete
    · obtain ⟨a, d, hd, hpath, -⟩ := hnode
      rw [← hk.treeEntry_eq h] at hd
      exact absurd ⟨a, d, hd, hpath⟩ hno
    · obtain ⟨a, d, hd, hpath, hfile⟩ := hnode
      rw [← hk.treeEntry_eq h] at hd
      obtain rfl := hok.path_inj ⟨d, hd, hpath⟩ ⟨e', hb, hpath'⟩
      rw [hd] at hb
      cases hb
      rw [hgone, hfile, Heap.cell_free_ne hne, hcell]

end Removal

/-! ## The listing ahead of a removal -/

/-- The device was read, and nothing else happened. -/
def DeviceRead (s t : State) : Prop := t = { s with errno := t.errno, tick := t.tick, io := t.io }

instance : ReadFrame DeviceRead where
  refl _ := rfl
  trans s t u h h' := by
    unfold DeviceRead at h h' ⊢
    rw [h', h]
  lookedUp s u h := by
    unfold DeviceRead
    rw [h]
  io _ _ := rfl

/-- From `s` to `t` the directory `dir` was listed, as far as the device allowed it: only its counter and
its mark changed among the files there were. -/
structure DirListed (dir : Nat) (s t : State) : Prop where
  table : t.table = s.table
  dev : t.dev = s.dev
  dirFile : ∀ x, s.files.cell dir = some x →
    ∃ n b, t.files.cell dir = some { x with nentries := n, childrenRead := b }
  kept : ∀ a < s.files.next, a ≠ dir → t.files.cell a = s.files.cell a
  next_le : s.files.next ≤ t.files.next

namespace DirListed

variable {dir : Nat} {s t u : State}

/-- Listings in a row leave what a listing leaves. -/
theorem trans (h : DirListed dir s t) (h' : DirListed dir t u) : DirListed dir s u where
  table := h'.table.trans h.table
  dev := h'.dev.trans h.dev
  dirFile x hx := by
    obtain ⟨n, b, hx'⟩ := h.dirFile x hx
    obtain ⟨n', b', hx''⟩ := h'.dirFile _ hx'
    exact ⟨n', b', hx''⟩
  kept a ha hne := (h'.kept a (Nat.lt_of_lt_of_le ha h.next_le) hne).trans (h.kept a ha hne)
  next_le := Nat.le_trans h.next_le h'.next_le

/-- Reading the device is a part of a listing. -/
theorem of_deviceRead (h : DeviceRead s t) : DirListed dir s t := by
  unfold DeviceRead at h
  rw [h]
  exact ⟨rfl, rfl, fun x hx => ⟨x.nentries, x.childrenRead, hx⟩, fun _ _ _ => rfl, Nat.le_refl _⟩

/-- A listing leaves the disk and the other files alone. -/
theorem of_listed {cs : List Nat} {fs : List FatFile}
    (h : Listed dir cs fs (s.resume [] 0) (t.resume [] 0)) : DirListed dir s t where
  table := h.table
  dev := h.dev
  dirFile := h.dir_cell
  kept := h.kept
  next_le := h.next_le

end DirListed

section Listed

variable {s t : State} {dir : Nat} {x : FatFile} {env : Env}

/-- The clusters read leave the disk and the other files alone, also if the reading fails. -/
theorem readChildrenFrom_dirListed {fuel c : Nat} {elems : List Nat} {r : Option (List Nat)}
    (hx : s.files.cell dir = some x) (hrun : readChildrenFrom env dir fuel c elems s = .ok r t) :
    DirListed dir s t := by
  induction fuel generalizing s x c elems with
  | zero => cases hrun
  | succ fuel ih =>
      have hread (s t : State) (h : DeviceRead s t) : DirListed dir s t := .of_deviceRead h
      rw [readChildrenFrom, ite_run] at hrun
      split at hrun
      · cases hrun
        exact hread _ _ rfl
      rw [get_bind] at hrun
      obtain ⟨⟨n, mem⟩, s₁, hpread, hloaded⟩ := bind_eq_ok.mp hrun
      have hfirst := hread s s₁ ((within_fullPread _ _ _).ok hpread)
      obtain ⟨k, b, hx₁⟩ := hfirst.dirFile x hx
      dsimp only at hloaded
      rw [ite_run] at hloaded
      split at hloaded
      · cases hloaded
        exact hfirst.trans (hread _ _ rfl)
      obtain ⟨cs, s₂, b', hentries, -, -, hx₂, hlisted⟩ :=
        readEntriesFrom_resumed hx₁ mem (s.table.bytesPerCluster / 32) elems
      unfold readClusterDirEntries at hloaded
      rw [bind_ok hentries] at hloaded
      obtain ⟨next, s₃, hnext, hrest⟩ := bind_eq_ok.mp hloaded
      obtain ⟨rfl, -, -⟩ := fatTableGetNextCluster_eq_ok hnext
      exact hfirst.trans ((DirListed.of_listed hlisted).trans (ih hx₂ hrest))

/-- What `fat_file_read_children` leaves alone, for all results of the device calls. -/
theorem fatFileReadChildren_dirListed {cs : List Nat} (hx : s.files.cell dir = some x)
    (hrun : fatFileReadChildren env dir s = .ok cs t) : DirListed dir s t := by
  unfold fatFileReadChildren at hrun
  rw [bind_ok (readFile_run hx), get_bind, ite_run] at hrun
  split at hrun
  · cases hrun
    exact .of_deviceRead rfl
  obtain ⟨r, s₁, hread, hrest⟩ := bind_eq_ok.mp hrun
  have hlisted := readChildrenFrom_dirListed hx hread
  cases r with
  | none =>
      cases hrest
      exact hlisted
  | some l =>
      obtain ⟨n, b, hx₁⟩ := hlisted.dirFile x hx
      dsimp only at hrest
      rw [bind_ok (updateFile_run hx₁ _)] at hrest
      cases hrest
      refine hlisted.trans ⟨rfl, rfl, fun y hy => ?_, fun a _ hne => State.cell_updated_ne hne _,
        Nat.le_refl _⟩
      exact ⟨y.nentries, true, State.cell_updated_self hy _⟩

end Listed

/-! ## Whole removals -/

/-- The path is that of the file `x` with the entry `e`, in the directory `y`: `file` and `dir` are
their addresses. -/
structure FileIn (s : State) (path : CString) (file dir : Nat) (x y : FatFile) (e : DirEntry) : Prop where
  node : ∃ a d q p, s.treeEntry a = some d ∧ d.path = path ∧ d.file = file ∧ d.parent = some q ∧
    s.treeEntry q = some p ∧ p.file = dir
  file : s.files.cell file = some x
  dentry : x.dentry = some e
  dirFile : s.files.cell dir = some y

section Removal

variable {s u : State} {env : Env} {path : CString} {file dir : Nat} {x y : FatFile} {e : DirEntry}

/-- A removal that returns 0 comes to `removeFile`, right after clearing `errno` or after a listing
without children. -/
theorem removal_run (h : s.TreeWf) {a q : Nat} {d p : TreeEntry} (ha : s.treeEntry a = some d)
    (hpath : d.path = path) (hparent : d.parent = some q) (hq : s.treeEntry q = some p)
    (hrun : fatFuseUnlink path s = .ok 0 u ∨ fatFuseRmdir env path s = .ok 0 u) :
    ∃ t, (t = { s with errno := 0 } ∨
        fatFileReadChildren env d.file { s with errno := 0 } = .ok [] t) ∧
      removeFile path d.file (some p.file) t = .ok 0 u := by
  have ha₀ : ({ s with errno := 0 } : State).treeEntry a = some d := ha
  have hq₀ : ({ s with errno := 0 } : State).treeEntry q = some p := hq
  have hgetParent : fatTreeGetParent (some a) { s with errno := 0 } =
      .ok (some p.file) { s with errno := 0 } := by
    rw [fatTreeGetParent_run ha₀, hparent, fatTreeGetFile_run hq₀]
  -- the error numbers are not 0
  have hbad {v : Int} {t : State} (hv : v ≠ 0) (hret : (EStateM.Result.ok v t : EStateM.Result Fault State Int) =
      .ok 0 u) : False := hv (EStateM.Result.ok.inj hret).1
  rcases hrun with hunlink | hrmdir
  · obtain ⟨node, hbody, hfound, -⟩ := search_bind_eq_ok h hunlink
    obtain rfl := (hfound a).mpr ⟨d, ha, hpath⟩
    rw [if_neg (by simp), bind_ok (fatTreeGetFile_run ha₀), bind_ok (fatFileIsDirectory_entry ha₀),
      ite_run] at hbody
    split at hbody
    · exact (hbad (by decide) hbody).elim
    rw [bind_ok hgetParent, bind_ok (fatFileIsDirectory_entry hq₀), ite_run] at hbody
    split at hbody
    · exact (hbad (v := -enotdir) (by decide) hbody).elim
    · exact ⟨_, .inl rfl, hbody⟩
  · obtain ⟨node, hbody, hfound, -⟩ := search_bind_eq_ok h hrmdir
    obtain rfl := (hfound a).mpr ⟨d, ha, hpath⟩
    rw [if_neg (by simp), bind_ok (fatTreeGetFile_run ha₀), bind_ok (fatFileIsDirectory_entry ha₀),
      ite_run] at hbody
    split at hbody
    · exact (hbad (by decide) hbody).elim
    rw [bind_ok hgetParent, bind_ok (fatFileIsDirectory_entry hq₀), ite_run] at hbody
    split at hbody
    · exact (hbad (v := -enotdir) (by decide) hbody).elim
    rw [bind_ok (nonNull_run d.file _)] at hbody
    obtain ⟨children, t, hread, hchecked⟩ := bind_eq_ok.mp hbody
    rw [ite_run] at hchecked
    split at hchecked
    · exact (hbad (v := -enotempty) (by decide) hchecked).elim
    next hempty =>
      obtain rfl : children = [] := List.length_eq_zero_iff.mp (Nat.eq_zero_of_not_pos hempty)
      exact ⟨t, .inr hread, hchecked⟩

/-- A removal that returns 0. -/
theorem removed_of_run (h : s.TreeWf) (hord : 5 ≤ s.table.clusterOrder) (hbefore : s.table.BeforeData)
    (hat : FileIn s path file dir x y e)
    (hrun : fatFuseUnlink path s = .ok 0 u ∨ fatFuseRmdir env path s = .ok 0 u) :
    Removed x y e dir s u := by
  obtain ⟨a, d, q, p, ha, hpath, rfl, hparent, hq, rfl⟩ := hat.node
  have hne : p.file ≠ d.file := by
    intro heq
    obtain ⟨r, tr, hok⟩ := h
    have hsame := hok.file_inj hq ha heq
    have hlt := hok.parent_lt a d q ha hparent
    omega
  have hk₀ : KeepsEntries s { s with errno := 0 } := keepsEntries_of_eq rfl rfl rfl
  obtain ⟨t, rfl | hread, hremove⟩ := removal_run h ha hpath hparent hq hrun
  · have hremoved := removeFile_removed (s := { s with errno := 0 }) (hk₀.treeWf h) hord hbefore hat.file
      hat.dentry hat.dirFile hne ⟨a, d, ha, hpath, rfl⟩ hremove
    exact ⟨hremoved.sameVolume, hremoved.fits, hremoved.freed, hremoved.others, hremoved.byte,
      hat.dirFile, hremoved.directory⟩
  · -- the listing left everything as it was, but for its own traces
    have hlisted := fatFileReadChildren_dirListed (s := { s with errno := 0 }) hat.file hread
    have hdir : FileAt { s with errno := 0 } d.file x.filepath := ⟨x, hat.file, rfl⟩
    have hk := hk₀.trans (fatFileReadChildren_ok hdir hread).keeps
    obtain ⟨n, b, hx⟩ := hlisted.dirFile x hat.file
    have hy : t.files.cell p.file = some y := by
      rw [hlisted.kept _ (Heap.lt_next hat.dirFile) hne]
      exact hat.dirFile
    have ht' : t.table = s.table := hlisted.table
    have hdev : t.dev = s.dev := hlisted.dev
    rw [← hk.treeEntry_eq h] at ha
    have hremoved := removeFile_removed (hk.treeWf h) (by rwa [ht']) (by rwa [ht']) hx hat.dentry hy hne
      ⟨a, d, ha, hpath, rfl⟩ hremove
    exact ⟨ht' ▸ hremoved.sameVolume, ht' ▸ hremoved.fits, ht' ▸ hremoved.freed, ht' ▸ hremoved.others,
      ht' ▸ hdev ▸ hremoved.byte, hat.dirFile, hremoved.directory⟩

end Removal

end OsLabs.Fat
