import OsLabs.Fat.RemovedEntry

/-! # Deleted files in their directory

After `fat_fuse_unlink` or `fat_fuse_rmdir` has returned 0, a listing of the directory should return
what it returned before, except the deleted file (`RemovesOnly`). The slot rewritten is the one that the
file remembers, and the mark `0xe5` is also that of the hidden log, so this depends on what the slot
held, on the attributes and the name of the entry, and on the chains (`removesOnly_iff`). -/

namespace OsLabs.Fat

open Cmd

/-- The entries have the same eleven bytes of name. -/
def SameName (e e' : DirEntry) : Prop := ∀ k < 11, e'.byte k = e.byte k

instance (e e' : DirEntry) : Decidable (SameName e e') := inferInstanceAs (Decidable (∀ k < 11, _))

/-- The file with the entry `e` is gone from the directory `y` with the clusters `l`: the directory
is there as before, `fat_file_read_children` returns the entries that it returned before except those of
the file, and no other slot changed. -/
structure RemovesOnly (y : FatFile) (e : DirEntry) (dir : Nat) (l : List Nat) (s u : State) : Prop where
  directory : u.files.cell dir = some y
  listed : ∃ es, s.Lists dir es ∧ u.Lists dir (es.filter fun p => ¬ SameName e p.2)
  others : ∀ c ∈ l, ∀ i < s.table.bytesPerCluster / 32, ¬ SameName e (s.clusterEntry c i) →
    u.clusterEntry c i = s.clusterEntry c i

/-- Rewriting slot `k` of the cluster `c` for the file with the entry `e`. Either the slot holds the
entry of the file; then the rewritten entry, if a listing comes to it, is not returned as the hidden
log, and if the slot was an end mark, no entry behind it is returned now. Or the slot holds what is
written there. -/
def SlotSafe (s : State) (c k : Nat) (e : DirEntry) : Prop :=
  (SameName e (s.clusterEntry c k) ∧ (s.Reached c k → ¬ (removedEntry e).Yields) ∧
    ((s.clusterEntry c k).IsEndOfDirectory → ∀ i < s.table.bytesPerCluster / 32, k < i →
      (∀ j < i + 1, j ≠ k → ¬ (s.clusterEntry c j).IsEndOfDirectory) →
      ¬ (s.clusterEntry c i).Yields)) ∨
  ¬ SameName e (s.clusterEntry c k) ∧ s.clusterEntry c k = removedEntry e

/-- The condition on the state before a removal of the file `x` with the entry `e` from the directory
`y` with the clusters `l`: the slot that the file remembers may be rewritten, no other entry that is
still listed has the name of the file, and only such entries lie in clusters that the freed ones cut
off from the directory. -/
structure RemovalSafe (x y : FatFile) (e : DirEntry) (l : List Nat) (s : State) : Prop where
  slot : y.startCluster ∈ l → SlotSafe s y.startCluster x.posInParent e
  alone : ∀ p ∈ s.listing l, ¬ Chain.CutOff (s.table.FreedFrom x.startCluster) l p.1.1 →
    p.1 ≠ (y.startCluster, x.posInParent) → ¬ SameName e p.2
  cut : ∀ p ∈ s.listing l, Chain.CutOff (s.table.FreedFrom x.startCluster) l p.1.1 → SameName e p.2

section Removed

variable {s u : State} {x y : FatFile} {e : DirEntry} {dir : Nat} {l : List Nat}

/-- The rewritten entry begins with the deletion mark. -/
theorem removedEntry_byte_zero (e : DirEntry) : (removedEntry e).byte 0 = deletedMark := by
  simp [removedEntry, DirEntry.setBaseName0]

/-- The rewritten entry is no end mark. -/
theorem not_isEnd_removedEntry (e : DirEntry) : ¬ (removedEntry e).IsEndOfDirectory := by
  unfold DirEntry.IsEndOfDirectory
  rw [removedEntry_byte_zero]
  decide

/-- The chain of the directory after the removal. -/
theorem Removed.dirClusters (h : Removed x y e dir s u) (hl : s.DirClusters y l) :
    ∃ l₁ l₂, l = l₁ ++ l₂ ∧ u.DirClusters y l₁ ∧
      (∀ c ∈ l₁, ¬ Chain.CutOff (s.table.FreedFrom x.startCluster) l c) ∧
      ∀ c ∈ l₂, Chain.CutOff (s.table.FreedFrom x.startCluster) l c := by
  have hvalid := h.sameVolume.isValid_iff y.startCluster
  by_cases hv : s.table.IsValidClusterNumber y.startCluster
  · obtain ⟨hchain, hin⟩ := hl.chain hv
    have hcut (d : Nat) (hd : s.table.FreedFrom x.startCluster d) : u.table.next d = none := by
      refine FatTable.next_eq_none (.inr ?_)
      rw [h.freed d hd]
      exact fun hzero => absurd hzero.1 (by decide)
    have hkeep (d : Nat) (hd : ¬ s.table.FreedFrom x.startCluster d) : u.table.next d = s.table.next d :=
      h.sameVolume.next_eq (h.others d hd)
    obtain ⟨l₁, l₂, heq, hchain, hkept, hlost⟩ := hchain.cut hcut hkeep
    refine ⟨l₁, l₂, heq, ?_, hkept, hlost⟩
    unfold State.DirClusters
    rw [if_pos (hvalid.mpr hv), h.sameVolume.fatLen]
    exact ⟨hchain, fun c hc => hin c (heq ▸ List.mem_append_left l₂ hc)⟩
  · unfold State.DirClusters at hl ⊢
    rw [if_neg hv] at hl
    subst hl
    refine ⟨[], [], rfl, ?_, fun c hc => absurd hc List.not_mem_nil, fun c hc => absurd hc List.not_mem_nil⟩
    rw [if_neg fun hu => hv (hvalid.mp hu)]

/-- A removal writes the slot that the file remembers and no other. -/
theorem Removed.slotWritten (h : Removed x y e dir s u) (hl : s.DirClusters y l) :
    SlotWritten l y.startCluster x.posInParent (removedEntry e) s u := by
  refine slotWritten_of_byte h.sameVolume (fun d hd => ⟨hl.valid hd, ?_⟩) h.fits h.byte
  unfold State.DirClusters at hl
  split_ifs at hl with hv
  · exact hv
  · rw [hl] at hd
    cases hd

/-- The property, slot by slot. -/
theorem Removed.removesOnly_iff_returned (h : Removed x y e dir s u) (hl : s.DirClusters y l) :
    RemovesOnly y e dir l s u ↔
      (∀ p ∈ slots s.table l,
        (¬ Chain.CutOff (s.table.FreedFrom x.startCluster) l p.1 →
          u.returned p = (s.returned p).filter fun e' => ¬ SameName e e') ∧
        (Chain.CutOff (s.table.FreedFrom x.startCluster) l p.1 →
          ((s.returned p).filter fun e' => ¬ SameName e e') = none)) ∧
      ∀ c ∈ l, ∀ i < s.table.bytesPerCluster / 32, ¬ SameName e (s.clusterEntry c i) →
        u.clusterEntry c i = s.clusterEntry c i := by
  -- The chain of the directory after the call: `l₁` is kept, `l₂` is cut off.
  obtain ⟨l₁, l₂, heq, hl₁, hkept, hlost⟩ := h.dirClusters hl
  have hslots (m : List Nat) : slots u.table m = slots s.table m := by
    unfold slots
    rw [h.sameVolume.bytesPerCluster]
  have hdisjoint : ∀ p ∈ slots s.table l₂, p ∉ slots s.table l₁ := fun p hp hp' =>
    hkept p.1 (mem_slots.mp hp').1 (hlost p.1 (mem_slots.mp hp).1)
  have hrestrict : u.listing l₁ =
      tagged (fun p => if p ∈ slots s.table l₁ then u.returned p else none) (slots s.table l) := by
    rw [heq, slots_append, tagged_restrict _ hdisjoint, ← hslots]
    rfl
  -- Comparing the two listings is comparing them slot by slot.
  have hlisted : (∃ es, s.Lists dir es ∧ u.Lists dir (es.filter fun p => ¬ SameName e p.2)) ↔
      ∀ p ∈ slots s.table l, (if p ∈ slots s.table l₁ then u.returned p else none) =
        (s.returned p).filter fun e' => ¬ SameName e e' := by
    rw [← tagged_eq_iff, ← hrestrict, ← filter_tagged]
    constructor
    · rintro ⟨es, hes, hes'⟩
      rw [hes.eq_listing h.before hl] at hes'
      exact (hes'.eq_listing h.directory hl₁).symm
    · intro hlisting
      have hes' := hl₁.lists h.directory
      rw [hlisting] at hes'
      exact ⟨_, hl.lists h.before, hes'⟩
  have hpoint (p : Nat × Nat) (hp : p ∈ slots s.table l) :
      ((if p ∈ slots s.table l₁ then u.returned p else none) =
        (s.returned p).filter fun e' => ¬ SameName e e') ↔
      (¬ Chain.CutOff (s.table.FreedFrom x.startCluster) l p.1 →
          u.returned p = (s.returned p).filter fun e' => ¬ SameName e e') ∧
        (Chain.CutOff (s.table.FreedFrom x.startCluster) l p.1 →
          ((s.returned p).filter fun e' => ¬ SameName e e') = none) := by
    -- A slot of the kept part returns what the volume has now.
    by_cases hp₁ : p ∈ slots s.table l₁
    · have hno := hkept p.1 (mem_slots.mp hp₁).1
      rw [if_pos hp₁]
      exact ⟨fun hsame => ⟨fun _ => hsame, fun hc => absurd hc hno⟩, fun hall => hall.1 hno⟩
    -- A slot behind the cut returns nothing any more.
    · have hmem : p.1 ∈ l₂ := by
        have hl' := (mem_slots.mp hp).1
        rw [heq, List.mem_append] at hl'
        exact hl'.resolve_left fun hin => hp₁ (mem_slots.mpr ⟨hin, (mem_slots.mp hp).2⟩)
      have hcut := hlost p.1 hmem
      rw [if_neg hp₁]
      exact ⟨fun hsame => ⟨fun hno => absurd hcut hno, fun _ => hsame.symm⟩,
        fun hall => (hall.2 hcut).symm⟩
  constructor
  · intro hright
    refine ⟨fun p hp => (hpoint p hp).mp (hlisted.mp hright.listed p hp), hright.others⟩
  · rintro ⟨hall, hothers⟩
    exact ⟨h.directory, hlisted.mpr fun p hp => (hpoint p hp).mpr (hall p hp), hothers⟩

/-- Nothing is left of a slot just if it returned the file or nothing. -/
theorem filter_returned_eq_none {p : Nat × Nat} :
    ((s.returned p).filter fun e' => ¬ SameName e e') = none ↔
      ∀ e', s.returned p = some e' → SameName e e' := by
  cases s.returned p with
  | none => simp
  | some e' => by_cases hname : SameName e e' <;> simp [Option.filter, hname]

/-- A slot that does not return the file keeps what it returns. -/
theorem filter_returned_of_other {p : Nat × Nat} (h : ∀ e', s.returned p = some e' → ¬ SameName e e') :
    ((s.returned p).filter fun e' => ¬ SameName e e') = s.returned p := by
  cases hp : s.returned p with
  | none => rfl
  | some e' => simp [Option.filter, h e' hp]

/-- A removal that is right was safe. -/
theorem Removed.safe_of_removesOnly (h : Removed x y e dir s u) (hl : s.DirClusters y l)
    (hright : RemovesOnly y e dir l s u) : RemovalSafe x y e l s := by
  have hw := h.slotWritten hl
  obtain ⟨hall, hothers⟩ := (h.removesOnly_iff_returned hl).mp hright
  have hfits := h.fits
  have hend := not_isEnd_removedEntry e
  obtain ⟨l₁, l₂, heq, hl₁, hkept, -⟩ := h.dirClusters hl
  have hlisted {p : Nat × Nat} {e' : DirEntry} (hp : (p, e') ∈ s.listing l) :
      p ∈ slots s.table l ∧ s.returned p = some e' := mem_tagged.mp hp
  refine ⟨fun hc => ?_, ?_, ?_⟩
  · have hno : ¬ Chain.CutOff (s.table.FreedFrom x.startCluster) l y.startCluster := by
      refine hkept _ (hl₁.start_mem_iff.mpr ?_)
      obtain ⟨hv, hend⟩ := hl.start_mem_iff.mp hc
      exact ⟨(h.sameVolume.isValid_iff _).mpr hv, hend⟩
    have hsame {i : Nat} (hi : i < s.table.bytesPerCluster / 32) :
        u.returned (y.startCluster, i) =
          (s.returned (y.startCluster, i)).filter fun e' => ¬ SameName e e' :=
      (hall (y.startCluster, i) (mem_slots.mpr ⟨hc, hi⟩)).1 hno
    by_cases hname : SameName e (s.clusterEntry y.startCluster x.posInParent)
    · refine .inl ⟨hname, fun hreached hyields => ?_, fun hmark i hi hki hreached hyields => ?_⟩
      · -- the rewritten entry would be returned for the slot
        have hu := (hw.returned_self hc hfits).mpr ⟨hreached, hend, hyields, rfl⟩
        rw [hsame hfits, Option.filter_eq_some_iff] at hu
        obtain ⟨-, -, hold⟩ := returned_eq_some.mp hu.1
        rw [hold] at hname
        simp [hname] at hu
      · -- an entry behind the mark would be returned
        have hu := (hw.returned_behind hc hi hki).mpr ⟨hreached, hend, hyields, rfl⟩
        rw [hsame hi, Option.filter_eq_some_iff] at hu
        exact (returned_eq_some.mp hu.1).1 x.posInParent (Nat.lt_succ_of_lt hki) hmark
    · exact .inr ⟨hname, by rw [← hothers _ hc _ hfits hname, hw.slot hc]⟩
  · rintro ⟨p, e'⟩ hp hno hne hname
    obtain ⟨hmem, hs⟩ := hlisted hp
    obtain ⟨hpl, hi⟩ := mem_slots.mp hmem
    have hnone : u.returned p = none := by
      rw [(hall p hmem).1 hno, filter_returned_eq_none]
      intro e'' hs'
      rw [hs] at hs'
      cases hs'
      exact hname
    obtain ⟨c, i⟩ := p
    have hu : u.returned (c, i) = some e' := by
      by_cases hbehind : c = y.startCluster ∧ x.posInParent < i
      · obtain ⟨rfl, hki⟩ := hbehind
        obtain ⟨hreached, hyields, heq'⟩ := returned_eq_some.mp hs
        exact (hw.returned_behind hpl hi hki).mpr ⟨fun j hj _ => hreached j hj, hend, hyields, heq'⟩
      · rw [hw.returned_ne hpl hi, hs]
        by_cases hcs : c = y.startCluster
        · refine .inr (Nat.lt_of_le_of_ne (Nat.le_of_not_lt fun hlt => hbehind ⟨hcs, hlt⟩) fun hik => ?_)
          exact hne (Prod.ext hcs hik)
        · exact .inl hcs
    rw [hnone] at hu
    cases hu
  · rintro ⟨p, e'⟩ hp hcut
    obtain ⟨hmem, hs⟩ := hlisted hp
    exact filter_returned_eq_none.mp ((hall p hmem).2 hcut) e' hs

/-- A removal that is safe is right. -/
theorem Removed.removesOnly_of_safe (h : Removed x y e dir s u) (hl : s.DirClusters y l)
    (hsafe : RemovalSafe x y e l s) : RemovesOnly y e dir l s u := by
  have hw := h.slotWritten hl
  have hfits := h.fits
  have hend := not_isEnd_removedEntry e
  refine (h.removesOnly_iff_returned hl).mpr ⟨fun p hp => ⟨fun hno => ?_, fun hcut => ?_⟩, fun c hc i hi hname => ?_⟩
  · obtain ⟨c, i⟩ := p
    obtain ⟨hc, hi⟩ := mem_slots.mp hp
    -- what other slots return does not have the name
    have hother (hne : (c, i) ≠ (y.startCluster, x.posInParent)) :
        ((s.returned (c, i)).filter fun e' => ¬ SameName e e') = s.returned (c, i) :=
      filter_returned_of_other fun e' hs => hsafe.alone ((c, i), e') (mem_tagged.mpr ⟨hp, hs⟩) hno hne
    by_cases hfar : c ≠ y.startCluster ∨ i < x.posInParent
    · have hne : (c, i) ≠ (y.startCluster, x.posInParent) := by
        intro heq
        obtain ⟨rfl, rfl⟩ := Prod.mk.inj heq
        omega
      rw [hother hne]
      exact hw.returned_ne hc hi hfar
    obtain ⟨hcs, hki⟩ := not_or.mp hfar
    obtain rfl : c = y.startCluster := not_not.mp hcs
    have hslot := hsafe.slot hc
    rcases Nat.lt_or_eq_of_le (Nat.le_of_not_lt hki) with hlt | rfl
    · rw [hother fun heq => by cases heq; omega]
      ext e'
      rw [hw.returned_behind hc hi hlt, returned_eq_some]
      constructor
      · rintro ⟨hreached, -, hyields, heq⟩
        refine ⟨fun j hj => ?_, hyields, heq⟩
        by_cases hjk : j = x.posInParent
        · rw [hjk]
          intro hmark
          rcases hslot with ⟨-, -, hstale⟩ | ⟨-, hsame⟩
          · exact hstale hmark i hi hlt hreached hyields
          · rw [hsame] at hmark
            exact hend hmark
        · exact hreached j hj hjk
      · rintro ⟨hreached, hyields, heq⟩
        exact ⟨fun j hj _ => hreached j hj, hend, hyields, heq⟩
    · rcases hslot with ⟨hname, hhidden, -⟩ | ⟨hname, hsame⟩
      · -- the entry of the file is not returned any more
        have hnone : u.returned (y.startCluster, x.posInParent) = none := by
          rw [Option.eq_none_iff_forall_not_mem]
          intro e' he'
          obtain ⟨hreached, -, hyields, -⟩ := (hw.returned_self hc hfits).mp he'
          exact hhidden hreached hyields
        rw [hnone, eq_comm, filter_returned_eq_none]
        intro e' hs
        obtain ⟨-, -, rfl⟩ := returned_eq_some.mp hs
        exact hname
      · -- nothing is changed by the write
        have hkeep : u.returned (y.startCluster, x.posInParent) =
            s.returned (y.startCluster, x.posInParent) := by
          ext e'
          rw [hw.returned_self hc hfits, returned_eq_some, hsame]
          constructor
          · rintro ⟨hreached, -, hyields, heq⟩
            refine ⟨fun j hj => ?_, hyields, heq⟩
            by_cases hjk : j = x.posInParent
            · rw [hjk, hsame]
              exact hend
            · exact hreached j (by omega)
          · rintro ⟨hreached, hyields, heq⟩
            exact ⟨fun j hj => hreached j (by omega), hend, hyields, heq⟩
        rw [hkeep, filter_returned_of_other]
        intro e' hs
        obtain ⟨-, -, rfl⟩ := returned_eq_some.mp hs
        exact hname
  · rw [filter_returned_eq_none]
    exact fun e' hs => hsafe.cut (p, e') (mem_tagged.mpr ⟨hp, hs⟩) hcut
  · by_cases hne : (c, i) = (y.startCluster, x.posInParent)
    · obtain ⟨rfl, rfl⟩ := Prod.mk.inj hne
      rcases hsafe.slot hc with ⟨hsame, -⟩ | ⟨-, hsame⟩
      · exact absurd hsame hname
      · rw [hw.slot hc, hsame]
    · exact hw.others c hc i hi hne

end Removed

section Run

variable {s u : State} {env : Env} {path : CString} {file dir : Nat} {x y : FatFile} {e : DirEntry}
  {l : List Nat}

/-- **Deleted files.** A removal that returns 0 takes its entry, and no other, out of the listing of the
directory exactly when the slot that the file remembers is its own and not that of the hidden log, no
other entry has its name, and the clusters freed cut nothing else off. -/
theorem removesOnly_iff (h : s.TreeWf) (hord : 5 ≤ s.table.clusterOrder) (hbefore : s.table.BeforeData)
    (hat : FileIn s path file dir x y e) (hl : s.DirClusters y l)
    (hrun : fatFuseUnlink path s = .ok 0 u ∨ fatFuseRmdir env path s = .ok 0 u) :
    RemovesOnly y e dir l s u ↔ RemovalSafe x y e l s := by
  have hremoved := removed_of_run h hord hbefore hat hrun
  exact ⟨hremoved.safe_of_removesOnly hl, hremoved.removesOnly_of_safe hl⟩

end Run

/-- The small volume just mounted, with one file made in its root directory. -/
def oneFileVolume (path : CString) : State := final (fatFuseMknod quietEnv path freshVolume)

/-- The file and the root directory of such a volume. -/
structure OneFile (path : CString) (x y : FatFile) (e : DirEntry) (u : State) : Prop where
  treeWf : (oneFileVolume path).TreeWf
  clusterOrder : 5 ≤ (oneFileVolume path).table.clusterOrder
  beforeData : (oneFileVolume path).table.BeforeData
  fileIn : FileIn (oneFileVolume path) path 1 0 x y e
  dirClusters : (oneFileVolume path).DirClusters y [2]
  run : fatFuseUnlink path (oneFileVolume path) = .ok 0 u
  slot : y.startCluster = 2 ∧ x.posInParent = 0

/-- The removal of a file just created, given what the calls answer. -/
theorem exists_oneFile (path : CString)
    (hmade : ret? (fatFuseMknod quietEnv path freshVolume) = some 0)
    (hends : ret? (fatFuseUnlink path (oneFileVolume path)) = some 0)
    (htree : ((oneFileVolume path).treeEntry 0).map TreeEntry.file = some 0 ∧
      ((oneFileVolume path).treeEntry 1).map (fun d => (d.path, d.file, d.parent)) =
        some (path, 1, some 0))
    (hfiles : ((oneFileVolume path).files.cell 0).map FatFile.startCluster = some 2 ∧
      ((oneFileVolume path).files.cell 1).map (fun x => (x.posInParent, x.dentry.isSome)) = some (0, true))
    (htable : (oneFileVolume path).table.numDataClusters = 6 ∧ (oneFileVolume path).table.fatLen = 8 ∧
      (oneFileVolume path).table.fatOffset = 0 ∧ (oneFileVolume path).table.dataStartOffset = 32 ∧
      (oneFileVolume path).table.clusterOrder = 5 ∧ (oneFileVolume path).table.next 2 = none) :
    ∃ x y e u, OneFile path x y e u := by
  obtain ⟨u, hrun⟩ := ret?_eq_some hends
  obtain ⟨v, hmknod⟩ := ret?_eq_some hmade
  obtain ⟨hroot, hnode⟩ := htree
  obtain ⟨p, hp, hpfile⟩ := Option.map_eq_some_iff.mp hroot
  obtain ⟨d, hd, hdata⟩ := Option.map_eq_some_iff.mp hnode
  obtain ⟨hdir, hfile⟩ := hfiles
  obtain ⟨y, hy, hystart⟩ := Option.map_eq_some_iff.mp hdir
  obtain ⟨x, hx, hxdata⟩ := Option.map_eq_some_iff.mp hfile
  obtain ⟨hpos, hsome⟩ := Prod.mk.inj hxdata
  obtain ⟨e, he⟩ := Option.isSome_iff_exists.mp hsome
  obtain ⟨hclusters, hlen, hoffset, hstart, horder, hnext⟩ := htable
  obtain ⟨hpath, hdfile, hparent⟩ : d.path = path ∧ d.file = 1 ∧ d.parent = some 0 := by
    simpa using hdata
  have hvalid : (oneFileVolume path).table.IsValidClusterNumber 2 := by
    unfold FatTable.IsValidClusterNumber
    rw [hclusters]
    decide
  refine ⟨x, y, e, u, ?_, ?_, ?_, ⟨⟨1, d, 0, p, hd, hpath, hdfile, hparent, hp, hpfile⟩, hx, he, hy⟩, ?_,
    hrun, hystart, hpos⟩
  · have hv : oneFileVolume path = v := by
      unfold oneFileVolume
      rw [hmknod]
      rfl
    rw [fatFuseMknod_eq] at hmknod
    rw [hv]
    exact (createFile_enlarges freshSession_mounted.treeWf hmknod).wf
  · exact Nat.le_of_eq horder.symm
  · unfold FatTable.BeforeData
    omega
  · unfold State.DirClusters
    rw [hystart, if_pos hvalid]
    refine ⟨⟨by decide, hnext⟩, fun c hc => ?_⟩
    rw [List.mem_singleton.mp hc, hlen]
    decide

/-- An ordinary file is taken out. -/
theorem removesOnly_iff_dirPath :
    ∃ x y e u, fatFuseUnlink dirPath (oneFileVolume dirPath) = .ok 0 u ∧
      (RemovesOnly y e 0 [2] (oneFileVolume dirPath) u ↔
        RemovalSafe x y e [2] (oneFileVolume dirPath)) := by
  obtain ⟨x, y, e, u, h⟩ := exists_oneFile dirPath (by decide +kernel) (by decide +kernel)
    (by decide +kernel) (by decide +kernel) (by decide +kernel)
  have hrun : fatFuseUnlink dirPath (oneFileVolume dirPath) = .ok 0 u ∨
      fatFuseRmdir quietEnv dirPath (oneFileVolume dirPath) = .ok 0 u := .inl h.run
  exact ⟨x, y, e, u, h.run, removesOnly_iff h.treeWf h.clusterOrder h.beforeData h.fileIn h.dirClusters hrun⟩

/-- The hidden log is listed again after it was deleted. -/
theorem not_forall_removesOnly :
    ¬ ∀ (s u : State) (env : Env) (path : CString) (file dir : Nat) (x y : FatFile) (e : DirEntry)
      (l : List Nat), s.TreeWf → 5 ≤ s.table.clusterOrder → s.table.BeforeData → FileIn s path file dir x y e →
      s.DirClusters y l →
      (fatFuseUnlink path s = .ok 0 u ∨ fatFuseRmdir env path s = .ok 0 u) →
      RemovesOnly y e dir l s u := by
  intro hall
  obtain ⟨x, y, e, u, h⟩ := exists_oneFile fsLogPath (by decide +kernel) (by decide +kernel)
    (by decide +kernel) (by decide +kernel) (by decide +kernel)
  have hrun : fatFuseUnlink fsLogPath (oneFileVolume fsLogPath) = .ok 0 u ∨
      fatFuseRmdir quietEnv fsLogPath (oneFileVolume fsLogPath) = .ok 0 u := .inl h.run
  have hright := hall _ u quietEnv _ 1 0 x y e [2] h.treeWf h.clusterOrder h.beforeData h.fileIn h.dirClusters
    hrun
  have hremoved := removed_of_run h.treeWf h.clusterOrder h.beforeData h.fileIn hrun
  have hslot := (hremoved.safe_of_removesOnly h.dirClusters hright).slot
  rw [h.slot.1, h.slot.2] at hslot
  have hfacts : (((oneFileVolume fsLogPath).files.cell 1).bind FatFile.dentry).map (fun e =>
      decide (SameName e ((oneFileVolume fsLogPath).clusterEntry 2 0) ∧ (removedEntry e).Yields)) =
      some true := by decide +kernel
  rw [h.fileIn.file, Option.bind_some, h.fileIn.dentry, Option.map_some, Option.some.injEq,
    decide_eq_true_iff] at hfacts
  obtain ⟨hname, hyields⟩ := hfacts
  rcases hslot (List.mem_singleton_self 2) with ⟨-, hhidden, -⟩ | ⟨hno, -⟩
  · exact hhidden (fun j hj => absurd hj (Nat.not_lt_zero j)) hyields
  · exact hno hname

end OsLabs.Fat
