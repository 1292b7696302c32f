import OsLabs.Fat.WriteFile

/-! # `fat_file_pwrite` as an array update

What a write is for: the content of the file, an array of bytes, is overwritten from an offset on and
extended when needed, and no other file changes. The function does this as long as the write ends
within the clusters the file has after one has been allocated ahead of the loop: the loop links
further clusters but does not move on to them. -/

namespace OsLabs.Fat

/-! ## Updating an array -/

section Overwrite

variable {α : Type}

/-- The array `a` with `b` stored from `offset` on, extended when needed. -/
def overwrite (a : List α) (offset : Nat) (b : List α) : List α :=
  a.take offset ++ b ++ a.drop (offset + b.length)

/-- Overwriting makes the array as long as the bytes reach. -/
theorem length_overwrite {a : List α} {offset : Nat} (h : offset ≤ a.length) (b : List α) :
    (overwrite a offset b).length = max a.length (offset + b.length) := by
  rw [overwrite, List.length_append, List.length_append, List.length_take, List.length_drop]
  omega

/-- Inside the range that was stored. -/
theorem getElem?_overwrite_of_mem {a b : List α} {offset j : Nat} (h : offset ≤ a.length)
    (hj : j < b.length) : (overwrite a offset b)[offset + j]? = b[j]? := by
  rw [overwrite, List.getElem?_append_left, List.getElem?_append_right] <;>
    simp only [List.length_append, List.length_take, Nat.min_eq_left h]
  · rw [Nat.add_sub_cancel_left]
  · exact Nat.le_add_right _ _
  · omega

/-- Outside of it. -/
theorem getElem?_overwrite_of_notMem {a b : List α} {offset j : Nat} (h : offset ≤ a.length)
    (hj : ¬ (offset ≤ j ∧ j < offset + b.length)) : (overwrite a offset b)[j]? = a[j]? := by
  have hlen : (a.take offset).length = offset := by rw [List.length_take, Nat.min_eq_left h]
  by_cases hlt : j < offset
  · rw [overwrite, List.append_assoc, List.getElem?_append_left (by omega), List.getElem?_take_of_lt hlt]
  · rw [overwrite, List.getElem?_append_right (by rw [List.length_append]; omega), List.getElem?_drop,
      List.length_append, hlen]
    congr 1
    omega

end Overwrite

/-! ## The update -/

/-- `fat_file_pwrite` of the buffer at `offset` succeeds, updates the array of bytes of the file and
changes no other file. -/
def WritesArray (env : Env) (s : State) (live unread : Set Nat) (file p : Nat) (buf : List UInt8)
    (offset : Nat) : Prop :=
  ∃ s', fatFilePwrite env file buf offset (some p) s = .ok (buf.length : Int) s' ∧
    (∀ d, s.entry file = some d →
      ∃ d', s'.entry file = some d' ∧ d'.fileSize = max d.fileSize (offset + buf.length)) ∧
    (∀ bytes, HasContent s file bytes → HasContent s' file (overwrite bytes offset buf)) ∧
    (∀ g ∈ live, g ≠ file → ∀ bytes, HasContent s g bytes → HasContent s' g bytes) ∧
    ∀ c ∈ unread, ∀ n bytes, HasBytes s c n bytes → HasBytes s' c n bytes

/-- A regular file of a well-formed volume whose chain `l` covers its size and reaches the cluster of
`offset`, in a directory `p`. -/
structure WriteTarget (s : State) (live unread : Set Nat) (file p : Nat) (x y : FatFile) (d : DirEntry)
    (l : List Nat) (offset : Nat) : Prop where
  volume : VolumeWf s live unread
  file_live : file ∈ live
  parent_live : p ∈ live
  cell : s.files.cell file = some x
  entry : x.dentry = some d
  regular : ¬ d.IsDirectory
  parent_cell : s.files.cell p = some y
  parent_directory : ∃ e, y.dentry = some e ∧ e.IsDirectory
  chain : s.table.IsChain x.startCluster l
  covers : d.fileSize ≤ l.length * s.table.bytesPerCluster
  reaches : offset / s.table.bytesPerCluster + 1 ≤ l.length
  offset_le : offset ≤ d.fileSize

/-- Extending a chain does not move its bytes. -/
theorem filePos_of_isPrefix {t : FatTable} {l l' : List Nat} (h : l <+: l') {q : Nat}
    (hq : q < l.length * t.bytesPerCluster) : filePos t l' q = filePos t l q := by
  have hk : q / t.bytesPerCluster < l.length := (Nat.div_lt_iff_lt_mul t.bytesPerCluster_pos).mpr hq
  rw [filePos_eq (List.getElem?_eq_getElem hk), filePos_eq (List.prefix_iff_getElem?.mp h _ hk)]

/-- The size `fat_file_pwrite` stores. -/
theorem fileSize_pwrittenEntry (now : Int) (d : DirEntry) {endOffset : Nat} (h : endOffset < 2 ^ 32) :
    (pwrittenEntry now d endOffset).fileSize = max d.fileSize endOffset := by
  unfold pwrittenEntry
  rw [DirEntry.fileSize_fillDentryTime]
  split
  · rw [DirEntry.fileSize_setFileSize]
    omega
  · omega

namespace WriteTarget

variable {s s' : State} {live unread : Set Nat} {file p : Nat} {x y : FatFile} {d : DirEntry}
  {l l' : List Nat} {offset : Nat} {buf : List UInt8}

section

variable (h : WriteTarget s live unread file p x y d l offset)

include h

/-- A file is not its own directory. -/
theorem parent_ne : p ≠ file := by
  rintro rfl
  obtain ⟨e, he, hdir⟩ := h.parent_directory
  obtain rfl := Option.some.inj (h.cell.symm.trans h.parent_cell)
  obtain rfl := Option.some.inj (h.entry.symm.trans he)
  exact h.regular hdir

/-- The chain of the file is one of those to keep apart. -/
theorem start_mem : x.startCluster ∈ s.starts live ∪ unread :=
  .inl ⟨file, h.file_live, x, h.cell, rfl⟩

/-- The chain of the directory is one of those to keep apart. -/
theorem parent_start_mem : y.startCluster ∈ s.starts live ∪ unread :=
  .inl ⟨p, h.parent_live, y, h.parent_cell, rfl⟩

/-- The file and its directory have different chains. -/
theorem parent_start_ne : y.startCluster ≠ x.startCluster := fun heq =>
  h.parent_ne (h.volume.distinct p h.parent_live file h.file_live y x h.parent_cell h.cell heq)

/-- The first cluster of the directory is not one of the file. -/
theorem parent_start : s.table.IsValidClusterNumber y.startCluster ∧ y.startCluster ∉ l ∧
    s.table.fatMap y.startCluster ≠ fatClusterFree := by
  obtain ⟨m, hm⟩ := h.volume.chains.exists_isChain _ h.parent_start_mem
  exact ⟨hm.start.isValid, fun hmem => h.volume.chains.disjoint _ h.parent_start_mem _ h.start_mem
    h.parent_start_ne m l hm h.chain hm.start_mem hmem, hm.allocated _ hm.start_mem⟩

end

/-! ### After a write that fits -/

/-- The file a write leaves in memory. -/
theorem cell_pwritten (h : WriteTarget s live unread file p x y d l offset)
    (hw : Pwritten file x y d buf offset l l' s s') (hend : offset + buf.length < 2 ^ 32) :
    ∃ d', s'.files.cell file = some { x with dentry := some d' } ∧
      d'.fileSize = max d.fileSize (offset + buf.length) := by
  obtain ⟨now, hfiles⟩ := hw.files
  refine ⟨pwrittenEntry now d (offset + buf.length), ?_, fileSize_pwrittenEntry now d hend⟩
  rw [hfiles, Heap.cell_modify_self h.cell]

/-- The other files are as they were. -/
theorem cell_pwritten_ne (hw : Pwritten file x y d buf offset l l' s s') {g : Nat} (hg : g ≠ file) :
    s'.files.cell g = s.files.cell g := by
  obtain ⟨now, hfiles⟩ := hw.files
  rw [hfiles, Heap.cell_modify_ne hg]

/-- The data of the file after a write. -/
theorem chainBytes_pwritten (h : WriteTarget s live unread file p x y d l offset)
    (hw : Pwritten file x y d buf offset l l' s s')
    (hfit : offset + buf.length ≤ l'.length * s.table.bytesPerCluster) :
    (chainBytes s' l').take (max d.fileSize (offset + buf.length)) =
      overwrite ((chainBytes s l).take d.fileSize) offset buf := by
  have ht := h.volume.table
  have hB := hw.sameVolume.bytesPerCluster
  have hlen : ((chainBytes s l).take d.fileSize).length = d.fileSize := by
    rw [List.length_take, length_chainBytes, Nat.min_eq_left h.covers]
  have hoff : offset ≤ ((chainBytes s l).take d.fileSize).length := by
    rw [hlen]
    exact h.offset_le
  have hle : l.length * s.table.bytesPerCluster ≤ l'.length * s.table.bytesPerCluster :=
    Nat.mul_le_mul_right _ hw.isPrefix.length_le
  have hcovers := h.covers
  have hvalid (c : Nat) (hc : c ∈ l') : s.table.IsValidClusterNumber c :=
    (hw.sameVolume.isValid_iff c).mp (hw.isChain.isValid c hc)
  have hpos (q : Nat) : filePos s'.table l' q = filePos s.table l' q := by
    unfold filePos
    rw [hB, hw.sameVolume.clusterOffset]
  -- Byte by byte: inside the buffer, inside the old file, and behind the end.
  refine List.ext_getElem? fun j => ?_
  by_cases hj : j < max d.fileSize (offset + buf.length)
  · have hj' : j < l'.length * s.table.bytesPerCluster := by omega
    rw [List.getElem?_take_of_lt hj, getElem?_chainBytes (by rw [hB]; exact hj'), hpos]
    -- A byte of the buffer is where the loop stored it.
    by_cases hin : offset ≤ j ∧ j < offset + buf.length
    · obtain ⟨k, rfl⟩ := Nat.exists_eq_add_of_le hin.1
      have hk : k < buf.length := by omega
      rw [hw.stored k hk, getElem?_overwrite_of_mem hoff hk, List.getD_eq_getElem?_getD,
        List.getElem?_eq_getElem hk, Option.getD_some]
    · have hjd : j < d.fileSize := by omega
      rw [getElem?_overwrite_of_notMem hoff hin, List.getElem?_take_of_lt hjd,
        getElem?_chainBytes (by omega)]
      obtain ⟨c, hc, i, hi, heq⟩ := filePos_mem hj'
      -- The entry is stored in the first cluster of the parent, which is none of the clusters of the file.
      have hcy : c ≠ y.startCluster := by
        rintro rfl
        exact h.parent_start.2.2 (hw.free _ hc h.parent_start.2.1)
      rw [heq, hw.kept c (hvalid c hc) hcy i hi, ← heq, filePos_of_isPrefix hw.isPrefix (by omega)]
      -- No byte of the buffer shares its position.
      intro k hk heq'
      have := filePos_inj hw.isChain.chain.nodup hvalid hj' (by omega) (heq.trans heq')
      omega
  · rw [List.getElem?_eq_none (Nat.le_trans (List.length_take_le _ _) (Nat.le_of_not_lt hj)),
      List.getElem?_eq_none]
    rw [length_overwrite hoff, hlen]
    exact Nat.le_of_not_lt hj

/-- The chains of the other files do not meet the clusters of the file. -/
theorem disjoint_pwritten (h : WriteTarget s live unread file p x y d l offset)
    (hw : Pwritten file x y d buf offset l l' s s') {c : Nat} (hc : c ∈ s.starts live ∪ unread)
    (hcx : c ≠ x.startCluster) {m : List Nat} (hm : s.table.IsChain c m) : m.Disjoint l' :=
  fun e hem hel => by
    by_cases hl : e ∈ l
    · exact h.volume.chains.disjoint c hc _ h.start_mem hcx m l hm h.chain hem hl
    · exact hm.allocated e hem (hw.free e hel hl)

/-- The data of the other files is kept, but for that of the directory. -/
theorem hasBytes_pwritten (h : WriteTarget s live unread file p x y d l offset)
    (hw : Pwritten file x y d buf offset l l' s s')
    (hfit : offset + buf.length ≤ l'.length * s.table.bytesPerCluster) {c : Nat}
    (hc : c ∈ s.starts live ∪ unread) (hcx : c ≠ x.startCluster) {n : Nat}
    (hcy : c ≠ y.startCluster ∨ n = 0) {bytes : List UInt8} (hb : HasBytes s c n bytes) :
    HasBytes s' c n bytes := by
  obtain ⟨m, hm⟩ := h.volume.chains.exists_isChain c hc
  have hdisj := h.disjoint_pwritten hw hc hcx hm
  have hm' : s'.table.IsChain c m :=
    hm.congr hw.sameVolume fun e he => hw.fatMap e fun hel => hdisj he hel
  obtain ⟨m', hcv, hchain, rfl⟩ := hb
  obtain rfl := hchain.unique hm.chain
  refine ⟨m', hm'.start.isValid, hm'.chain, ?_⟩
  rcases hcy with hcy | rfl
  · congr 1
    refine (chainBytes_congr hw.sameVolume fun e he i hi => ?_).symm
    have hev := hm.isValid e he
    have hey : e ≠ y.startCluster := by
      rintro rfl
      obtain ⟨k, hk⟩ := h.volume.chains.exists_isChain _ h.parent_start_mem
      exact h.volume.chains.disjoint c hc _ h.parent_start_mem hcy m' k hm hk he hk.start_mem
    refine hw.kept e hev hey i hi fun j hj heq => ?_
    obtain ⟨e', he', i', hi', heq'⟩ := filePos_mem (t := s.table) (l := l') (q := offset + j)
      (Nat.lt_of_lt_of_le (Nat.add_lt_add_left hj offset) hfit)
    have he'v := (hw.sameVolume.isValid_iff e').mp (hw.isChain.isValid e' he')
    obtain ⟨rfl, -⟩ := FatTable.clusterOffset_disjoint hev he'v hi hi' (heq.trans heq')
    exact hdisj he he'
  · rw [List.take_zero, List.take_zero]

/-- A write that fits is the update of the array. -/
theorem writesArray_of_fits (h : WriteTarget s live unread file p x y d l offset) (env : Env)
    (hio : s.IoOk) (herrno : s.errno = 0)
    (hfree : offset / s.table.bytesPerCluster + 1 < l.length ∨ 0 < s.table.freeClusters.length)
    (hfit : buf.length = 0 ∨ (offset + buf.length - 1) / s.table.bytesPerCluster <
      max l.length (offset / s.table.bytesPerCluster + 2))
    (hend : offset + buf.length < 2 ^ 32) : WritesArray env s live unread file p buf offset := by
  obtain ⟨hq, hql, hqused⟩ := h.parent_start
  obtain ⟨s', l', hrun, hw⟩ := fatFilePwrite_fits buf env h.volume.table hio herrno h.cell
    h.entry h.parent_cell h.parent_ne h.offset_le h.chain h.reaches hq hql hqused hfree hfit
  have hin : offset + buf.length ≤ l'.length * s.table.bytesPerCluster := by
    have hle : l.length * s.table.bytesPerCluster ≤ l'.length * s.table.bytesPerCluster :=
      Nat.mul_le_mul_right _ hw.isPrefix.length_le
    have := h.covers
    have := h.offset_le
    rcases hfit with h0 | hlt
    · omega
    · rw [← hw.length_eq, Nat.div_lt_iff_lt_mul s.table.bytesPerCluster_pos] at hlt
      omega
  obtain ⟨d', hcell, hsize⟩ := h.cell_pwritten hw hend
  have hentry : s.entry file = some d := by
    rw [State.entry, h.cell, Option.bind_some, h.entry]
  refine ⟨s', hrun, fun e he => ?_, fun bytes hb => ?_, fun g hg hgf bytes hb => ?_,
    fun c hc n bytes hb => ?_⟩
  · obtain rfl := Option.some.inj (hentry.symm.trans he)
    exact ⟨d', by rw [State.entry, hcell, Option.bind_some], hsize⟩
  · obtain ⟨f, e, hf, he, m, hv, hm, rfl⟩ := hb
    obtain rfl := Option.some.inj (h.cell.symm.trans hf)
    obtain rfl := Option.some.inj (h.entry.symm.trans he)
    obtain rfl := hm.unique h.chain.chain
    refine ⟨_, d', hcell, rfl, l', hw.isChain.start.isValid, hw.isChain.chain, ?_⟩
    rw [hsize, h.chainBytes_pwritten hw hin]
  · obtain ⟨f, e, hf, he, hb⟩ := hb
    have hfx : f.startCluster ≠ x.startCluster := fun heq =>
      hgf (h.volume.distinct g hg file h.file_live f x hf h.cell heq)
    refine ⟨f, e, by rw [cell_pwritten_ne hw hgf, hf], he,
      h.hasBytes_pwritten hw hin (.inl ⟨g, hg, f, hf, rfl⟩) hfx ?_ hb⟩
    by_cases hgp : g = p
    · -- the directory has no content of its own
      subst hgp
      obtain ⟨e', he', hdir⟩ := h.parent_directory
      obtain rfl := Option.some.inj (hf.symm.trans h.parent_cell)
      obtain rfl := Option.some.inj (he.symm.trans he')
      exact .inr (h.volume.directory g hg e (by rw [State.entry, hf, Option.bind_some, he]) hdir)
    · exact .inl fun heq => hgp (h.volume.distinct g hg p h.parent_live f y hf h.parent_cell heq)
  · have hnot (z : Nat) (hz : z ∈ s.starts live) : c ≠ z := fun heq =>
      Set.disjoint_left.mp h.volume.unread_disjoint hz (heq ▸ hc)
    exact h.hasBytes_pwritten hw hin (.inr hc) (hnot _ ⟨file, h.file_live, x, h.cell, rfl⟩)
      (.inl (hnot _ ⟨p, h.parent_live, y, h.parent_cell, rfl⟩)) hb

/-! ### Writes that fail -/

/-- A write behind the last cluster needs a free cluster, even when it ends inside that cluster. -/
theorem not_writesArray_of_full (h : WriteTarget s live unread file p x y d l offset) (env : Env)
    (hio : s.IoOk) (herrno : s.errno = 0)
    (hlast : ¬ offset / s.table.bytesPerCluster + 1 < l.length) (hfull : s.table.freeClusters = []) :
    ¬ WritesArray env s live unread file p buf offset := by
  rintro ⟨s', hrun, -⟩
  obtain ⟨s'', hfault⟩ := fatFilePwrite_full buf env (some p) h.volume.table hio herrno h.cell
    h.entry h.offset_le h.chain (Nat.le_antisymm h.reaches (Nat.le_of_not_lt hlast)) hfull
  rw [hfault] at hrun
  cases hrun

/-- The size of a file is stored in 32 bits. -/
theorem not_writesArray_of_large (h : WriteTarget s live unread file p x y d l offset) (env : Env)
    (hlarge : 2 ^ 32 ≤ offset + buf.length) : ¬ WritesArray env s live unread file p buf offset := by
  rintro ⟨s', -, hsize, -⟩
  obtain ⟨d', -, hd'⟩ := hsize d (by rw [State.entry, h.cell, Option.bind_some, h.entry])
  have := d'.fileSize_lt
  omega

/-- A write that goes on behind the `n` clusters the file has after the allocation: the byte due at
the start of the cluster behind them stands at the start of the last one. -/
theorem not_writesArray_of_overruns (h : WriteTarget s live unread file p x y d l offset) (env : Env)
    (hio : s.IoOk) (herrno : s.errno = 0) {n : Nat}
    (hn : n = max l.length (offset / s.table.bytesPerCluster + 2))
    (hfree : offset + buf.length ≤
      (l.length + s.table.freeClusters.length) * s.table.bytesPerCluster)
    (hover : n * s.table.bytesPerCluster < offset + buf.length)
    (hdiff : buf.getD (n * s.table.bytesPerCluster - offset) 0 ≠
      buf.getD ((n - 1) * s.table.bytesPerCluster - offset) 0) :
    ¬ WritesArray env s live unread file p buf offset := by
  rintro ⟨s', hrun, -, hcontent, -⟩
  obtain ⟨hq, hql, hqused⟩ := h.parent_start
  have hreaches := h.reaches
  have hB := s.table.bytesPerCluster_pos
  have hmany : n < l.length + s.table.freeClusters.length :=
    Nat.lt_of_mul_lt_mul_right (Nat.lt_of_lt_of_le hover hfree)
  obtain ⟨s'', hrun', hvol, ⟨now, hfiles⟩, hbyte⟩ := fatFilePwrite_overruns buf env
    h.volume.table hio herrno h.cell h.entry h.parent_cell h.parent_ne h.offset_le h.chain h.reaches
    hq hql hqused (by
      generalize offset / s.table.bytesPerCluster = k at hreaches hn ⊢
      omega) hn hover
  obtain ⟨-, rfl⟩ : (buf.length : Int) = buf.length ∧ s' = s'' := by
    rw [hrun] at hrun'
    cases hrun'
    exact ⟨rfl, rfl⟩
  obtain ⟨f, d', hf, hd', m, -, hm, hbytes⟩ := hcontent _
    ⟨x, d, h.cell, h.entry, l, h.chain.start.isValid, h.chain.chain, rfl⟩
  rw [hfiles, Heap.cell_modify_self h.cell] at hf
  cases hf
  have hbyte := hbyte m hm
  -- the position of the start of the last cluster lies in the range that was to be stored
  have hlow : offset ≤ (n - 1) * s.table.bytesPerCluster := by
    refine Nat.le_of_lt ((Nat.div_lt_iff_lt_mul hB).mp ?_)
    have := Nat.le_max_right l.length (offset / s.table.bytesPerCluster + 2)
    rw [← hn] at this
    exact Nat.lt_of_succ_le (Nat.le_sub_of_add_le this)
  have hhigh : (n - 1) * s.table.bytesPerCluster ≤ n * s.table.bytesPerCluster :=
    Nat.mul_le_mul_right _ (Nat.sub_le n 1)
  obtain ⟨k, hk⟩ := Nat.exists_eq_add_of_le hlow
  have hkl : k < buf.length := by omega
  have hlen : offset ≤ ((chainBytes s l).take d.fileSize).length := by
    rw [List.length_take, length_chainBytes, Nat.min_eq_left h.covers]
    exact h.offset_le
  have hat := congrArg (fun l => l[offset + k]?) hbytes
  rw [getElem?_overwrite_of_mem hlen hkl, List.getElem?_take, ← hk, hbyte,
    List.getElem?_eq_getElem hkl] at hat
  rw [hk, Nat.add_sub_cancel_left, List.getD_eq_getElem?_getD, List.getD_eq_getElem?_getD,
    List.getElem?_eq_getElem hkl] at hdiff
  split at hat
  · rw [List.getD_eq_getElem?_getD] at hat
    exact hdiff (Option.some.inj hat).symm
  · cases hat

end WriteTarget

/-- On a volume with enough free clusters for the larger file, `fat_file_pwrite` is the update of the
array for all buffers of a size exactly when there is a cluster behind the one of `offset`, or a free
one to put there, and the write ends within the clusters up to that one or up to the old end of the
chain, and before `2 ^ 32`. -/
theorem fatFilePwrite_writesArray_iff (env : Env) {s : State} {live unread : Set Nat} {file p : Nat}
    {x y : FatFile} {d : DirEntry} {l : List Nat} {offset size : Nat}
    (h : WriteTarget s live unread file p x y d l offset) (hio : s.IoOk) (herrno : s.errno = 0)
    (hfree : offset + size ≤
      (l.length + s.table.freeClusters.length) * s.table.bytesPerCluster) :
    (∀ buf : List UInt8, buf.length = size → WritesArray env s live unread file p buf offset) ↔
      (offset / s.table.bytesPerCluster + 1 < l.length ∨ s.table.freeClusters ≠ []) ∧
        (size = 0 ∨ offset + size < 2 ^ 32 ∧ (offset + size - 1) / s.table.bytesPerCluster <
          max l.length (offset / s.table.bytesPerCluster + 2)) := by
  have hB := s.table.bytesPerCluster_pos
  constructor
  · intro hall
    refine ⟨?_, ?_⟩
    · by_contra hnot
      obtain ⟨hlast, hfull⟩ := not_or.mp hnot
      exact h.not_writesArray_of_full env hio herrno hlast (not_not.mp hfull)
        (hall (List.replicate size 0) (List.length_replicate))
    · refine or_iff_not_imp_left.mpr fun hsize => ⟨?_, ?_⟩
      · by_contra hlarge
        exact h.not_writesArray_of_large env (by rw [List.length_replicate]; omega)
          (hall (List.replicate size 0) (List.length_replicate))
      · by_contra hover
        obtain ⟨n, hn⟩ : ∃ n, n = max l.length (offset / s.table.bytesPerCluster + 2) := ⟨_, rfl⟩
        rw [← hn, Nat.div_lt_iff_lt_mul hB] at hover
        -- a buffer whose only non-zero byte is due behind the clusters of the file
        obtain ⟨buf, hbuf⟩ : ∃ buf, buf = (List.replicate size (0 : UInt8)).set
          (n * s.table.bytesPerCluster - offset) 1 := ⟨_, rfl⟩
        have hlen : buf.length = size := by rw [hbuf, List.length_set, List.length_replicate]
        refine h.not_writesArray_of_overruns env hio herrno hn (by rw [hlen]; exact hfree)
          (by rw [hlen]; omega) ?_ (hall buf hlen)
        have hlow : offset < n * s.table.bytesPerCluster := by
          refine (Nat.div_lt_iff_lt_mul hB).mp (Nat.lt_of_lt_of_le ?_ (hn ▸ Nat.le_max_right _ _))
          exact Nat.lt_add_of_pos_right Nat.zero_lt_two
        have hne : (n - 1) * s.table.bytesPerCluster < n * s.table.bytesPerCluster :=
          (Nat.mul_lt_mul_right hB).mpr (Nat.sub_one_lt_of_lt
            (Nat.lt_of_lt_of_le (Nat.succ_pos _) (hn ▸ Nat.le_max_right _ _)))
        have hone : buf.getD (n * s.table.bytesPerCluster - offset) 0 = 1 := by
          rw [hbuf, List.getD_eq_getElem?_getD, List.getElem?_set_self (by
            rw [List.length_replicate]
            omega), Option.getD_some]
        have hzero : buf.getD ((n - 1) * s.table.bytesPerCluster - offset) 0 = 0 := by
          rw [hbuf, List.getD_eq_getElem?_getD, List.getElem?_set_ne (by omega),
            List.getElem?_replicate]
          split <;> rfl
        rw [hone, hzero]
        decide
  · rintro ⟨hnext, hfit⟩ buf rfl
    refine h.writesArray_of_fits env hio herrno (hnext.imp id List.length_pos_iff.mpr)
      (hfit.imp id And.right) ?_
    rcases hfit with h0 | hfit
    · rw [h0]
      exact Nat.lt_of_le_of_lt h.offset_le d.fileSize_lt
    · exact hfit.1

/-- The log of the small volume can be written. -/
theorem smallVolume_writeTarget : WriteTarget smallVolume {0, 1} ∅ 1 0
    (fileAt 3 fileAttributeArchive fsLogPath) (fileAt 2 fileAttributeDirectory rootPath)
    (DirEntry.zero.setAttribs fileAttributeArchive) [3] 0 where
  volume := smallVolume_wf
  file_live := .inr rfl
  parent_live := .inl rfl
  cell := rfl
  entry := rfl
  regular := by decide
  parent_cell := rfl
  parent_directory := ⟨_, rfl, by decide⟩
  chain := smallTable_isChain (.inr rfl)
  covers := by decide
  reaches := by decide
  offset_le := by decide

/-- Two clusters can be written to the empty file of the small volume. -/
theorem fatFilePwrite_writesArray_smallVolume :
    WritesArray quietEnv smallVolume {0, 1} ∅ 1 0 (List.replicate 64 7) 0 :=
  (fatFilePwrite_writesArray_iff quietEnv smallVolume_writeTarget
    (fun _ h => absurd h List.not_mem_nil) rfl (by decide)).mpr (by decide) _ List.length_replicate

/-- Three clusters cannot: the third one overwrites the second, although there are four free ones. -/
theorem not_forall_writesArray :
    ¬ ∀ (env : Env) (s : State) (live unread : Set Nat) (file p : Nat) (x y : FatFile) (d : DirEntry)
      (l : List Nat) (offset : Nat) (buf : List UInt8),
      WriteTarget s live unread file p x y d l offset → s.IoOk → s.errno = 0 →
      offset + buf.length ≤ (l.length + s.table.freeClusters.length) * s.table.bytesPerCluster →
      WritesArray env s live unread file p buf offset := by
  intro hall
  have hio : smallVolume.IoOk := fun _ h => absurd h List.not_mem_nil
  refine smallVolume_writeTarget.not_writesArray_of_overruns quietEnv hio rfl (n := 2) rfl ?_ ?_ ?_
    (hall quietEnv smallVolume _ _ 1 0 _ _ _ [3] 0 (List.replicate 64 0 ++ List.replicate 32 1)
      smallVolume_writeTarget hio rfl (by decide))
  all_goals decide

end OsLabs.Fat
