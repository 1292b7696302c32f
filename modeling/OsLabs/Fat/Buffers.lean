import OsLabs.Fat.FuseOps
import OsLabs.Fat.ShortNames

/-! # Names and paths in their buffers

Four functions assemble names and paths in buffers of a size fixed beforehand. `build_filename` stays
inside its buffer; `filename_from_path` does so for extensions of some lengths, `filepath_from_name`
in the root directory, and `fat_fuse_log_activity` for short paths (`namesFit_iff`). -/

namespace OsLabs.Fat

/-! ## The stores of `filename_from_path` -/

/-- A store of `filename_from_path`: an index of one of the two fields, and the byte stored there. -/
inductive NameStore
  | base (i : Nat) (c : UInt8)
  | extension (j : Nat) (c : UInt8)

/-- The index lies inside the field. -/
def NameStore.Inside : NameStore → Prop
  | .base i _ => i < 8
  | .extension j _ => j < 3

/-- The directory entry after a store, which must not leave the entry. -/
def NameStore.apply (entry : DirEntry) : NameStore → Except Fault DirEntry
  | .base i c => .ok (entry.setByte i c)
  | .extension j c => if 8 + j < 32 then .ok (entry.setByte (8 + j) c) else .error .outOfBounds

/-- The stores of the first loop, with the index it stops at. -/
def baseStores (src : Nat → UInt8) (nameLen : Nat) (dotPos : Option Nat) :
    Nat → Nat → Nat × List NameStore
  | 0, i => (i, [])
  | fuel + 1, i =>
      if i + 1 < nameLen ∧ dotPos ≠ some (i + 1) then
        let (stop, stores) := baseStores src nameLen dotPos fuel (i + 1)
        (stop, .base i (src i) :: stores)
      else (i + 1, [.base i (src i)])

/-- The stores of the second loop, with the index it stops at. -/
def extensionStores : List UInt8 → Nat → Nat × List NameStore
  | [], j => (j, [])
  | c :: rest, j =>
      if c = space then (j, [])
      else
        let (stop, stores) := extensionStores rest (j + 1)
        (stop, .extension j c :: stores)

/-- The stores of `filename_from_path`, in order. -/
def filenameStores (src : CString) (afterString : Nat → UInt8) : List NameStore :=
  let mem := stringMem src afterString
  let nameLen := filenameLen mem 8
  if nameLen = 0 then [.base 0 0, .extension 0 0]
  else
    let dotPos := strrchr src dot
    let (i, base) := baseStores mem nameLen dotPos 8 0
    let (j, extension) :=
      if dotPos ≠ none ∧ i < nameLen then extensionStores (src.drop (i + 1)) 0 else (0, [])
    base ++ extension ++ if j < 3 then [.extension (j + 1) 0] else []

section Stores

variable {src : Nat → UInt8} {nameLen fuel i j : Nat} {dotPos : Option Nat}

/-- The first loop of `filename_from_path` carries out its stores in order. -/
theorem copyBase_eq (src : Nat → UInt8) (nameLen : Nat) (dotPos : Option Nat) (fuel i : Nat)
    (entry : DirEntry) : (copyBase src nameLen dotPos fuel i entry).1 =
        (baseStores src nameLen dotPos fuel i).1 ∧
      .ok (copyBase src nameLen dotPos fuel i entry).2 =
        (baseStores src nameLen dotPos fuel i).2.foldlM NameStore.apply entry := by
  induction fuel generalizing i entry with
  | zero => exact ⟨rfl, rfl⟩
  | succ fuel ih =>
      rw [copyBase, baseStores]
      split
      · exact ih (i + 1) (entry.setByte i (src i))
      · exact ⟨rfl, rfl⟩

/-- The second loop of `filename_from_path` carries out its stores in order. -/
theorem copyExtension_eq (ext : List UInt8) (j : Nat) (entry : DirEntry) :
    copyExtension ext j entry = (fun e => ((extensionStores ext j).1, e)) <$>
      (extensionStores ext j).2.foldlM NameStore.apply entry := by
  induction ext generalizing j entry with
  | nil => rfl
  | cons c rest ih =>
      rw [copyExtension, extensionStores]
      split
      · rfl
      · dsimp only
        rw [List.foldlM_cons, NameStore.apply]
        split
        · exact ih (j + 1) _
        · rfl

/-- The stores describe the function. -/
theorem filenameFromPath_eq (name : CString) (after : Nat → UInt8) (entry : DirEntry) :
    filenameFromPath name after entry = (filenameStores name after).foldlM NameStore.apply entry := by
  unfold filenameFromPath filenameStores
  dsimp only
  split
  · rfl
  · obtain ⟨hstop, hbase⟩ := copyBase_eq (stringMem name after)
      (filenameLen (stringMem name after) 8) (strrchr name dot) 8 0 entry
    generalize copyBase (stringMem name after) _ _ 8 0 entry = p at hstop hbase ⊢
    generalize baseStores (stringMem name after) _ _ 8 0 = q at hstop hbase ⊢
    obtain ⟨i, copied⟩ := p
    obtain ⟨i', base⟩ := q
    obtain rfl : i = i' := hstop
    dsimp only at hbase ⊢
    -- the second loop, and the end of a short extension
    have htail (j : Nat) (e : DirEntry) :
        (.ok (if j < 3 then e.setByte (8 + (j + 1)) 0 else e) : Except Fault DirEntry) =
          (if j < 3 then [NameStore.extension (j + 1) 0] else []).foldlM NameStore.apply e := by
      split
      · rw [List.foldlM_cons, NameStore.apply, if_pos (by omega)]
        rfl
      · rfl
    split
    · rw [copyExtension_eq, List.foldlM_append, List.foldlM_append, ← hbase]
      show _ = (List.foldlM NameStore.apply copied (extensionStores _ 0).2 >>= _)
      rw [bind_map_left]
      exact bind_congr fun e => htail _ e
    · rw [List.append_nil, List.foldlM_append, ← hbase]
      exact htail 0 copied

/-- The stores of `filename_from_path`, which are all that it does to an entry. -/
def filenameWrites (name : CString) (after : Nat → UInt8) : { stores : List NameStore //
    ∀ entry, filenameFromPath name after entry = stores.foldlM NameStore.apply entry } :=
  ⟨filenameStores name after, filenameFromPath_eq name after⟩

/-- The first loop stays inside the base name. -/
theorem baseStores_inside (h : i + fuel ≤ 8) :
    ∀ w ∈ (baseStores src nameLen dotPos fuel i).2, w.Inside := by
  induction fuel generalizing i with
  | zero => exact fun w hw => absurd hw List.not_mem_nil
  | succ fuel ih =>
      have hi : (NameStore.base i (src i)).Inside := by
        show i < 8
        omega
      rw [baseStores]
      split
      · exact List.forall_mem_cons.mpr ⟨hi, ih (by omega)⟩
      · exact List.forall_mem_singleton.mpr hi

/-- The second loop stores all characters up to a space. -/
theorem extensionStores_fst (ext : List UInt8) (j : Nat) :
    (extensionStores ext j).1 = j + (ext.takeWhile (· ≠ space)).length := by
  induction ext generalizing j with
  | nil => rfl
  | cons c rest ih =>
      rw [extensionStores]
      split
      · next hc => simp [hc]
      · next hc =>
          dsimp only
          rw [ih, List.takeWhile_cons_of_pos (by simpa using hc), List.length_cons]
          omega

/-- The extension stays inside its field just if it has three bytes at most. -/
theorem extensionStores_inside_iff (ext : List UInt8) (hj : j ≤ 3) :
    (∀ w ∈ (extensionStores ext j).2, w.Inside) ↔ j + (ext.takeWhile (· ≠ space)).length ≤ 3 := by
  induction ext generalizing j with
  | nil => simpa [extensionStores] using hj
  | cons c rest ih =>
      rw [extensionStores]
      split
      · next hc => simpa [hc] using hj
      · next hc =>
          dsimp only
          rw [List.forall_mem_cons, List.takeWhile_cons_of_pos (by simpa using hc), List.length_cons]
          by_cases h3 : j < 3
          · rw [ih h3, and_iff_right (show (NameStore.extension j c).Inside from h3)]
            omega
          · exact iff_of_false (fun h => h3 h.1) (by omega)

end Stores

/-! ## The copied extension -/

/-- The characters that `filename_from_path` takes for the extension: those behind the last dot, up to
a space, if this dot is one of the second to eighth characters. -/
def copiedExtension (name : CString) : CString :=
  match strrchr name dot with
  | none => []
  | some d =>
      if 1 ≤ d ∧ d < 8 then (name.drop (d + 1)).takeWhile (· ≠ space) else []

section Extension

variable {name : CString} {d : Nat}

/-- `strrchr` finds the byte that it looks for. -/
theorem strrchr_eq_some {c : UInt8} (h : strrchr name c = some d) : name[d]? = some c := by
  obtain ⟨i, hi, rfl⟩ := Option.map_eq_some_iff.mp h
  obtain ⟨hlt, hc, -⟩ := List.findIdx?_eq_some_iff_getElem.mp hi
  rw [List.length_reverse] at hlt
  rw [List.getElem_reverse, decide_eq_true_iff] at hc
  rw [List.getElem?_eq_getElem (by omega), hc]

/-- The dot is inside the length, unless it comes after the eighth character. -/
theorem lt_filenameLen_iff (hd : strrchr name dot = some d) (after : Nat → UInt8) :
    d < filenameLen (stringMem name after) 8 ↔ d < 8 := by
  obtain ⟨hlt, hdot⟩ := List.getElem?_eq_some_iff.mp (strrchr_eq_some hd)
  refine ⟨fun h => Nat.lt_of_lt_of_le h filenameLen_le, fun h => lt_filenameLen h ?_⟩
  have hmem : stringMem name after d = dot := by
    rw [stringMem, if_pos hlt, List.getD_eq_getElem _ _ hlt, hdot]
  rw [hmem]
  exact not_blank_dot

/-- The first loop stops at the dot or at the end of the name. -/
theorem baseStores_fst (src : Nat → UInt8) {nameLen stop : Nat} {dotPos : Option Nat}
    (hpos : 0 < stop) (h8 : stop ≤ 8) (hgo : ∀ k, 0 < k → k < stop → k < nameLen ∧ dotPos ≠ some k)
    (hstop : ¬ (stop < nameLen ∧ dotPos ≠ some stop)) :
    (baseStores src nameLen dotPos 8 0).1 = stop := by
  rw [← (copyBase_eq src nameLen dotPos 8 0 DirEntry.zero).1]
  exact (copyBase_ok src nameLen dotPos _ hpos (by omega) (by omega) hgo hstop).1

/-- **`filename_from_path` stays inside the two fields** if and only if the extension it copies has
zero, one or three characters: a longer one runs over the field, and the end of one with two
characters is stored behind it. -/
theorem filenameStores_inside_iff (name : CString) (after : Nat → UInt8) :
    (∀ w ∈ filenameStores name after, w.Inside) ↔ (copiedExtension name).length ∈ [0, 1, 3] := by
  have hle : filenameLen (stringMem name after) 8 ≤ 8 := filenameLen_le
  unfold filenameStores
  dsimp only
  split
  · next hzero =>
      have hnone : copiedExtension name = [] := by
        unfold copiedExtension
        split
        · rfl
        · next d hd =>
            rw [if_neg]
            rintro ⟨-, h8⟩
            have := (lt_filenameLen_iff hd after).mpr h8
            omega
      rw [hnone]
      refine iff_of_true ?_ (by decide)
      exact List.forall_mem_cons.mpr ⟨show 0 < 8 by omega, List.forall_mem_singleton.mpr
        (show 0 < 3 by omega)⟩
  · next hlen =>
      have hbase : ∀ w ∈ (baseStores (stringMem name after) (filenameLen (stringMem name after) 8)
          (strrchr name dot) 8 0).2, w.Inside := baseStores_inside le_rfl
      by_cases hcopied : ∃ d, strrchr name dot = some d ∧ 1 ≤ d ∧ d < 8
      · obtain ⟨d, hd, hd1, hd8⟩ := hcopied
        have hdlen := (lt_filenameLen_iff hd after).mpr hd8
        rw [hd] at hbase ⊢
        have hstop : (baseStores (stringMem name after) (filenameLen (stringMem name after) 8)
            (some d) 8 0).1 = d := by
          refine baseStores_fst _ hd1 (Nat.le_of_lt hd8) (fun k _ hk => ⟨by omega, ?_⟩) fun h => h.2 rfl
          simpa using Nat.ne_of_gt hk
        have hext : copiedExtension name = (name.drop (d + 1)).takeWhile (· ≠ space) := by
          unfold copiedExtension
          rw [hd]
          exact if_pos ⟨hd1, hd8⟩
        rw [hstop, if_pos ⟨Option.some_ne_none d, hdlen⟩, hext, extensionStores_fst,
          List.forall_mem_append, List.forall_mem_append, and_iff_right hbase,
          extensionStores_inside_iff _ (Nat.zero_le 3), Nat.zero_add]
        generalize ((name.drop (d + 1)).takeWhile (· ≠ space)).length = e
        have hlast : (∀ w ∈ if e < 3 then [NameStore.extension (e + 1) 0] else [], w.Inside) ↔
            (e < 3 → e + 1 < 3) := by
          split
          · next h3 => simp [NameStore.Inside, h3]
          · next h3 => simp [h3]
        rw [hlast]
        simp only [List.mem_cons, List.not_mem_nil, or_false]
        omega
      · -- no extension is copied
        have hext : copiedExtension name = [] := by
          unfold copiedExtension
          split
          · rfl
          · next d hd => exact if_neg fun h => hcopied ⟨d, hd, h⟩
        have hskip : ¬ (strrchr name dot ≠ none ∧ (baseStores (stringMem name after)
            (filenameLen (stringMem name after) 8) (strrchr name dot) 8 0).1 <
              filenameLen (stringMem name after) 8) := by
          rintro ⟨hne, hlt⟩
          obtain ⟨d, hd⟩ := Option.ne_none_iff_exists'.mp hne
          have hout : ¬ (1 ≤ d ∧ d < 8) := fun h => hcopied ⟨d, hd, h⟩
          rw [hd, baseStores_fst (stringMem name after) (Nat.pos_of_ne_zero hlen) hle
            (fun k hk hk' => ⟨hk', fun h => ?_⟩) fun h => Nat.lt_irrefl _ h.1] at hlt
          · exact Nat.lt_irrefl _ hlt
          · cases h
            omega
        rw [if_neg hskip, hext]
        refine iff_of_true ?_ (by decide)
        simp only [List.append_nil]
        rw [if_pos (by decide)]
        exact List.forall_mem_append.mpr ⟨hbase, List.forall_mem_singleton.mpr (show 1 < 3 by decide)⟩

end Extension

/-! ## The four buffers -/

/-- `MAX_FILENAME`. -/
def maxFilename : Nat := 8 + 1 + 3 + 1

/-- The bytes that `filepath_from_name` allocates. -/
def filepathAllocated (parentFilepath fileName : CString) : Nat :=
  parentFilepath.length + fileName.length + 1

/-- What is built for the file `name` in the directory `parent` fits into its buffers, each string with
its final `NUL`: the fields of the directory entry, the path, the name read back from any directory
entry, and the log message. -/
structure NamesFit (parent name now login operationType : CString) : Prop where
  fields : ∀ after, ∀ w ∈ (filenameWrites (basename (filepathFromName parent name)) after).1, w.Inside
  filepath : (filepathFromName parent name).length + 1 ≤ filepathAllocated parent name
  filename : ∀ baseName extension : Nat → UInt8,
    (buildFilename baseName extension).length + 1 ≤ maxFilename
  message : (logMessage now login (filepathFromName parent name) operationType).length + 1 ≤
    logMessageSize

section Fit

variable {parent name now login operationType : CString}

/-- The last component of a path. -/
theorem basename_append (path : CString) (hname : slash ∉ name) :
    basename (path ++ slash :: name) = name := by
  have hall : ∀ c ∈ name.reverse, decide (c ≠ slash) = true := by
    intro c hc
    rw [decide_eq_true_iff]
    rintro rfl
    exact hname (List.mem_reverse.mp hc)
  unfold basename
  rw [List.reverse_append, List.reverse_cons, List.append_assoc, List.takeWhile_append_of_pos hall]
  simp

/-- The base name of a path is the name it was made from. -/
theorem basename_filepathFromName (parent : CString) (hname : slash ∉ name) :
    basename (filepathFromName parent name) = name := by
  unfold filepathFromName
  split
  · exact basename_append parent hname
  · next hroot =>
      obtain ⟨path, rfl⟩ := List.getLast?_eq_some_iff.mp (not_not.mp hroot)
      rw [List.append_assoc]
      exact basename_append path hname

/-- A name of eight characters, a dot and an extension of three. -/
theorem length_buildFilename_le (baseName extension : Nat → UInt8) :
    (buildFilename baseName extension).length ≤ 12 := by
  have hname : filenameLen baseName 8 ≤ 8 := filenameLen_le
  have hext : filenameLen extension 3 ≤ 3 := filenameLen_le
  unfold buildFilename
  dsimp only
  split
  · decide
  · rw [List.length_append, List.length_map, List.length_range]
    split
    · rw [List.length_nil]
      omega
    · rw [List.length_cons, List.length_map, List.length_range]
      omega

/-- The separator is not counted in the allocation. -/
theorem length_filepathFromName_le_iff (parent name : CString) :
    (filepathFromName parent name).length + 1 ≤ filepathAllocated parent name ↔
      parent.getLast? = some slash := by
  unfold filepathFromName filepathAllocated
  split
  · next hsep =>
      refine iff_of_false ?_ hsep
      rw [List.length_append, List.length_cons]
      omega
  · next hroot =>
      refine iff_of_true ?_ (not_not.mp hroot)
      rw [List.length_append]

/-- The length of a message of the log. -/
theorem length_logMessage (now login filepath operationType : CString) :
    (logMessage now login filepath operationType).length =
      now.length + login.length + filepath.length + operationType.length + 4 := by
  simp only [logMessage, List.length_append, List.length_cons, List.length_nil]
  omega

/-- **Names and paths fit their buffers** if and only if the extension has a length that the fields
allow for, the directory is the root, and date, login, path and operation leave room for the
separators of the message. -/
theorem namesFit_iff (hname : slash ∉ name) : NamesFit parent name now login operationType ↔
    (copiedExtension name).length ∈ [0, 1, 3] ∧ parent.getLast? = some slash ∧
      now.length + login.length + (parent.length + name.length) + operationType.length ≤ 95 := by
  have hbase := basename_filepathFromName parent hname
  have hmessage (hroot : parent.getLast? = some slash) :
      (logMessage now login (filepathFromName parent name) operationType).length + 1 ≤
        logMessageSize ↔
      now.length + login.length + (parent.length + name.length) + operationType.length ≤ 95 := by
    have hpath : filepathFromName parent name = parent ++ name := if_neg (not_not.mpr hroot)
    rw [length_logMessage, hpath, List.length_append, logMessageSize]
    omega
  constructor
  · rintro ⟨hfields, hpath, -, hmsg⟩
    have hroot := (length_filepathFromName_le_iff parent name).mp hpath
    refine ⟨(filenameStores_inside_iff name fun _ => 0).mp ?_, hroot, (hmessage hroot).mp hmsg⟩
    intro w hw
    exact hfields _ w (by rwa [hbase])
  · rintro ⟨hext, hroot, hlen⟩
    refine ⟨fun after => ?_, (length_filepathFromName_le_iff parent name).mpr hroot, fun b e => ?_,
      (hmessage hroot).mpr hlen⟩
    · rw [hbase]
      exact (filenameStores_inside_iff name after).mpr hext
    · exact Nat.succ_le_succ (length_buildFilename_le b e)

/-- `"/a.c"`, written at a date of sixteen characters by `"me"`. -/
theorem namesFit_rootFile :
    NamesFit rootPath [97, dot, 99] (List.replicate 16 48) [109, 101] writeText :=
  (namesFit_iff (by decide)).mpr (by decide)

/-- The extension of `"/n.html"` runs over its field. -/
theorem not_forall_namesFit : ¬ ∀ parent name now login operationType : CString,
    parent.head? = some slash → name ≠ [] → slash ∉ name → 0 ∉ parent ++ name →
    (filepathFromName parent name).length < 4096 →
    NamesFit parent name now login operationType := by
  intro hall
  have hfit := hall rootPath [110, dot, 104, 116, 109, 108] (List.replicate 16 48) [109, 101] writeText
    (by decide) (by decide) (by decide) (by decide) (by decide)
  exact absurd ((namesFit_iff (by decide)).mp hfit).1 (by decide)

end Fit

end OsLabs.Fat
