import OsLabs.Fat.FilenameUtil

/-! # Short names and the two name fields (`filename_from_path`, `build_filename`)

`filename_from_path` splits a name at its dot and `build_filename` joins the two fields again. What
each one copies is stated by the bytes of its fields; the round trip compares the two. -/

namespace OsLabs.Fat

/-! ## Legal characters that are not blank -/

/-- The characters a short name is made of. -/
def ShortChar (c : UInt8) : Prop := charLegalInFilename c = true ∧ c ≠ space

/-- A name character is not the end of a string. -/
theorem ShortChar.ne_zero {c : UInt8} (h : ShortChar c) : c ≠ 0 := by
  rintro rfl
  exact absurd h.1 (by decide)

/-- A name character is not the dot. -/
theorem ShortChar.ne_dot {c : UInt8} (h : ShortChar c) : c ≠ dot := by
  rintro rfl
  exact absurd h.1 (by decide)

/-- A blank of `filename_len`: a space or a `NUL`. -/
def Blank (c : UInt8) : Prop := c = space ∨ c = 0

/-- A name character is neither a space nor the end of a string. -/
theorem ShortChar.not_blank {c : UInt8} (h : ShortChar c) : ¬ Blank c := by
  rintro (hc | hc)
  · exact h.2 hc
  · exact h.ne_zero hc

/-- The dot is no blank. -/
theorem not_blank_dot : ¬ Blank dot := by
  rintro (hc | hc)
  · exact absurd hc (by decide)
  · exact absurd hc (by decide)

/-! ## `filename_len` -/

section Length

variable {name name' : Nat → UInt8} {len max k : Nat}

/-- The length of a field that is one byte longer. -/
theorem filenameLen_succ :
    filenameLen name (max + 1) =
      if name max ≠ space ∧ name max ≠ 0 then max + 1 else filenameLen name max := rfl

/-- A name is no longer than its field. -/
theorem filenameLen_le : filenameLen name max ≤ max := by
  induction max with
  | zero => exact le_rfl
  | succ max ih =>
      rw [filenameLen_succ]
      split
      · exact le_rfl
      · omega

/-- Every character that is not blank is within the length. -/
theorem lt_filenameLen (hk : k < max) (h : ¬ Blank (name k)) : k < filenameLen name max := by
  induction max with
  | zero => omega
  | succ max ih =>
      rw [filenameLen_succ]
      split
      · omega
      · rename_i hblank
        -- the last character is blank, so it is not the one at `k`
        have hne : k ≠ max := by
          rintro rfl
          apply hblank
          constructor
          · intro hc
            exact h (.inl hc)
          · intro hc
            exact h (.inr hc)
        exact ih (by omega)

/-- The length ends at a character that is not blank. -/
theorem not_blank_filenameLen (h : 0 < filenameLen name max) :
    ¬ Blank (name (filenameLen name max - 1)) := by
  induction max with
  | zero => exact absurd h (lt_irrefl 0)
  | succ max ih =>
      rw [filenameLen_succ] at h ⊢
      split at h
      · rename_i hc
        rw [if_pos hc]
        rintro (hs | hz)
        · exact hc.1 hs
        · exact hc.2 hz
      · rename_i hc
        rw [if_neg hc]
        exact ih h

/-- `filename_len` is the length after which there are blanks only. -/
theorem filenameLen_eq (hlen : len ≤ max) (hlast : 0 < len → ¬ Blank (name (len - 1)))
    (hblank : ∀ k, len ≤ k → k < max → Blank (name k)) : filenameLen name max = len := by
  apply Nat.le_antisymm
  · by_contra hlt
    -- a longer length would end at one of the blanks
    have hpos : 0 < filenameLen name max := by omega
    have hle : filenameLen name max ≤ max := filenameLen_le
    exact not_blank_filenameLen hpos (hblank _ (by omega) (by omega))
  · by_cases h0 : len = 0
    · omega
    · have := lt_filenameLen (by omega : len - 1 < max) (hlast (by omega))
      omega

end Length

/-! ## What the two loops copy -/

/-- The first loop of `filename_from_path` stops at the first index that is the length or the dot. -/
theorem copyBase_ok (src : Nat → UInt8) (nameLen : Nat) (dotPos : Option Nat) (entry : DirEntry)
    {stop fuel i : Nat} (hi : i < stop) (hfuel : stop ≤ i + fuel) (h32 : stop ≤ 32)
    (hgo : ∀ k, i < k → k < stop → k < nameLen ∧ dotPos ≠ some k)
    (hstop : ¬ (stop < nameLen ∧ dotPos ≠ some stop)) :
    (copyBase src nameLen dotPos fuel i entry).1 = stop ∧
      ∀ k, (copyBase src nameLen dotPos fuel i entry).2.byte k =
        if i ≤ k ∧ k < stop then src k else entry.byte k := by
  induction fuel generalizing i entry with
  | zero => omega
  | succ fuel ih =>
      unfold copyBase
      by_cases hlast : i + 1 = stop
      · subst hlast
        simp only [if_neg hstop, true_and]
        intro k
        rw [DirEntry.byte_setByte]
        by_cases hk : k = i
        · subst hk
          rw [if_pos (by omega), if_pos (by omega)]
        · rw [if_neg (by omega), if_neg (by omega)]
      · have hnext := hgo (i + 1) (by omega) (by omega)
        simp only [if_pos hnext]
        obtain ⟨h1, h2⟩ := ih (entry.setByte i (src i)) (by omega : i + 1 < stop) (by omega)
          (fun k hk => hgo k (by omega))
        refine ⟨h1, ?_⟩
        intro k
        rw [h2 k, DirEntry.byte_setByte]
        by_cases hk : k = i
        · subst hk
          rw [if_neg (by omega), if_pos (by omega), if_pos (by omega)]
        · by_cases hin : i + 1 ≤ k ∧ k < stop
          · rw [if_pos hin, if_pos (by omega)]
          · rw [if_neg hin, if_neg (by omega), if_neg (by omega)]

/-- The second loop copies the whole extension when it has no space and stays in the entry. -/
theorem copyExtension_ok {ext : List UInt8} (j : Nat) (entry : DirEntry)
    (hspace : ∀ c ∈ ext, c ≠ space) (hlen : 8 + j + ext.length ≤ 32) :
    ∃ entry', copyExtension ext j entry = .ok (j + ext.length, entry') ∧
      ∀ k, entry'.byte k =
        if 8 + j ≤ k ∧ k < 8 + j + ext.length then ext.getD (k - (8 + j)) 0 else entry.byte k := by
  induction ext generalizing j entry with
  | nil =>
      refine ⟨entry, rfl, ?_⟩
      intro k
      rw [if_neg (by simp)]
  | cons c rest ih =>
      rw [List.length_cons] at hlen
      obtain ⟨entry', hrun, hbyte⟩ :=
        ih (j + 1) (entry.setByte (8 + j) c)
          (fun c' hc' => hspace c' (List.mem_cons_of_mem _ hc')) (by omega)
      refine ⟨entry', ?_, ?_⟩
      · rw [copyExtension, if_neg (hspace c List.mem_cons_self), if_pos (by omega), hrun,
          List.length_cons, show j + 1 + rest.length = j + (rest.length + 1) by omega]
      · intro k
        rw [hbyte k, DirEntry.byte_setByte, List.length_cons]
        by_cases hk : k = 8 + j
        · subst hk
          rw [if_neg (by omega), if_pos (by omega), if_pos (by omega)]
          simp
        · by_cases hin : 8 + (j + 1) ≤ k ∧ k < 8 + (j + 1) + rest.length
          · rw [if_pos hin, if_pos (by omega),
              show k - (8 + j) = (k - (8 + (j + 1))) + 1 by omega, List.getD_cons_succ]
          · rw [if_neg hin, if_neg (by omega), if_neg (by omega)]

/-! ## The dot -/

/-- `strrchr` does not find a byte that is not there. -/
theorem strrchr_eq_none {s : CString} {c : UInt8} (h : c ∉ s) : strrchr s c = none := by
  unfold strrchr
  rw [List.findIdx?_eq_none_iff.mpr]
  · rfl
  · intro x hx
    simp only [decide_eq_false_iff_not]
    rintro rfl
    exact h (List.mem_reverse.mp hx)

/-- `strrchr` finds the last occurrence of a byte. -/
theorem strrchr_append_cons {s t : CString} {c : UInt8} (h : c ∉ t) :
    strrchr (s ++ c :: t) c = some s.length := by
  unfold strrchr
  have hidx : (s ++ c :: t).reverse.findIdx? (· = c) = some t.length := by
    rw [List.reverse_append, List.reverse_cons, List.append_assoc, List.findIdx?_append,
      List.findIdx?_eq_none_iff.mpr]
    · simp [List.findIdx?_cons]
    · intro x hx
      simp only [decide_eq_false_iff_not]
      rintro rfl
      exact h (List.mem_reverse.mp hx)
  rw [hidx]
  simp

/-! ## Short names -/

/-- A base of one to eight characters and an extension of at most three, none of them blank; the
empty extension stands for a name without a dot. -/
structure ShortName where
  base : List UInt8
  ext : List UInt8
  base_pos : 0 < base.length
  base_le : base.length ≤ 8
  ext_le : ext.length ≤ 3
  base_char : ∀ c ∈ base, ShortChar c
  ext_char : ∀ c ∈ ext, ShortChar c
  /-- The mark of a free directory entry does not begin a name. -/
  notFree : base.getD 0 0 ≠ 0xe5

namespace ShortName

variable (n : ShortName)

/-- The name as a path component. -/
def text : CString := n.base ++ if n.ext = [] then [] else dot :: n.ext

/-- The bytes of the base are name characters. -/
theorem base_getD {k : Nat} (hk : k < n.base.length) : ShortChar (n.base.getD k 0) := by
  apply n.base_char
  rw [List.getD_eq_getElem _ _ hk]
  exact List.getElem_mem hk

/-- The base has no dot. -/
theorem dot_notMem_base : dot ∉ n.base := by
  intro hmem
  exact (n.base_char _ hmem).ne_dot rfl

/-- The extension has no dot. -/
theorem dot_notMem_ext : dot ∉ n.ext := by
  intro hmem
  exact (n.ext_char _ hmem).ne_dot rfl

/-- The base is part of the text. -/
theorem length_le_text : n.base.length ≤ n.text.length := by
  unfold text
  rw [List.length_append]
  omega

/-- The base comes first in memory, whatever follows the name. -/
theorem stringMem_base (after : Nat → UInt8) {k : Nat} (hk : k < n.base.length) :
    stringMem n.text after k = n.base.getD k 0 := by
  have hle := n.length_le_text
  rw [stringMem, if_pos (by omega), text, List.getD_append _ _ _ _ hk]

/-- The byte after the base is the dot of the extension, or the `NUL`. -/
theorem stringMem_length (after : Nat → UInt8) :
    stringMem n.text after n.base.length = if n.ext = [] then 0 else dot := by
  unfold stringMem text
  by_cases hext : n.ext = []
  · simp [hext]
  · simp [hext]

/-- `filename_from_path` and `build_filename` are inverse on a name: the two fields it writes over
zeros are valid, and joining them gives the name back. -/
def RoundTrips (after : Nat → UInt8) (entry : DirEntry) : Prop :=
  ∃ entry', filenameFromPath n.text after entry = .ok entry' ∧
    fileBasenameValid entry'.baseName = true ∧ fileExtensionValid entry'.extension = true ∧
    cstr (buildFilename entry'.baseName entry'.extension) = n.text

/-- The name has an extension, and a base that fills its field. -/
def FullWithExtension : Prop := n.base.length = 8 ∧ n.ext ≠ []

end ShortName

/-- The two name fields of an entry are zero. -/
def ZeroNames (entry : DirEntry) : Prop := ∀ k < 11, entry.byte k = 0

/-! ## The fields that are written -/

section Fields

variable (n : ShortName) (after : Nat → UInt8)

/-- The fields hold the base of a name and an extension. Without an extension, bytes that follow
the name in memory may come after the base, behind a `NUL`. -/
structure HoldsName (ext : List UInt8) (entry : DirEntry) : Prop where
  base : ∃ stop, n.base.length ≤ stop ∧ stop ≤ 8 ∧ (ext ≠ [] → stop = n.base.length) ∧
    ¬ Blank (stringMem n.text after (stop - 1)) ∧
    ∀ k < 8, entry.baseName k = if k < stop then stringMem n.text after k else 0
  ext : ∀ k < 3, entry.extension k = ext.getD k 0

/-- `filename_len` sees the whole base. -/
theorem base_length_le_filenameLen : n.base.length ≤ filenameLen (stringMem n.text after) 8 := by
  have hpos := n.base_pos
  have hle := n.base_le
  have hlast : ¬ Blank (stringMem n.text after (n.base.length - 1)) := by
    rw [n.stringMem_base after (by omega)]
    exact (n.base_getD (by omega)).not_blank
  have := lt_filenameLen (by omega : n.base.length - 1 < 8) hlast
  omega

variable {n} {entry : DirEntry}

/-- Without an extension, everything up to the last byte of the window that is not blank is
copied. -/
theorem filenameFromPath_noExt (hext : n.ext = []) (hzero : ZeroNames entry) :
    ∃ entry', filenameFromPath n.text after entry = .ok entry' ∧ HoldsName n after [] entry' := by
  have hbase := base_length_le_filenameLen n after
  have hle : filenameLen (stringMem n.text after) 8 ≤ 8 := filenameLen_le
  have hpos := n.base_pos
  have hdot : strrchr n.text dot = none := by
    apply strrchr_eq_none
    simpa [ShortName.text, hext] using n.dot_notMem_base
  obtain ⟨-, hbyte⟩ := copyBase_ok (stringMem n.text after)
    (filenameLen (stringMem n.text after) 8) none entry
    (by omega : 0 < filenameLen (stringMem n.text after) 8) (by omega : _ ≤ 0 + 8) (by omega)
    (by intro k _ hk; exact ⟨hk, by simp⟩) (by omega)
  refine ⟨(copyBase (stringMem n.text after) (filenameLen (stringMem n.text after) 8) none 8 0
    entry).2.setByte 9 0, ?_, ?_, ?_⟩
  · unfold filenameFromPath
    rw [hdot]
    simp only [if_neg (show filenameLen (stringMem n.text after) 8 ≠ 0 by omega)]
    rfl
  · refine ⟨_, hbase, hle, by simp, not_blank_filenameLen (by omega), ?_⟩
    intro k hk
    rw [DirEntry.baseName, DirEntry.byte_setByte, if_neg (by omega), hbyte k, hzero k (by omega)]
    simp
  · intro k hk
    rw [DirEntry.extension, DirEntry.byte_setByte, hbyte, if_neg (by omega : ¬ (0 ≤ 8 + k ∧ _)),
      hzero _ (by omega)]
    simp

/-- A base that fills its field stops the first loop before the dot, at the length, and the
extension is not copied. -/
theorem filenameFromPath_full (hfull : n.FullWithExtension) (hzero : ZeroNames entry) :
    ∃ entry', filenameFromPath n.text after entry = .ok entry' ∧ HoldsName n after [] entry' := by
  have hbase := base_length_le_filenameLen n after
  have hle : filenameLen (stringMem n.text after) 8 ≤ 8 := filenameLen_le
  have hlen : filenameLen (stringMem n.text after) 8 = 8 := by
    have := hfull.1
    omega
  have hdot : strrchr n.text dot = some 8 := by
    rw [ShortName.text, if_neg hfull.2, strrchr_append_cons n.dot_notMem_ext, hfull.1]
  obtain ⟨hstop, hbyte⟩ := copyBase_ok (stringMem n.text after) 8 (some 8) entry
    (by omega : 0 < 8) (by omega : 8 ≤ 0 + 8) (by omega) (by intro k _ hk; exact ⟨hk, by simp; omega⟩) (by omega)
  refine ⟨(copyBase (stringMem n.text after) 8 (some 8) 8 0 entry).2.setByte 9 0, ?_, ?_, ?_⟩
  · unfold filenameFromPath
    simp only [hdot, hlen, hstop]
    rfl
  · refine ⟨8, n.base_le, le_rfl, by simp, ?_, ?_⟩
    · rw [n.stringMem_base after (by have := hfull.1; omega)]
      exact (n.base_getD (by have := hfull.1; omega)).not_blank
    · intro k hk
      rw [DirEntry.baseName, DirEntry.byte_setByte, if_neg (by omega), hbyte k, hzero k (by omega)]
      simp
  · intro k hk
    rw [DirEntry.extension, DirEntry.byte_setByte, hbyte, if_neg (by omega : ¬ (0 ≤ 8 + k ∧ _)),
      hzero _ (by omega)]
    simp

/-- With a shorter base the first loop stops at the dot, and the second one copies the extension. -/
theorem filenameFromPath_ext (hext : n.ext ≠ []) (hshort : n.base.length < 8)
    (hzero : ZeroNames entry) :
    ∃ entry', filenameFromPath n.text after entry = .ok entry' ∧
      HoldsName n after n.ext entry' := by
  have hpos := n.base_pos
  have hextle := n.ext_le
  have hle : filenameLen (stringMem n.text after) 8 ≤ 8 := filenameLen_le
  -- the dot is within the window
  have hlen : n.base.length < filenameLen (stringMem n.text after) 8 := by
    apply lt_filenameLen hshort
    rw [n.stringMem_length after, if_neg hext]
    exact not_blank_dot
  have hdot : strrchr n.text dot = some n.base.length := by
    rw [ShortName.text, if_neg hext, strrchr_append_cons n.dot_notMem_ext]
  have hdrop : n.text.drop (n.base.length + 1) = n.ext := by
    rw [ShortName.text, if_neg hext, ← List.drop_drop, List.drop_left, List.drop_one,
      List.tail_cons]
  obtain ⟨hstop, hbyte⟩ := copyBase_ok (stringMem n.text after)
    (filenameLen (stringMem n.text after) 8) (some n.base.length) entry hpos
    (by omega : _ ≤ 0 + 8) (by omega)
    (by intro k _ hk; exact ⟨by omega, by simp; omega⟩) (by simp)
  obtain ⟨entry', hrun, hcopied⟩ := copyExtension_ok 0
    (copyBase (stringMem n.text after) (filenameLen (stringMem n.text after) 8)
      (some n.base.length) 8 0 entry).2
    (fun c (hc : c ∈ n.ext) => (n.ext_char c hc).2) (by omega)
  refine ⟨if n.ext.length < 3 then entry'.setByte (8 + (n.ext.length + 1)) 0 else entry',
    ?_, ?_, ?_⟩
  · unfold filenameFromPath
    rw [hdot]
    simp only [if_neg (show filenameLen (stringMem n.text after) 8 ≠ 0 by omega), hstop, hdrop,
      hrun, if_pos (⟨by simp, hlen⟩ :
        some n.base.length ≠ none ∧ n.base.length < filenameLen (stringMem n.text after) 8)]
    simp only [Nat.zero_add]
    rfl
  · refine ⟨n.base.length, le_rfl, hshort.le, fun _ => rfl, ?_, ?_⟩
    · rw [n.stringMem_base after (by omega)]
      exact (n.base_getD (by omega)).not_blank
    · intro k hk
      have hkept : entry'.byte k = if k < n.base.length then stringMem n.text after k else 0 := by
        rw [hcopied k, if_neg (by omega), hbyte k, hzero k (by omega)]
        simp
      split
      · rw [DirEntry.baseName, DirEntry.byte_setByte, if_neg (by omega), hkept]
      · exact hkept
  · intro k hk
    have hkept : entry'.byte (8 + k) = n.ext.getD k 0 := by
      rw [hcopied (8 + k)]
      by_cases hin : k < n.ext.length
      · rw [if_pos (by omega), show 8 + k - (8 + 0) = k by omega]
      · rw [if_neg (by omega), hbyte, if_neg (by omega), hzero _ (by omega),
          List.getD_eq_default _ _ (by omega)]
    split
    · rw [DirEntry.extension, DirEntry.byte_setByte]
      split
      · rw [List.getD_eq_default _ _ (by omega)]
      · exact hkept
    · exact hkept

variable (n) in
/-- What is written, for every name. -/
theorem filenameFromPath_ok (hzero : ZeroNames entry) :
    ∃ entry', filenameFromPath n.text after entry = .ok entry' ∧
      (n.FullWithExtension → HoldsName n after [] entry') ∧
      (¬ n.FullWithExtension → HoldsName n after n.ext entry') := by
  by_cases hfull : n.FullWithExtension
  · obtain ⟨entry', hrun, hholds⟩ := filenameFromPath_full after hfull hzero
    exact ⟨entry', hrun, fun _ => hholds, fun hn => absurd hfull hn⟩
  · by_cases hext : n.ext = []
    · obtain ⟨entry', hrun, hholds⟩ := filenameFromPath_noExt after hext hzero
      exact ⟨entry', hrun, fun hf => absurd hf hfull, fun _ => hext ▸ hholds⟩
    · have hshort : n.base.length < 8 := by
        have hle := n.base_le
        by_contra hlong
        exact hfull ⟨by omega, hext⟩
      obtain ⟨entry', hrun, hholds⟩ :=
        filenameFromPath_ext after hext hshort hzero
      exact ⟨entry', hrun, fun hf => absurd hf hfull, fun _ => hholds⟩

end Fields

/-! ## Valid fields, and the name they spell -/

section Spelled

variable {n : ShortName} {after : Nat → UInt8} {ext : List UInt8} {entry : DirEntry}

/-- The check of a base passes when the characters up to the first blank are legal. -/
theorem basenameLegalFrom_of_legal {name : Nat → UInt8} {len : Nat}
    (hlegal : ∀ k < len, charLegalInFilename (name k) = true)
    (hend : len = 8 ∨ name len = 0) {fuel i : Nat} (hi : i < len) :
    basenameLegalFrom name fuel i = true := by
  induction fuel generalizing i with
  | zero => rfl
  | succ fuel ih =>
      unfold basenameLegalFrom
      rw [hlegal i hi, Bool.true_and]
      by_cases hlast : i + 1 = len
      · rw [hlast]
        rcases hend with h8 | h0
        · simp [h8]
        · simp [h0]
      · rw [ih (by omega)]
        simp

/-- Legal bytes up to the end of the field make a legal extension. -/
theorem extensionLegalFrom_of_legal {extension : Nat → UInt8} {fuel i : Nat}
    (h : ∀ k < fuel, extension (i + k) = 0 ∨ charLegalInFilename (extension (i + k)) = true) :
    extensionLegalFrom extension fuel i = true := by
  induction fuel generalizing i with
  | zero => rfl
  | succ fuel ih =>
      unfold extensionLegalFrom
      split
      · rfl
      · rename_i hne
        rcases h 0 (by omega) with h0 | hlegal
        · exact absurd (.inl h0) hne
        · rw [show charLegalInFilename (extension i) = true from hlegal, Bool.true_and]
          apply ih
          intro k hk
          rw [show i + 1 + k = i + (k + 1) by omega]
          exact h (k + 1) (by omega)

/-- The base field, read at the characters of the base. -/
theorem HoldsName.baseName_of_lt (h : HoldsName n after ext entry) {k : Nat}
    (hk : k < n.base.length) : entry.baseName k = n.base.getD k 0 := by
  have hle := n.base_le
  obtain ⟨stop, hstop, h8, -, -, hbyte⟩ := h.base
  rw [hbyte k (by omega), if_pos (by omega), n.stringMem_base after hk]

/-- A base that does not fill its field is followed by a `NUL`. -/
theorem HoldsName.baseName_end (h : HoldsName n after n.ext entry) (hlen : n.base.length < 8) :
    entry.baseName n.base.length = 0 := by
  obtain ⟨stop, hstop, h8, heq, -, hbyte⟩ := h.base
  rw [hbyte _ hlen]
  split
  · by_cases hnil : n.ext = []
    · rw [n.stringMem_length after, if_pos hnil]
    · have := heq hnil
      omega
  · rfl

/-- The reader accepts a base that the entry holds and ends. -/
theorem HoldsName.basenameValid (h : HoldsName n after ext entry)
    (hend : n.base.length = 8 ∨ entry.baseName n.base.length = 0) :
    fileBasenameValid entry.baseName = true := by
  have hpos := n.base_pos
  have hfirst : ShortChar (entry.baseName 0) := by
    rw [h.baseName_of_lt hpos]
    exact n.base_getD hpos
  rw [fileBasenameValid, if_neg]
  · refine basenameLegalFrom_of_legal ?_ hend hpos
    intro k hk
    rw [h.baseName_of_lt hk]
    exact (n.base_getD hk).1
  · rintro (h0 | hs | hfree)
    · exact hfirst.ne_zero h0
    · exact hfirst.2 hs
    · rw [h.baseName_of_lt hpos] at hfree
      exact n.notFree hfree

/-- The reader accepts an extension that the entry holds. -/
theorem HoldsName.extensionValid (h : HoldsName n after ext entry)
    (hchar : ∀ c ∈ ext, ShortChar c) : fileExtensionValid entry.extension = true := by
  apply extensionLegalFrom_of_legal
  intro k hk
  rw [Nat.zero_add, h.ext k hk]
  by_cases hin : k < ext.length
  · right
    rw [List.getD_eq_getElem _ _ hin]
    exact (hchar _ (List.getElem_mem hin)).1
  · left
    exact List.getD_eq_default _ _ (by omega)

/-- The length of the extension field is the length of the extension. -/
theorem HoldsName.filenameLen_extension (h : HoldsName n after ext entry)
    (hchar : ∀ c ∈ ext, ShortChar c) (hle : ext.length ≤ 3) :
    filenameLen entry.extension 3 = ext.length := by
  apply filenameLen_eq hle
  · intro hpos
    rw [h.ext _ (by omega), List.getD_eq_getElem _ _ (by omega)]
    exact (hchar _ (List.getElem_mem _)).not_blank
  · intro k hk hk3
    rw [h.ext k hk3, List.getD_eq_default _ _ hk]
    exact .inr rfl

/-- A list is made of its bytes in order. -/
theorem map_range_getD (l : List UInt8) : (List.range l.length).map (fun k => l.getD k 0) = l := by
  apply List.ext_getElem
  · simp
  · intro k hk _
    simp [show k < l.length by simpa using hk]

/-- Cutting a text at its first `NUL` leaves what comes before. -/
theorem cstr_append_zero {s t : List UInt8} (hs : (0 : UInt8) ∉ s) : cstr (s ++ 0 :: t) = s := by
  unfold cstr
  rw [List.takeWhile_append_of_pos]
  · simp
  · intro c hc
    simp only [ne_eq, decide_not, Bool.not_eq_eq_eq_not, Bool.not_true, decide_eq_false_iff_not]
    rintro rfl
    exact hs hc

/-- A list without a zero byte is a string. -/
theorem cstr_of_notMem {s : List UInt8} (hs : (0 : UInt8) ∉ s) : cstr s = s := by
  unfold cstr
  rw [List.takeWhile_eq_self_iff]
  intro c hc
  simp only [ne_eq, decide_not, Bool.not_eq_eq_eq_not, Bool.not_true, decide_eq_false_iff_not]
  rintro rfl
  exact hs hc

/-- The base has no zero byte. -/
theorem ShortName.zero_notMem_base (n : ShortName) : (0 : UInt8) ∉ n.base := by
  intro hmem
  exact (n.base_char _ hmem).ne_zero rfl

/-- `build_filename` spells the base and the extension that the fields hold. -/
theorem HoldsName.spells (h : HoldsName n after ext entry) (hchar : ∀ c ∈ ext, ShortChar c)
    (hle : ext.length ≤ 3)
    (hend : n.base.length = 8 ∨ entry.baseName n.base.length = 0) :
    cstr (buildFilename entry.baseName entry.extension) =
      n.base ++ if ext = [] then [] else dot :: ext := by
  have hpos := n.base_pos
  obtain ⟨stop, hstop, h8, heq, hlast, hbyte⟩ := h.base
  have hlen : filenameLen entry.baseName 8 = stop := by
    apply filenameLen_eq h8
    · intro _
      rw [hbyte _ (by omega), if_pos (by omega)]
      exact hlast
    · intro k hk hk8
      rw [hbyte k hk8, if_neg (by omega)]
      exact .inr rfl
  have hbase : (List.range n.base.length).map entry.baseName = n.base := by
    conv_rhs => rw [← map_range_getD n.base]
    apply List.map_congr_left
    intro k hk
    exact h.baseName_of_lt (List.mem_range.mp hk)
  unfold buildFilename
  simp only [hlen, if_neg (show stop ≠ 0 by omega), h.filenameLen_extension hchar hle]
  by_cases hnil : ext = []
  · subst hnil
    simp only [List.length_nil, if_true, List.append_nil]
    by_cases hmore : stop = n.base.length
    · rw [hmore, hbase]
      exact cstr_of_notMem n.zero_notMem_base
    · -- the `NUL` and the bytes after it were copied behind the base
      obtain ⟨more, rfl⟩ : ∃ more, stop = n.base.length + (1 + more) :=
        ⟨stop - n.base.length - 1, by omega⟩
      have hz : entry.baseName n.base.length = 0 := hend.resolve_left (by omega)
      rw [List.range_add, List.map_append, hbase, List.range_add, List.map_append, List.map_append,
        List.range_one]
      simp only [List.map_cons, List.map_nil, Nat.add_zero, hz, List.cons_append, List.nil_append]
      exact cstr_append_zero n.zero_notMem_base
  · have hlen0 : ext.length ≠ 0 := by simpa using hnil
    have hextmap : (List.range ext.length).map entry.extension = ext := by
      conv_rhs => rw [← map_range_getD ext]
      apply List.map_congr_left
      intro k hk
      have := List.mem_range.mp hk
      exact h.ext k (by omega)
    rw [if_neg hlen0, if_neg hnil, heq hnil, hbase, hextmap]
    apply cstr_of_notMem
    intro hmem
    rcases List.mem_append.mp hmem with hmem | hmem
    · exact n.zero_notMem_base hmem
    · rcases List.mem_cons.mp hmem with hdot | hmem
      · exact absurd hdot (by decide)
      · exact (hchar _ hmem).ne_zero rfl

end Spelled

/-! ## The round trip -/

/-- The fields that `filename_from_path` writes over zeros are valid, and they spell the name exactly
when it has no extension or a base of fewer than eight characters: a base that fills its field ends
the first loop at the length, and the test after it takes the name for one without an extension. -/
theorem filenameFromPath_spells (n : ShortName) (after : Nat → UInt8) {entry entry' : DirEntry}
    (hzero : ZeroNames entry) (hrun : filenameFromPath n.text after entry = .ok entry') :
    fileBasenameValid entry'.baseName = true ∧ fileExtensionValid entry'.extension = true ∧
      (cstr (buildFilename entry'.baseName entry'.extension) = n.text ↔ ¬ n.FullWithExtension) := by
  obtain ⟨entry'', hrun', hfull, hshort⟩ := filenameFromPath_ok n after hzero
  rw [hrun] at hrun'
  cases hrun'
  by_cases hf : n.FullWithExtension
  · have h := hfull hf
    refine ⟨h.basenameValid (.inl hf.1), h.extensionValid (by simp),
      iff_of_false (fun htext => ?_) (not_not.mpr hf)⟩
    rw [h.spells (by simp) (by simp) (.inl hf.1), ShortName.text, if_neg hf.2] at htext
    simp at htext
  · have h := hshort hf
    have hend : n.base.length = 8 ∨ entry'.baseName n.base.length = 0 := by
      by_cases h8 : n.base.length = 8
      · exact .inl h8
      · have hle := n.base_le
        exact .inr (h.baseName_end (by omega))
    refine ⟨h.basenameValid hend, h.extensionValid n.ext_char, iff_of_true ?_ hf⟩
    rw [h.spells n.ext_char n.ext_le hend]
    rfl

/-- The round trip holds of a name, whatever follows it in memory, exactly when the name has no
extension or a base of fewer than eight characters. -/
theorem roundTrips_iff (n : ShortName) (after : Nat → UInt8) (entry : DirEntry)
    (hzero : ZeroNames entry) : n.RoundTrips after entry ↔ ¬ n.FullWithExtension := by
  obtain ⟨entry', hrun, -⟩ := filenameFromPath_ok n after hzero
  obtain ⟨hbase, hext, hiff⟩ := filenameFromPath_spells n after hzero hrun
  constructor
  · rintro ⟨entry'', hrun', -, -, htext⟩
    rw [hrun] at hrun'
    cases hrun'
    exact hiff.mp htext
  · intro hn
    exact ⟨entry', hrun, hbase, hext, hiff.mpr hn⟩

/-- `"ABCDEFGH.TXT"`. -/
def fullName : ShortName where
  base := [65, 66, 67, 68, 69, 70, 71, 72]
  ext := [84, 88, 84]
  base_pos := by decide
  base_le := by decide
  ext_le := by decide
  base_char := by unfold ShortChar; decide +kernel
  ext_char := by unfold ShortChar; decide +kernel
  notFree := by decide

/-- `"ABCDEFG.TXT"`. -/
def sevenBaseName : ShortName where
  base := [65, 66, 67, 68, 69, 70, 71]
  ext := [84, 88, 84]
  base_pos := by decide
  base_le := by decide
  ext_le := by decide
  base_char := by unfold ShortChar; decide +kernel
  ext_char := by unfold ShortChar; decide +kernel
  notFree := by decide

/-- `"A.TXT"`. -/
def shortBaseName : ShortName where
  base := [65]
  ext := [84, 88, 84]
  base_pos := by decide
  base_le := by decide
  ext_le := by decide
  base_char := by unfold ShortChar; decide +kernel
  ext_char := by unfold ShortChar; decide +kernel
  notFree := by decide

/-- The zero entry has empty names. -/
theorem zeroNames_zero : ZeroNames DirEntry.zero := by
  unfold ZeroNames
  decide +kernel

/-- The longest name with an extension that comes back. -/
theorem roundTrips_iff_sevenBaseName : sevenBaseName.RoundTrips (fun _ => 255) DirEntry.zero :=
  (roundTrips_iff sevenBaseName (fun _ => 255) DirEntry.zero zeroNames_zero).mpr fun h => absurd h.1 (by decide)

/-- The extension of `"ABCDEFGH.TXT"` is lost. -/
theorem not_forall_roundTrips :
    ¬ ∀ (n : ShortName) (after : Nat → UInt8) (entry : DirEntry), ZeroNames entry →
      n.RoundTrips after entry := by
  intro h
  obtain ⟨entry', hrun, -, -, htext⟩ := h fullName (fun _ => 0) DirEntry.zero zeroNames_zero
  have hfields : filenameFromPath fullName.text (fun _ => 0) DirEntry.zero =
      .ok ((copyBase (stringMem fullName.text fun _ => 0) 8 (some 8) 8 0 DirEntry.zero).2.setByte
        9 0) := by decide +kernel
  rw [hfields] at hrun
  cases hrun
  exact absurd htext (by decide +kernel)

end OsLabs.Fat
