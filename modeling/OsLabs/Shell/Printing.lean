import OsLabs.Shell.Parsing

/-! # Printing a pipeline (`command.c`)

`pipeline_to_string` puts the words of a command next to each other with a blank between two of them, the
redirections behind the words, and the commands next to each other with a pipe between two of them. What
is printed between them is decided by the position. `parsePipeline_pipelineToString` says that the line
stands for the pipeline again. -/

namespace OsLabs.Shell

/-! ## The functions of `command.c` -/

/-- The loop of `scommand_to_string` over the words, from the position `i`. -/
def scommandToStringLoop (cmdArgs : List String) : Nat → Nat → String → String
  | 0, _, glibString => glibString
  | left + 1, i, glibString =>
      let glibString := glibString ++ (cmdArgs[i]?).getD ""
      let glibString := if i ≠ cmdArgs.length - 1 then glibString ++ " " else glibString
      scommandToStringLoop cmdArgs left (i + 1) glibString

/-- `scommand_to_string`; the result `none` is a failed `assert`. -/
def scommandToString (self : Scommand) : Option String :=
  let glibString := scommandToStringLoop self.cmdArgs self.cmdArgs.length 0 ""
  let glibString := match self.redirOut with
    | none => glibString
    | some name => glibString ++ " > " ++ name
  let cmdString := match self.redirIn with
    | none => glibString
    | some name => glibString ++ " < " ++ name
  if scommandIsEmpty self ∨ self.redirIn = none ∨ self.redirOut = none ∨ cmdString ≠ "" then
    some cmdString
  else none

/-- The loop of `pipeline_to_string` over the commands, from the position `i`. -/
def pipelineToStringLoop (self : Pipeline) : Nat → Nat → String → Option String
  | 0, _, glibString => some glibString
  | left + 1, i, glibString => do
      let sc ← self.scmds[i]?
      let scStr ← scommandToString sc
      let glibString := glibString ++ scStr
      let glibString :=
        if i < self.scmds.length - 1 then glibString ++ " | "
        else if self.wait = false then glibString ++ " &"
        else glibString
      pipelineToStringLoop self left (i + 1) glibString

/-- `pipeline_to_string`; the result `none` is a failed `assert`. -/
def pipelineToString (self : Pipeline) : Option String := do
  let pipelineString ← pipelineToStringLoop self self.scmds.length 0 ""
  if pipelineIsEmpty self ∨ self.wait = true ∨ pipelineString ≠ "" then some pipelineString else none

/-! ## What can be printed -/

/-- A word of the shell: not empty, and without blanks, newlines and operators. -/
def IsWord (word : String) : Prop := word ≠ "" ∧ ∀ c ∈ word.toList, IsWordChar c

/-- A command whose words and names of files are words of the shell, and that has a word. -/
structure Printable (sc : Scommand) : Prop where
  hasWord : sc.cmdArgs ≠ []
  words : ∀ word ∈ sc.cmdArgs, IsWord word
  redirIn : ∀ name ∈ sc.redirIn, IsWord name
  redirOut : ∀ name ∈ sc.redirOut, IsWord name

/-! ## The texts -/

/-- The text of a redirection, if there is one. -/
def redirText (arrow : String) : Option String → String
  | none => ""
  | some name => arrow ++ name

/-- The text of a command. -/
def scommandText (sc : Scommand) : String :=
  " ".intercalate sc.cmdArgs ++ redirText " > " sc.redirOut ++ redirText " < " sc.redirIn

/-- The text of a pipeline. -/
def pipelineText (q : Pipeline) : String :=
  " | ".intercalate (q.scmds.map scommandText) ++ if q.wait then "" else " &"

section Texts

variable {sc : Scommand} {q : Pipeline}

/-- The loop over the words appends them with blanks between two of them. -/
theorem scommandToStringLoop_eq (cmdArgs : List String) {left i : Nat} (h : i + left = cmdArgs.length)
    (glibString : String) :
    scommandToStringLoop cmdArgs left i glibString =
      glibString ++ " ".intercalate (cmdArgs.drop i) := by
  induction left generalizing i glibString with
  | zero =>
      rw [List.drop_of_length_le (by omega)]
      simp [scommandToStringLoop]
  | succ left ih =>
      have hi : i < cmdArgs.length := by omega
      rw [scommandToStringLoop, ih (by omega), List.drop_eq_getElem_cons hi, List.getElem?_eq_getElem hi,
        Option.getD_some]
      by_cases hlast : i = cmdArgs.length - 1
      · -- the last word has no blank behind it
        rw [if_neg (not_not.mpr hlast), List.drop_of_length_le (l := cmdArgs) (i := i + 1) (by omega)]
        simp
      · have hne : cmdArgs.drop (i + 1) ≠ [] := by
          intro hnil
          have := List.drop_eq_nil_iff.mp hnil
          omega
        rw [if_pos hlast, String.intercalate_cons_of_ne_nil hne]
        simp only [String.append_assoc]

/-- `scommand_to_string` gives the text, except where its last assertion fails. -/
theorem scommandToString_eq (sc : Scommand) :
    scommandToString sc =
      if scommandIsEmpty sc ∨ sc.redirIn = none ∨ sc.redirOut = none ∨ scommandText sc ≠ "" then
        some (scommandText sc)
      else none := by
  unfold scommandToString scommandText
  rw [scommandToStringLoop_eq sc.cmdArgs (Nat.zero_add _), List.drop_zero]
  obtain ⟨cmdArgs, redirIn, redirOut⟩ := sc
  cases redirIn <;> cases redirOut <;> simp [redirText, String.append_assoc]

/-- The text of a command with a word is not empty. -/
theorem scommandText_ne (h : Printable sc) : scommandText sc ≠ "" := by
  obtain ⟨word, words, hwords⟩ := List.exists_cons_of_ne_nil h.hasWord
  have hword := (h.words word (by rw [hwords]; exact List.mem_cons_self)).1
  unfold scommandText
  rw [hwords]
  cases words with
  | nil => simp [hword]
  | cons next words => simp [String.intercalate_cons_cons, hword]

/-- A printable command has a string. -/
theorem scommandToString_of_printable (h : Printable sc) : scommandToString sc = some (scommandText sc) := by
  rw [scommandToString_eq, if_pos (.inr (.inr (.inr (scommandText_ne h))))]

/-- The loop over the commands appends them with pipes between two of them, and the operator `&` behind
the last one. -/
theorem pipelineToStringLoop_eq (hq : ∀ sc ∈ q.scmds, Printable sc) {left i : Nat}
    (h : i + left = q.scmds.length) (glibString : String) :
    pipelineToStringLoop q left i glibString =
      some (glibString ++ " | ".intercalate ((q.scmds.drop i).map scommandText) ++
        if left = 0 ∨ q.wait then "" else " &") := by
  induction left generalizing i glibString with
  | zero =>
      rw [List.drop_of_length_le (by omega)]
      simp [pipelineToStringLoop]
  | succ left ih =>
      have hi : i < q.scmds.length := by omega
      have hprint := scommandToString_of_printable (hq _ (List.getElem_mem hi))
      rw [pipelineToStringLoop, List.getElem?_eq_getElem hi, Option.bind_eq_bind, Option.bind_some, hprint,
        Option.bind_eq_bind, Option.bind_some, ih (by omega), List.drop_eq_getElem_cons hi, List.map_cons]
      by_cases hlast : i < q.scmds.length - 1
      · have hne : (q.scmds.drop (i + 1)).map scommandText ≠ [] := by
          intro hnil
          have := List.drop_eq_nil_iff.mp (List.map_eq_nil_iff.mp hnil)
          omega
        have hleft : left ≠ 0 := by omega
        rw [if_pos hlast, String.intercalate_cons_of_ne_nil hne]
        simp [hleft, String.append_assoc]
      · -- the last command: the operator, if the shell does not wait
        have hleft : left = 0 := by omega
        rw [if_neg hlast, List.drop_of_length_le (l := q.scmds) (i := i + 1) (by omega)]
        cases hwait : q.wait <;> simp [hleft]

/-- The text `pipeline_to_string` makes. -/
theorem pipelineToString_eq (hne : q.scmds ≠ []) (hq : ∀ sc ∈ q.scmds, Printable sc) :
    pipelineToString q = some (pipelineText q) := by
  have hlength : q.scmds.length ≠ 0 := by simpa using hne
  have htext : q.wait = true ∨ pipelineText q ≠ "" := by
    cases hwait : q.wait with
    | true => exact .inl rfl
    | false =>
        refine .inr ?_
        simp [pipelineText, hwait]
  unfold pipelineToString
  rw [pipelineToStringLoop_eq hq (Nat.zero_add _), Option.bind_eq_bind, Option.bind_some, List.drop_zero]
  have heq : "" ++ " | ".intercalate (q.scmds.map scommandText) ++
      (if q.scmds.length = 0 ∨ q.wait then "" else " &") = pipelineText q := by
    simp [pipelineText, hlength]
  rw [heq, if_pos (.inr htext)]

end Texts

/-! ## The texts have one line -/

section Newline

variable {sc : Scommand} {q : Pipeline}

/-- A character of joined pieces is one of the separator or of a piece. -/
theorem mem_intercalate {c : Char} {sep : String} {pieces : List String}
    (hc : c ∈ (sep.intercalate pieces).toList) : c ∈ sep.toList ∨ ∃ piece ∈ pieces, c ∈ piece.toList := by
  induction pieces with
  | nil => simp at hc
  | cons piece pieces ih =>
      cases pieces with
      | nil => exact .inr ⟨piece, List.mem_cons_self, by simpa using hc⟩
      | cons next pieces =>
          rw [String.intercalate_cons_cons, String.toList_append, String.toList_append, List.mem_append,
            List.mem_append] at hc
          rcases hc with (hc | hc) | hc
          · exact .inr ⟨piece, List.mem_cons_self, hc⟩
          · exact .inl hc
          · refine (ih hc).imp_right ?_
            rintro ⟨piece', hmem, hc'⟩
            exact ⟨piece', List.mem_cons_of_mem piece hmem, hc'⟩

/-- A word has no newline. -/
theorem IsWord.newline_notMem {word : String} (h : IsWord word) : '\n' ∉ word.toList := by
  intro hc
  exact absurd (h.2 _ hc) (by decide)

/-- A redirection has no newline. -/
theorem newline_notMem_redirText {arrow : String} {redir : Option String} (harrow : '\n' ∉ arrow.toList)
    (hredir : ∀ name ∈ redir, IsWord name) : '\n' ∉ (redirText arrow redir).toList := by
  cases redir with
  | none => simp [redirText]
  | some name =>
      have hname := (hredir name rfl).newline_notMem
      simp [redirText, harrow, hname]

/-- The text of a command has no newline. -/
theorem newline_notMem_scommandText (h : Printable sc) : '\n' ∉ (scommandText sc).toList := by
  intro hc
  unfold scommandText at hc
  rw [String.toList_append, String.toList_append, List.mem_append, List.mem_append] at hc
  rcases hc with (hc | hc) | hc
  · rcases mem_intercalate hc with hsep | ⟨word, hword, hmem⟩
    · exact absurd hsep (by decide)
    · exact (h.words word hword).newline_notMem hmem
  · exact newline_notMem_redirText (by decide) h.redirOut hc
  · exact newline_notMem_redirText (by decide) h.redirIn hc

/-- The text of a pipeline has no newline. -/
theorem newline_notMem_pipelineText (hq : ∀ sc ∈ q.scmds, Printable sc) :
    '\n' ∉ (pipelineText q).toList := by
  intro hc
  unfold pipelineText at hc
  rw [String.toList_append, List.mem_append] at hc
  rcases hc with hc | hc
  · rcases mem_intercalate hc with hsep | ⟨piece, hpiece, hmem⟩
    · exact absurd hsep (by decide)
    · obtain ⟨sc, hsc, rfl⟩ := List.mem_map.mp hpiece
      exact newline_notMem_scommandText (hq sc hsc) hmem
  · cases hwait : q.wait <;> simp [hwait] at hc

end Newline

/-! ## The tokens of the texts -/

section Tokens

variable {sc : Scommand} {q : Pipeline} {cs : List Char}

/-- The arguments of the text of a command. -/
def argsOf (sc : Scommand) : List Arg :=
  sc.cmdArgs.map .normal ++ sc.redirOut.toList.map .output ++ sc.redirIn.toList.map .input

/-- Words added one after the other are the arguments. -/
theorem foldl_add_normal (words : List String) (sc : Scommand) :
    (words.map .normal).foldl Scommand.add sc = { sc with cmdArgs := sc.cmdArgs ++ words } := by
  induction words generalizing sc with
  | nil => simp
  | cons word words ih =>
      rw [List.map_cons, List.foldl_cons, ih]
      simp [Scommand.add]

/-- The command of its arguments is the command. -/
theorem scommandOf_argsOf (sc : Scommand) : scommandOf (argsOf sc) = sc := by
  unfold scommandOf argsOf
  rw [List.foldl_append, List.foldl_append, foldl_add_normal]
  obtain ⟨cmdArgs, redirIn, redirOut⟩ := sc
  cases redirIn <;> cases redirOut <;> rfl

/-- A printable command has a word among its arguments. -/
theorem exists_isNormal_argsOf (h : Printable sc) : ∃ a ∈ argsOf sc, a.IsNormal := by
  obtain ⟨word, words, hwords⟩ := List.exists_cons_of_ne_nil h.hasWord
  refine ⟨.normal word, ?_, trivial⟩
  simp [argsOf, hwords]

/-- A space in front of a line is no token. -/
theorem lineTokens_blank (cs : List Char) : lineTokens (' ' :: cs) = lineTokens cs := by
  rw [lineTokens_cons (by decide) (by decide)]
  rfl

/-- A word of the shell is one token. -/
theorem lineTokens_isWord {word : String} (h : IsWord word) (hcs : ∀ c ∈ cs.head?, ¬ IsWordChar c) :
    lineTokens (word.toList ++ cs) = .word word :: lineTokens cs := by
  have hne : word.toList ≠ [] := by simpa using h.1
  rw [lineTokens_word hne h.2 hcs, String.ofList_toList]

/-- The words of a command, with blanks between them. -/
theorem lineTokens_words {words : List String} (hwords : ∀ word ∈ words, IsWord word)
    (hcs : ∀ c ∈ cs.head?, ¬ IsWordChar c) :
    lineTokens ((" ".intercalate words).toList ++ cs) = words.map .word ++ lineTokens cs := by
  induction words with
  | nil => simp
  | cons word words ih =>
      have hword := hwords word List.mem_cons_self
      cases words with
      | nil =>
          rw [String.intercalate_singleton, lineTokens_isWord hword hcs]
          rfl
      | cons next words =>
          have hblank : ∀ c ∈ (' ' :: ((" ".intercalate (next :: words)).toList ++ cs)).head?,
              ¬ IsWordChar c := by
            intro c hc
            cases hc
            decide
          rw [String.intercalate_cons_cons, String.toList_append, String.toList_append, List.append_assoc,
            List.append_assoc]
          have hstep := lineTokens_isWord hword hblank
          rw [lineTokens_blank, ih fun word h => hwords word (List.mem_cons_of_mem _ h)] at hstep
          exact hstep

/-- A redirection behind the words. -/
theorem lineTokens_redirText (arrow : String) (symbol : Char) {redir : Option String}
    (harrow : arrow.toList = [' ', symbol, ' ']) (hsymbol : symbol = '<' ∨ symbol = '>')
    (hredir : ∀ name ∈ redir, IsWord name) (hcs : ∀ c ∈ cs.head?, ¬ IsWordChar c) :
    lineTokens ((redirText arrow redir).toList ++ cs) =
        (redir.toList.flatMap fun name => Shell.symbol symbol ++ [.word name]) ++ lineTokens cs ∧
      ∀ c ∈ ((redirText arrow redir).toList ++ cs).head?, ¬ IsWordChar c := by
  cases redir with
  | none => exact ⟨by simp [redirText], by simpa [redirText] using hcs⟩
  | some name =>
      have htext : (redirText arrow (some name)).toList ++ cs =
          ' ' :: symbol :: ' ' :: (name.toList ++ cs) := by
        simp [redirText, harrow]
      rw [htext]
      refine ⟨?_, ?_⟩
      · have hn : symbol ≠ '\n' ∧ ¬ IsWordChar symbol := by rcases hsymbol with rfl | rfl <;> decide
        rw [lineTokens_blank, lineTokens_cons hn.2 hn.1, lineTokens_blank,
          lineTokens_isWord (hredir name rfl) hcs]
        simp
      · intro c hc
        cases hc
        decide

/-- The text of a command has the tokens of its arguments. -/
theorem lineTokens_scommandText (h : Printable sc) (hcs : ∀ c ∈ cs.head?, ¬ IsWordChar c) :
    lineTokens ((scommandText sc).toList ++ cs) = (argsOf sc).flatMap Arg.tokens ++ lineTokens cs := by
  obtain ⟨hin, hin'⟩ := lineTokens_redirText " < " '<' rfl (.inl rfl) h.redirIn hcs
  obtain ⟨hout, hout'⟩ := lineTokens_redirText " > " '>' rfl (.inr rfl) h.redirOut hin'
  unfold scommandText
  rw [String.toList_append, String.toList_append, List.append_assoc, List.append_assoc,
    lineTokens_words h.words hout', hout, hin]
  obtain ⟨cmdArgs, redirIn, redirOut⟩ := sc
  have hwords : (cmdArgs.map Arg.normal).flatMap Arg.tokens = cmdArgs.map .word := by
    rw [List.flatMap_map, List.map_eq_flatMap]
    rfl
  cases redirIn <;> cases redirOut <;> simp [argsOf, hwords, Arg.tokens, symbol]

/-- The text of a pipeline has the tokens of its commands, with pipes between them. -/
theorem lineTokens_commands {later : List Scommand} (h : Printable sc)
    (hlater : ∀ sc ∈ later, Printable sc) (hcs : ∀ c ∈ cs.head?, ¬ IsWordChar c) :
    lineTokens ((" | ".intercalate ((sc :: later).map scommandText)).toList ++ cs) =
      (argsOf sc).flatMap Arg.tokens ++
        ((later.map argsOf).flatMap fun as => .pipe :: as.flatMap Arg.tokens) ++ lineTokens cs := by
  induction later generalizing sc with
  | nil =>
      rw [List.map_singleton, String.intercalate_singleton, lineTokens_scommandText h hcs]
      simp
  | cons next later ih =>
      have hih := ih (hlater next List.mem_cons_self) fun sc hsc => hlater sc (List.mem_cons_of_mem next hsc)
      have hblank : ∀ c ∈ (' ' :: '|' :: ' ' ::
          ((" | ".intercalate ((next :: later).map scommandText)).toList ++ cs)).head?,
          ¬ IsWordChar c := by
        intro c hc
        cases hc
        decide
      have hpipe : symbol '|' = [.pipe] := rfl
      have hstep := lineTokens_scommandText h hblank
      rw [lineTokens_blank, lineTokens_cons (by decide) (by decide), lineTokens_blank, hih, hpipe] at hstep
      rw [List.map_cons, List.map_cons, String.intercalate_cons_cons, ← List.map_cons, String.toList_append,
        String.toList_append, List.append_assoc, List.append_assoc]
      refine hstep.trans ?_
      simp

/-- The line of a pipeline stands for the pipeline. -/
theorem denotes_pipelineText (hne : q.scmds ≠ []) (hq : ∀ sc ∈ q.scmds, Printable sc) (cs : List Char) :
    Denotes (lineTokens ((pipelineText q).toList ++ '\n' :: cs)) q := by
  obtain ⟨scmds, wait⟩ := q
  obtain ⟨sc, later, rfl⟩ := List.exists_cons_of_ne_nil hne
  refine ⟨argsOf sc, later.map argsOf, !wait, ?_, ?_, ?_⟩
  · intro as has
    obtain ⟨sc', hsc', rfl⟩ : ∃ sc' ∈ sc :: later, argsOf sc' = as := by simpa [eq_comm] using has
    exact exists_isNormal_argsOf (hq sc' hsc')
  · have htail : lineTokens ((if wait then "" else " &").toList ++ '\n' :: cs) =
          (if !wait then [.background] else []) ∧
        ∀ c ∈ ((if wait then "" else " &").toList ++ '\n' :: cs).head?, ¬ IsWordChar c := by
      cases wait with
      | true =>
          refine ⟨lineTokens_newline cs, fun c hc => ?_⟩
          cases hc
          decide
      | false =>
          refine ⟨?_, fun c hc => ?_⟩
          · show lineTokens (' ' :: '&' :: '\n' :: cs) = _
            rw [lineTokens_blank, lineTokens_cons (by decide) (by decide), lineTokens_newline]
            rfl
          · cases hc
            decide
    unfold pipelineText
    rw [String.toList_append, List.append_assoc,
      lineTokens_commands (hq sc List.mem_cons_self)
        (fun sc' h => hq sc' (List.mem_cons_of_mem sc h)) htail.2, htail.1]
  · have hcommands : (argsOf sc :: later.map argsOf).map scommandOf = sc :: later := by
      rw [← List.map_cons, List.map_map]
      conv_rhs => rw [← List.map_id (sc :: later)]
      exact List.map_congr_left fun sc' _ => scommandOf_argsOf sc'
    rw [hcommands, Bool.not_not]

end Tokens

/-! ## The round trip -/

/-- `parse_pipeline` on the line `pipeline_to_string` prints returns the pipeline, and stops behind the
line. -/
theorem parsePipeline_pipelineToString {P : Type} {parser : Parser P} {rest : P → List Char}
    (h : Documented parser rest) {q : Pipeline} (hne : q.scmds ≠ [])
    (hq : ∀ sc ∈ q.scmds, Printable sc) :
    ∃ text, pipelineToString q = some text ∧
      ∀ p cs, rest p = text.toList ++ '\n' :: cs →
        ∃ enough, ∀ fuel ≥ enough, ∃ p', parsePipeline parser fuel p = .ok (some q) p' ∧ rest p' = cs := by
  refine ⟨pipelineText q, pipelineToString_eq hne hq, fun p cs hrest => ⟨(rest p).length + 2, ?_⟩⟩
  intro fuel hfuel
  have hdenotes := denotes_pipelineText hne hq cs
  rw [← hrest] at hdenotes
  have heof : parser.atEof p = false := by
    refine Bool.not_eq_true _ ▸ fun htrue => ?_
    have hnil := h.atEof p htrue
    rw [hrest] at hnil
    simp at hnil
  obtain ⟨p', hrun, hafter⟩ := parsePipeline_of_denotes h heof hfuel hdenotes
  refine ⟨p', hrun, ?_⟩
  have hline : Consumes (rest p) ('\n' :: cs) := ⟨_, hrest, newline_notMem_pipelineText hq⟩
  rw [hafter, ← hline.afterLine_eq]
  rfl

/-- A pipeline of two commands, with both kinds of redirections, that the shell does not wait for. -/
theorem parsePipeline_pipelineToString_text :
    ∃ text, pipelineToString ⟨[⟨["ls", "-l"], some "in", none⟩, ⟨["wc"], none, some "out"⟩], false⟩ = some text ∧
      ∀ p cs, id p = text.toList ++ '\n' :: cs →
        ∃ enough, ∀ fuel ≥ enough, ∃ p', parsePipeline textParser fuel p =
          .ok (some ⟨[⟨["ls", "-l"], some "in", none⟩, ⟨["wc"], none, some "out"⟩], false⟩) p' ∧
          id p' = cs := by
  refine parsePipeline_pipelineToString textParser_documented (List.cons_ne_nil _ _) ?_
  intro sc hsc
  have hcases : sc = ⟨["ls", "-l"], some "in", none⟩ ∨ sc = ⟨["wc"], none, some "out"⟩ := by
    simpa using hsc
  rcases hcases with rfl | rfl
  · exact ⟨by simp, by simp [IsWord, IsWordChar], by simp [IsWord, IsWordChar], by simp⟩
  · exact ⟨by simp, by simp [IsWord, IsWordChar], by simp, by simp [IsWord, IsWordChar]⟩

end OsLabs.Shell
