import OsLabs.Shell.Grammar

/-! # Parsing a pipeline (`parsing.c`)

`parse_pipeline` over any parser that keeps to its description in `parser.h` (`Documented`). The
function reads the commands of a line one after the other, and neither the error flag of its loop nor
the garbage at the end of the line has an effect on what it returns: `parsePipeline_parsesLine_iff` says
for which lines this is right. -/

namespace OsLabs.Shell

/-! ## The parser -/

/-- `arg_kind_t`. -/
inductive ArgKind
  | argNormal
  | argInput
  | argOutput
  deriving DecidableEq, Repr

/-- The functions of `parser.h`, on parsers of the type `P`. -/
structure Parser (P : Type) where
  nextArgument : P → Option (String × ArgKind) × P
  opBackground : P → Bool × P
  skipBlanks : P → P
  opPipe : P → Bool × P
  garbage : P → Bool × P
  atEof : P → Bool

/-- Why a call does not return. -/
inductive ParseStop
  /-- A failed `assert`. -/
  | aborted
  /-- A loop that goes on after the rounds it was given. -/
  | diverges
  deriving DecidableEq, Repr

/-- Commands that use a parser. -/
abbrev ParseM (P : Type) := EStateM ParseStop P

/-- Call a function of the parser. -/
def call {P α : Type} (f : P → α × P) : ParseM P α := fun p => .ok (f p).1 (f p).2

/-! ## The functions of `command.c` -/

/-- `scommand_new`. -/
def scommandNew : Scommand := ⟨[], none, none⟩

/-- `scommand_push_back`. -/
def scommandPushBack (self : Scommand) (argument : String) : Scommand :=
  { self with cmdArgs := self.cmdArgs ++ [argument] }

/-- `scommand_set_redir_in`. -/
def scommandSetRedirIn (self : Scommand) (filename : String) : Scommand :=
  { self with redirIn := some filename }

/-- `scommand_set_redir_out`. -/
def scommandSetRedirOut (self : Scommand) (filename : String) : Scommand :=
  { self with redirOut := some filename }

/-- `scommand_is_empty`. -/
def scommandIsEmpty (self : Scommand) : Bool := scommandLength self == 0

/-- `pipeline_new`. -/
def pipelineNew : Pipeline := ⟨[], true⟩

/-- `pipeline_push_back`; asserts that there is a command. -/
def pipelinePushBack {P : Type} (self : Pipeline) (sc : Option Scommand) : ParseM P Pipeline :=
  match sc with
  | none => throw .aborted
  | some sc => pure { self with scmds := self.scmds ++ [sc] }

/-- `pipeline_set_wait`. -/
def pipelineSetWait (self : Pipeline) (w : Bool) : Pipeline := { self with wait := w }

/-! ## The functions of `parsing.c` -/

section Parse

variable {P : Type} (parser : Parser P)

/-- The loop of `parse_scommand`. -/
def parseScommandLoop : Nat → Scommand → ParseM P Scommand
  | 0, _ => throw .diverges
  | fuel + 1, command => do
      match ← call parser.nextArgument with
      | none => pure command
      | some (arg, .argNormal) => parseScommandLoop fuel (scommandPushBack command arg)
      | some (arg, .argInput) => parseScommandLoop fuel (scommandSetRedirIn command arg)
      | some (arg, .argOutput) => parseScommandLoop fuel (scommandSetRedirOut command arg)

/-- `parse_scommand`; the result `none` is `NULL`. -/
def parseScommand (fuel : Nat) : ParseM P (Option Scommand) := do
  let command ← parseScommandLoop parser fuel scommandNew
  if scommandIsEmpty command then pure none else pure (some command)

/-- The loop of `parse_pipeline`. -/
def parsePipelineLoop : Nat → Pipeline → Option Scommand → Bool → Bool → ParseM P Pipeline
  | 0, _, _, _, _ => throw .diverges
  | fuel + 1, result, cmd, anotherPipe, error =>
      if anotherPipe ∧ ¬ error then do
        let result ← pipelinePushBack result cmd
        modify parser.skipBlanks
        let anotherPipe ← call parser.opPipe
        let cmd ← parseScommand parser fuel
        parsePipelineLoop fuel result cmd anotherPipe cmd.isNone
      else pure result

/-- `parse_pipeline`; the result `none` is `NULL`. The garbage at the end of the line is read, and then
forgotten. -/
def parsePipeline (fuel : Nat) : ParseM P (Option Pipeline) := do
  if parser.atEof (← get) then throw .aborted
  else do
    modify parser.skipBlanks
    let cmd ← parseScommand parser fuel
    let result ← parsePipelineLoop parser fuel pipelineNew cmd true cmd.isNone
    let isBackground ← call parser.opBackground
    let result := pipelineSetWait result (!isBackground)
    let _garbage ← call parser.garbage
    if pipelineIsEmpty result then pure none else pure (some result)

end Parse

/-! ## What `parser.h` says -/

/-- The text without the blanks at its beginning. -/
def skipped (cs : List Char) : List Char := cs.dropWhile fun c => IsBlank c

/-- The text up to the first newline. -/
def lineOf (cs : List Char) : List Char := cs.takeWhile fun c => c ≠ '\n'

/-- The text behind the first newline, or nothing. -/
def afterLine (cs : List Char) : List Char := (cs.dropWhile fun c => c ≠ '\n').tail

/-- The first text is the second one with something of the same line before it. -/
def Consumes (cs ds : List Char) : Prop := ∃ used, cs = used ++ ds ∧ '\n' ∉ used

/-- The parser keeps to its description in `parser.h`: `rest` is the text it has not read yet. Only
`parser_garbage` reads a newline. A redirection without a name is no argument. (The object file that comes with
the sources also ends a word at `'\r'`, of which the description says nothing: it keeps to it on texts without
that character.) -/
structure Documented {P : Type} (parser : Parser P) (rest : P → List Char) : Prop where
  skipBlanks : ∀ p, rest (parser.skipBlanks p) = skipped (rest p)
  garbage : ∀ p, rest (parser.garbage p).2 = afterLine (rest p)
  atEof : ∀ p, parser.atEof p = true → rest p = []
  nextArgument_consumes : ∀ p, Consumes (rest p) (rest (parser.nextArgument p).2)
  opPipe_consumes : ∀ p, Consumes (rest p) (rest (parser.opPipe p).2)
  opBackground_consumes : ∀ p, Consumes (rest p) (rest (parser.opBackground p).2)
  nextArgument_word : ∀ p word cs, skipped (rest p) = word ++ cs → word ≠ [] →
    (∀ c ∈ word, IsWordChar c) → (∀ c ∈ cs.head?, ¬ IsWordChar c) →
    (parser.nextArgument p).1 = some (String.ofList word, .argNormal) ∧
      skipped (rest (parser.nextArgument p).2) = skipped cs
  nextArgument_redirection : ∀ p symbol cs word ds, symbol = '<' ∨ symbol = '>' →
    skipped (rest p) = symbol :: cs → skipped cs = word ++ ds → word ≠ [] →
    (∀ c ∈ word, IsWordChar c) → (∀ c ∈ ds.head?, ¬ IsWordChar c) →
    (parser.nextArgument p).1 =
        some (String.ofList word, if symbol = '<' then .argInput else .argOutput) ∧
      skipped (rest (parser.nextArgument p).2) = skipped ds
  nextArgument_noName : ∀ p symbol cs, symbol = '<' ∨ symbol = '>' →
    skipped (rest p) = symbol :: cs → (∀ c ∈ (skipped cs).head?, ¬ IsWordChar c) →
    (parser.nextArgument p).1 = none
  nextArgument_stop : ∀ p, (∀ c ∈ (skipped (rest p)).head?, c = '|' ∨ c = '&' ∨ c = '\n') →
    (parser.nextArgument p).1 = none ∧
      skipped (rest (parser.nextArgument p).2) = skipped (rest p)
  opPipe_found : ∀ p cs, rest p = '|' :: cs →
    (parser.opPipe p).1 = true ∧ rest (parser.opPipe p).2 = cs
  opPipe_notFound : ∀ p, (∀ c ∈ (rest p).head?, c ≠ '|' ∧ ¬ IsBlank c) →
    (parser.opPipe p).1 = false ∧ rest (parser.opPipe p).2 = rest p
  opBackground_found : ∀ p cs, rest p = '&' :: cs →
    (parser.opBackground p).1 = true ∧ rest (parser.opBackground p).2 = cs
  opBackground_notFound : ∀ p, (∀ c ∈ (rest p).head?, c ≠ '&' ∧ ¬ IsBlank c) →
    (parser.opBackground p).1 = false ∧ rest (parser.opBackground p).2 = rest p

/-! ## Texts and their tokens -/

/-- The tokens of the line at the beginning of a text. -/
def lineTokens (cs : List Char) : List Token := tokens (lineOf cs)

section Texts

variable {c : Char} {cs ds es word : List Char} {toks : List Token}

/-- A blank in front is skipped. -/
theorem skipped_cons (c : Char) (cs : List Char) :
    skipped (c :: cs) = if IsBlank c then skipped cs else c :: cs := by
  unfold skipped
  by_cases h : IsBlank c <;> simp [h]

/-- Skipping makes the text no longer. -/
theorem length_skipped_le (cs : List Char) : (skipped cs).length ≤ cs.length :=
  (List.dropWhile_suffix _).length_le

/-- What remains does not start with a blank. -/
theorem not_isBlank_head_skipped (hc : c ∈ (skipped cs).head?) : ¬ IsBlank c := by
  induction cs with
  | nil => cases hc
  | cons a cs ih =>
      rw [skipped_cons] at hc
      split_ifs at hc with ha
      · exact ih hc
      · cases hc
        exact ha

/-- Behind the blanks there is nothing to skip. -/
theorem skipped_skipped (cs : List Char) : skipped (skipped cs) = skipped cs := by
  cases h : skipped cs with
  | nil => rfl
  | cons a as =>
      have ha : ¬ IsBlank a := not_isBlank_head_skipped (by rw [h]; rfl)
      rw [skipped_cons, if_neg ha]

namespace Consumes

/-- Reading nothing consumes nothing. -/
theorem refl (cs : List Char) : Consumes cs cs := ⟨[], rfl, List.not_mem_nil⟩

/-- What is consumed in two goes is consumed. -/
theorem trans (h : Consumes cs ds) (h' : Consumes ds es) : Consumes cs es := by
  obtain ⟨used, rfl, hused⟩ := h
  obtain ⟨used', rfl, hused'⟩ := h'
  exact ⟨used ++ used', (List.append_assoc _ _ _).symm, by simp [hused, hused']⟩

/-- What is left is no longer than what there was. -/
theorem length_le (h : Consumes cs ds) : ds.length ≤ cs.length := by
  obtain ⟨used, rfl, -⟩ := h
  simp

/-- Nothing was consumed if nothing is missing. -/
theorem eq_of_length_le (h : Consumes cs ds) (hle : cs.length ≤ ds.length) : ds = cs := by
  obtain ⟨used, rfl, -⟩ := h
  rw [List.length_append] at hle
  have hnil : used = [] := List.eq_nil_of_length_eq_zero (by omega)
  rw [hnil, List.nil_append]

/-- The line behind the newline is the same. -/
theorem afterLine_eq (h : Consumes cs ds) : afterLine ds = afterLine cs := by
  obtain ⟨used, rfl, hused⟩ := h
  induction used with
  | nil => rfl
  | cons a used ih =>
      rw [List.mem_cons, not_or] at hused
      rw [ih hused.2]
      unfold afterLine
      rw [List.cons_append, List.dropWhile_cons_of_pos (by simpa using Ne.symm hused.1)]

/-- Skipping blanks consumes them. -/
theorem skipped (cs : List Char) : Consumes cs (skipped cs) := by
  induction cs with
  | nil => exact refl []
  | cons a cs ih =>
      rw [skipped_cons]
      split_ifs with ha
      · obtain ⟨used, hcs, hused⟩ := ih
        refine ⟨a :: used, by rw [List.cons_append, ← hcs], ?_⟩
        rw [List.mem_cons, not_or]
        refine ⟨?_, hused⟩
        rintro rfl
        exact absurd ha (by decide)
      · exact refl _

end Consumes

/-- No tokens are left at the end of the text. -/
theorem lineTokens_nil : lineTokens [] = [] := rfl

/-- The line ends at its newline. -/
theorem lineTokens_newline (cs : List Char) : lineTokens ('\n' :: cs) = [] := rfl

/-- A character that is not part of a word. -/
theorem lineTokens_cons (hc : ¬ IsWordChar c) (hn : c ≠ '\n') (cs : List Char) :
    lineTokens (c :: cs) = symbol c ++ lineTokens cs := by
  unfold lineTokens lineOf
  rw [List.takeWhile_cons_of_pos (by simpa using hn), tokens_cons hc]

/-- Blanks in front of a line are no tokens. -/
theorem lineTokens_skipped (cs : List Char) : lineTokens (skipped cs) = lineTokens cs := by
  induction cs with
  | nil => rfl
  | cons c cs ih =>
      rw [skipped_cons]
      split_ifs with hc
      · have hn : c ≠ '\n' := by
          rintro rfl
          exact absurd hc (by decide)
        have hsymbol : symbol c = [] := by rcases hc with rfl | rfl <;> rfl
        rw [ih, lineTokens_cons (not_isWordChar_of_isBlank hc) hn, hsymbol, List.nil_append]
      · rfl

/-- A word, up to a character that is not part of it. -/
theorem lineTokens_word (hne : word ≠ []) (hw : ∀ c ∈ word, IsWordChar c)
    (hcs : ∀ c ∈ cs.head?, ¬ IsWordChar c) :
    lineTokens (word ++ cs) = .word (String.ofList word) :: lineTokens cs := by
  have hline : lineOf (word ++ cs) = word ++ lineOf cs := by
    unfold lineOf
    rw [List.takeWhile_append_of_pos]
    intro c hc
    have hn : c ≠ '\n' := by
      rintro rfl
      exact absurd (hw _ hc) (by decide)
    simpa using hn
  have hhead : ∀ c ∈ (lineOf cs).head?, ¬ IsWordChar c := by
    intro c hc
    refine hcs c ?_
    cases cs with
    | nil => exact hc
    | cons a cs =>
        unfold lineOf at hc
        by_cases ha : a = '\n'
        · subst ha
          cases hc
        · rw [List.takeWhile_cons_of_pos (by simpa using ha)] at hc
          exact hc
  unfold lineTokens
  rw [hline, tokens_word hne hw hhead]

/-- What a text may start with. -/
theorem front_cases (cs : List Char) :
    (∀ c ∈ (skipped cs).head?, c = '|' ∨ c = '&' ∨ c = '\n') ∨
      (∃ word ds, skipped cs = word ++ ds ∧ word ≠ [] ∧ (∀ c ∈ word, IsWordChar c) ∧
        ∀ c ∈ ds.head?, ¬ IsWordChar c) ∨
      ∃ symbol ds, (symbol = '<' ∨ symbol = '>') ∧ skipped cs = symbol :: ds := by
  cases h : skipped cs with
  | nil => exact .inl fun c hc => absurd hc (by simp)
  | cons a as =>
      have ha : ¬ IsBlank a := not_isBlank_head_skipped (by rw [h]; rfl)
      by_cases hw : IsWordChar a
      · refine .inr (.inl ⟨(a :: as).takeWhile fun c => IsWordChar c,
          (a :: as).dropWhile fun c => IsWordChar c, List.takeWhile_append_dropWhile.symm, ?_, ?_, ?_⟩)
        · rw [List.takeWhile_cons_of_pos (by simpa using hw)]
          exact List.cons_ne_nil _ _
        · exact fun c hc => by simpa using List.all_eq_true.mp List.all_takeWhile c hc
        · intro c hc
          have := List.head?_dropWhile_not (fun c => decide (IsWordChar c)) (a :: as)
          rw [hc] at this
          simpa using this
      · simp only [IsWordChar, List.mem_cons, List.not_mem_nil, or_false, not_not] at hw
        unfold IsBlank at ha
        rcases hw with rfl | rfl | rfl | rfl | rfl | rfl | rfl
        · exact absurd (.inl rfl) ha
        · exact absurd (.inr rfl) ha
        · exact .inl fun c hc => by cases hc; decide
        · exact .inl fun c hc => by cases hc; decide
        · exact .inl fun c hc => by cases hc; decide
        · exact .inr (.inr ⟨_, as, .inl rfl, rfl⟩)
        · exact .inr (.inr ⟨_, as, .inr rfl, rfl⟩)

end Texts

/-! ## Parsing a command -/

section Command

variable {P : Type} {parser : Parser P} {rest : P → List Char} {p : P} {fuel : Nat}

/-- A call of the parser answers and moves on in its text. -/
theorem call_run {α : Type} (f : P → α × P) (p : P) : call f p = .ok (f p).1 (f p).2 := rfl

/-- A call that gets past a token makes the text shorter. -/
theorem Consumes.length_lt {cs ds : List Char} (h : Consumes cs ds)
    (hlt : (Shell.skipped ds).length < (Shell.skipped cs).length) : ds.length < cs.length := by
  rcases Nat.lt_or_ge ds.length cs.length with hlt' | hge
  · exact hlt'
  · rw [h.eq_of_length_le hge] at hlt
    exact absurd hlt (Nat.lt_irrefl _)

/-- A line that does not start with an argument or a redirection. -/
theorem stops_lineTokens {cs : List Char}
    (h : ∀ c ∈ (Shell.skipped cs).head?, c = '|' ∨ c = '&' ∨ c = '\n') : Stops (lineTokens cs) := by
  rw [← lineTokens_skipped]
  cases hcs : Shell.skipped cs with
  | nil => exact List.mem_cons_self
  | cons a as =>
      rw [hcs] at h
      rcases h a rfl with rfl | rfl | rfl
      · rw [lineTokens_cons (by decide) (by decide)]
        simp [Stops, symbol]
      · rw [lineTokens_cons (by decide) (by decide)]
        simp [Stops, symbol]
      · exact List.mem_cons_self

/-- The tokens of a line start with a word only if the line does. -/
theorem lineTokens_ne_word {cs : List Char} (h : ∀ c ∈ (Shell.skipped cs).head?, ¬ IsWordChar c)
    (text : String) (toks : List Token) : lineTokens cs ≠ .word text :: toks := by
  intro heq
  rcases front_cases cs with hstop | ⟨word, ds, hfront, hne, hw, -⟩ | ⟨symbol, ds, hsymbol, hfront⟩
  · have hstops := stops_lineTokens hstop
    rw [heq] at hstops
    simp [Stops] at hstops
  · obtain ⟨a, as, rfl⟩ := List.exists_cons_of_ne_nil hne
    exact h a (by rw [hfront]; rfl) (hw a List.mem_cons_self)
  · rw [← lineTokens_skipped, hfront] at heq
    rcases hsymbol with rfl | rfl
    · rw [lineTokens_cons (by decide) (by decide)] at heq
      simp [Shell.symbol] at heq
    · rw [lineTokens_cons (by decide) (by decide)] at heq
      simp [Shell.symbol] at heq

/-- The token of the symbol of a redirection. -/
theorem lineTokens_redirection {symbol : Char} (h : symbol = '<' ∨ symbol = '>') (cs : List Char) :
    ∃ t, (t = Token.input ∧ symbol = '<' ∨ t = .output ∧ symbol = '>') ∧
      lineTokens (symbol :: cs) = t :: lineTokens cs := by
  rcases h with rfl | rfl
  · exact ⟨.input, .inl ⟨rfl, rfl⟩, by rw [lineTokens_cons (by decide) (by decide)]; rfl⟩
  · exact ⟨.output, .inr ⟨rfl, rfl⟩, by rw [lineTokens_cons (by decide) (by decide)]; rfl⟩

/-- A redirection without a name. -/
theorem leadingArgs_of_noName {symbol : Char} {cs ds : List Char} (hsymbol : symbol = '<' ∨ symbol = '>')
    (hfront : Shell.skipped cs = symbol :: ds)
    (hname : ∀ c ∈ (Shell.skipped ds).head?, ¬ IsWordChar c) :
    (leadingArgs (lineTokens cs)).1 = [] ∧ ¬ Stops (leadingArgs (lineTokens cs)).2 := by
  obtain ⟨t, ht, htoks⟩ := lineTokens_redirection hsymbol ds
  have ht' : t = .input ∨ t = .output := ht.imp And.left And.left
  rw [← lineTokens_skipped, hfront, htoks, leadingArgs_noName ht' (lineTokens_ne_word hname)]
  refine ⟨rfl, ?_⟩
  rcases ht' with rfl | rfl <;> simp [Stops]

/-- The argument `parser_next_argument` finds is the first one of the line. -/
theorem nextArgument_cases (h : Documented parser rest) (p : P) :
    (∃ arg kind a toks, (parser.nextArgument p).1 = some (arg, kind) ∧
        lineTokens (rest p) = Arg.tokens a ++ toks ∧
        lineTokens (rest (parser.nextArgument p).2) = toks ∧
        (rest (parser.nextArgument p).2).length < (rest p).length ∧
        (a = .normal arg ∧ kind = .argNormal ∨ a = .input arg ∧ kind = .argInput ∨
          a = .output arg ∧ kind = .argOutput)) ∨
      (parser.nextArgument p).1 = none ∧ (leadingArgs (lineTokens (rest p))).1 = [] ∧
        (Stops (leadingArgs (lineTokens (rest p))).2 →
          (leadingArgs (lineTokens (rest p))).2 = lineTokens (rest p) ∧
            skipped (rest (parser.nextArgument p).2) = skipped (rest p)) := by
  have hconsumes := h.nextArgument_consumes p
  -- The front of the line is a stop, a word, or a redirection sign.
  rcases front_cases (rest p) with hstop | ⟨word, ds, hfront, hne, hw, hds⟩ |
    ⟨symbol, cs, hsymbol, hfront⟩
  · obtain ⟨hnone, hskip⟩ := h.nextArgument_stop p hstop
    rw [leadingArgs_of_stops (stops_lineTokens hstop)]
    exact .inr ⟨hnone, rfl, fun _ => ⟨rfl, hskip⟩⟩
  · obtain ⟨harg, hskip⟩ := h.nextArgument_word p word ds hfront hne hw hds
    refine .inl ⟨_, _, .normal (String.ofList word), lineTokens ds, harg, ?_, ?_, ?_, .inl ⟨rfl, rfl⟩⟩
    · rw [← lineTokens_skipped, hfront, lineTokens_word hne hw hds]
      rfl
    · rw [← lineTokens_skipped, hskip, lineTokens_skipped]
    · refine hconsumes.length_lt ?_
      have := length_skipped_le ds
      have := List.length_pos_iff.mpr hne
      rw [hskip, hfront, List.length_append]
      omega
  -- Behind the sign stands nothing to name, the name, or another sign.
  · rcases front_cases cs with hstop | ⟨word, ds, hname, hne, hw, hds⟩ | ⟨symbol', ds, hsymbol', hname⟩
    · have hno : ∀ c ∈ (skipped cs).head?, ¬ IsWordChar c := by
        intro c hc
        rcases hstop c hc with rfl | rfl | rfl <;> decide
      obtain ⟨hargs, hstops⟩ := leadingArgs_of_noName hsymbol hfront hno
      exact .inr ⟨h.nextArgument_noName p symbol cs hsymbol hfront hno, hargs, fun h => absurd h hstops⟩
    · obtain ⟨harg, hskip⟩ := h.nextArgument_redirection p symbol cs word ds hsymbol hfront hname hne hw hds
      obtain ⟨t, ht, htoks⟩ := lineTokens_redirection hsymbol cs
      have hword : lineTokens cs = .word (String.ofList word) :: lineTokens ds := by
        rw [← lineTokens_skipped, hname, lineTokens_word hne hw hds]
      have hlt : (rest (parser.nextArgument p).2).length < (rest p).length := by
        refine hconsumes.length_lt ?_
        have h1 := length_skipped_le ds
        have h2 := length_skipped_le cs
        -- The sign and the name are both gone from the line.
        rw [hname, List.length_append] at h2
        rw [hskip, hfront, List.length_cons]
        omega
      have hrest : lineTokens (rest (parser.nextArgument p).2) = lineTokens ds := by
        rw [← lineTokens_skipped, hskip, lineTokens_skipped]
      have hline : lineTokens (rest p) = t :: .word (String.ofList word) :: lineTokens ds := by
        rw [← lineTokens_skipped, hfront, htoks, hword]
      rcases ht with ⟨rfl, rfl⟩ | ⟨rfl, rfl⟩
      · exact .inl ⟨_, _, .input (String.ofList word), _, harg, hline, hrest, hlt,
          .inr (.inl ⟨rfl, rfl⟩)⟩
      · exact .inl ⟨_, _, .output (String.ofList word), _, harg, hline, hrest, hlt,
          .inr (.inr ⟨rfl, rfl⟩)⟩
    -- Two signs in a row: the first one has no name, as at the end of the line.
    · have hno : ∀ c ∈ (skipped cs).head?, ¬ IsWordChar c := by
        intro c hc
        rw [hname] at hc
        cases hc
        rcases hsymbol' with rfl | rfl <;> decide
      obtain ⟨hargs, hstops⟩ := leadingArgs_of_noName hsymbol hfront hno
      exact .inr ⟨h.nextArgument_noName p symbol cs hsymbol hfront hno, hargs, fun h => absurd h hstops⟩

/-- The tokens of an argument in front are read as this argument. -/
theorem leadingArgs_tokens (a : Arg) (toks : List Token) :
    leadingArgs (a.tokens ++ toks) = (a :: (leadingArgs toks).1, (leadingArgs toks).2) := by
  cases a <;> rfl

/-- The loop of `parse_scommand` collects the arguments at the beginning of the line. -/
theorem parseScommandLoop_run (h : Documented parser rest) (p : P) {fuel : Nat}
    (hfuel : (rest p).length < fuel) (command : Scommand) :
    ∃ p', parseScommandLoop parser fuel command p =
        .ok ((leadingArgs (lineTokens (rest p))).1.foldl Scommand.add command) p' ∧
      Consumes (rest p) (rest p') ∧
      (Stops (leadingArgs (lineTokens (rest p))).2 →
        lineTokens (rest p') = (leadingArgs (lineTokens (rest p))).2 ∧
          ((leadingArgs (lineTokens (rest p))).1 = [] → skipped (rest p') = skipped (rest p))) := by
  induction fuel generalizing p command with
  | zero => cases hfuel
  | succ fuel ih =>
      have hconsumes := h.nextArgument_consumes p
      have hcall := call_run parser.nextArgument p
      rw [parseScommandLoop, Cmd.bind_ok hcall]
      rcases nextArgument_cases h p with ⟨arg, kind, a, toks, hsome, hline, hrest, hlt, hkind⟩ |
        ⟨hnone, hargs, hstop⟩
      · rw [hsome, hline, leadingArgs_tokens, ← hrest]
        have hgo : ∃ p', parseScommandLoop parser fuel (command.add a) (parser.nextArgument p).2 =
            .ok (((leadingArgs (lineTokens (rest (parser.nextArgument p).2))).1).foldl Scommand.add
              (command.add a)) p' ∧ Consumes (rest p) (rest p') ∧
            (Stops (leadingArgs (lineTokens (rest (parser.nextArgument p).2))).2 →
              lineTokens (rest p') = (leadingArgs (lineTokens (rest (parser.nextArgument p).2))).2) := by
          obtain ⟨p', hrun, hcons, hstops⟩ := ih (parser.nextArgument p).2 (by omega) (command.add a)
          exact ⟨p', hrun, hconsumes.trans hcons, fun hs => (hstops hs).1⟩
        obtain ⟨p', hrun, hcons, hstops⟩ := hgo
        refine ⟨p', ?_, hcons, fun hs => ⟨hstops hs, fun hnil => by cases hnil⟩⟩
        rcases hkind with ⟨rfl, rfl⟩ | ⟨rfl, rfl⟩ | ⟨rfl, rfl⟩ <;> exact hrun
      · rw [hnone]
        refine ⟨(parser.nextArgument p).2, ?_, hconsumes, fun hs => ?_⟩
        · rw [hargs]
          rfl
        · obtain ⟨hsame, hskip⟩ := hstop hs
          exact ⟨by rw [hsame, ← lineTokens_skipped, hskip, lineTokens_skipped], fun _ => hskip⟩

/-- A command has words just when one of its arguments is one. -/
theorem cmdArgs_foldl_add (args : List Arg) (command : Scommand) :
    (args.foldl Scommand.add command).cmdArgs = [] ↔
      command.cmdArgs = [] ∧ ∀ a ∈ args, ¬ a.IsNormal := by
  induction args generalizing command with
  | nil => simp
  | cons a args ih =>
      rw [List.foldl_cons, ih, List.forall_mem_cons]
      cases a <;> simp [Scommand.add, Arg.IsNormal]

/-- The command `parse_scommand` makes of its arguments: none of them may be a word. -/
def commandOf? (args : List Arg) : Option Scommand :=
  if ∀ a ∈ args, ¬ a.IsNormal then none else some (scommandOf args)

/-- `parse_scommand` reads the command at the beginning of the line. -/
theorem parseScommand_run (h : Documented parser rest) (p : P) {fuel : Nat}
    (hfuel : (rest p).length < fuel) :
    ∃ p', parseScommand parser fuel p = .ok (commandOf? (leadingArgs (lineTokens (rest p))).1) p' ∧
      Consumes (rest p) (rest p') ∧
      (Stops (leadingArgs (lineTokens (rest p))).2 →
        lineTokens (rest p') = (leadingArgs (lineTokens (rest p))).2 ∧
          ((leadingArgs (lineTokens (rest p))).1 = [] → skipped (rest p') = skipped (rest p))) := by
  obtain ⟨p', hrun, hcons, hstops⟩ := parseScommandLoop_run h p hfuel scommandNew
  refine ⟨p', ?_, hcons, hstops⟩
  have hempty := cmdArgs_foldl_add (leadingArgs (lineTokens (rest p))).1 scommandNew
  unfold parseScommand commandOf?
  rw [Cmd.bind_ok hrun]
  by_cases hno : ∀ a ∈ (leadingArgs (lineTokens (rest p))).1, ¬ a.IsNormal
  · have hnil := hempty.mpr ⟨rfl, hno⟩
    rw [if_pos hno, if_pos (by simp [scommandIsEmpty, scommandLength, hnil])]
    rfl
  · have hcons' := mt hempty.mp fun h => hno h.2
    rw [if_neg hno, if_neg (by simpa [scommandIsEmpty, scommandLength] using hcons')]
    rfl

end Command

/-! ## Parsing a pipeline -/

section Pipeline

variable {P : Type} {parser : Parser P} {rest : P → List Char} {p : P} {fuel : Nat}
  {toks : List Token} {q : Pipeline}

/-- A line whose first token is an operator. -/
theorem skipped_of_operator {c : Char} {cs : List Char} (hc : c = '|' ∨ c = '&')
    (h : lineTokens cs = symbol c ++ toks) : ∃ ds, skipped cs = c :: ds ∧ lineTokens ds = toks := by
  rw [← lineTokens_skipped] at h
  rcases front_cases cs with hstop | ⟨word, ds, hfront, hne, hw, hds⟩ | ⟨redir, ds, hredir, hfront⟩
  · cases hcs : skipped cs with
    | nil =>
        rw [hcs, lineTokens_nil] at h
        rcases hc with rfl | rfl <;> simp [symbol] at h
    | cons a as =>
        rw [hcs] at h hstop
        -- the same character, since the tokens of the operators are different
        rcases hstop a rfl with rfl | rfl | rfl
        · rw [lineTokens_cons (by decide) (by decide)] at h
          rcases hc with rfl | rfl
          · exact ⟨as, rfl, List.append_cancel_left h⟩
          · simp [symbol] at h
        · rw [lineTokens_cons (by decide) (by decide)] at h
          rcases hc with rfl | rfl
          · simp [symbol] at h
          · exact ⟨as, rfl, List.append_cancel_left h⟩
        · rw [lineTokens_newline] at h
          rcases hc with rfl | rfl <;> simp [symbol] at h
  · rw [hfront, lineTokens_word hne hw hds] at h
    rcases hc with rfl | rfl <;> simp [symbol] at h
  · rw [hfront] at h
    rcases hredir with rfl | rfl
    · rw [lineTokens_cons (by decide) (by decide)] at h
      rcases hc with rfl | rfl <;> simp [symbol] at h
    · rw [lineTokens_cons (by decide) (by decide)] at h
      rcases hc with rfl | rfl <;> simp [symbol] at h

/-- A line that does not start with the operator. -/
theorem head_skipped_ne {c : Char} {cs : List Char} (hc : c = '|' ∨ c = '&')
    (h : ∀ toks, lineTokens cs ≠ symbol c ++ toks) :
    ∀ d ∈ (skipped cs).head?, d ≠ c ∧ ¬ IsBlank d := by
  intro d hd
  refine ⟨?_, not_isBlank_head_skipped hd⟩
  rintro rfl
  cases hcs : skipped cs with
  | nil =>
      rw [hcs] at hd
      cases hd
  | cons a as =>
      rw [hcs] at hd
      cases hd
      refine h (lineTokens as) ?_
      rw [← lineTokens_skipped, hcs]
      rcases hc with rfl | rfl <;> exact lineTokens_cons (by decide) (by decide) as

/-- `parser_op_pipe` after `parser_skip_blanks`. -/
theorem opPipe_cases (h : Documented parser rest) (p : P) :
    (parser.opPipe (parser.skipBlanks p)).1 = true ∧
        skipped (rest p) = '|' :: rest (parser.opPipe (parser.skipBlanks p)).2 ∨
      (parser.opPipe (parser.skipBlanks p)).1 = false ∧
        rest (parser.opPipe (parser.skipBlanks p)).2 = skipped (rest p) ∧
        ∀ cs, skipped (rest p) ≠ '|' :: cs := by
  have hskip := h.skipBlanks p
  by_cases hpipe : ∃ cs, skipped (rest p) = '|' :: cs
  · obtain ⟨cs, hcs⟩ := hpipe
    obtain ⟨hfound, hrest⟩ := h.opPipe_found (parser.skipBlanks p) cs (hskip.trans hcs)
    exact .inl ⟨hfound, by rw [hrest, hcs]⟩
  · have hhead : ∀ c ∈ (rest (parser.skipBlanks p)).head?, c ≠ '|' ∧ ¬ IsBlank c := by
      intro c hc
      rw [hskip] at hc
      refine ⟨?_, not_isBlank_head_skipped hc⟩
      rintro rfl
      obtain ⟨cs, hcs⟩ := List.head?_eq_some_iff.mp hc
      exact hpipe ⟨cs, hcs⟩
    obtain ⟨hnot, hrest⟩ := h.opPipe_notFound (parser.skipBlanks p) hhead
    exact .inr ⟨hnot, hrest.trans hskip, fun cs hcs => hpipe ⟨cs, hcs⟩⟩

/-- One round of the loop of `parse_pipeline`: the command is pushed, and the next one is read from the
text `cs` behind the operator, or from where the operator is missing. -/
theorem parsePipelineLoop_round (h : Documented parser rest) (p : P) {fuel : Nat}
    (hfuel : (rest p).length < fuel) (result : Pipeline) (command : Scommand) :
    ∃ anotherPipe cs p',
      parsePipelineLoop parser (fuel + 1) result (some command) true false p =
        parsePipelineLoop parser fuel { result with scmds := result.scmds ++ [command] }
          (commandOf? (leadingArgs (lineTokens cs)).1) anotherPipe
          (commandOf? (leadingArgs (lineTokens cs)).1).isNone p' ∧
      (anotherPipe = true ∧ skipped (rest p) = '|' :: cs ∨
        anotherPipe = false ∧ cs = skipped (rest p) ∧ ∀ ds, skipped (rest p) ≠ '|' :: ds) ∧
      Consumes (rest p) cs ∧ Consumes cs (rest p') ∧
      (Stops (leadingArgs (lineTokens cs)).2 →
        lineTokens (rest p') = (leadingArgs (lineTokens cs)).2 ∧
          ((leadingArgs (lineTokens cs)).1 = [] → skipped (rest p') = skipped cs)) := by
  have hconsumes : Consumes (rest p) (rest (parser.opPipe (parser.skipBlanks p)).2) := by
    refine .trans ?_ (h.opPipe_consumes _)
    rw [h.skipBlanks]
    exact Consumes.skipped _
  obtain ⟨p', hrun, hcons, hstops⟩ :=
    parseScommand_run h (parser.opPipe (parser.skipBlanks p)).2
      (Nat.lt_of_le_of_lt hconsumes.length_le hfuel)
  refine ⟨(parser.opPipe (parser.skipBlanks p)).1, rest (parser.opPipe (parser.skipBlanks p)).2, p', ?_,
    opPipe_cases h p, hconsumes, hcons, hstops⟩
  have hpush : pipelinePushBack (P := P) result (some command) p =
      .ok { result with scmds := result.scmds ++ [command] } p := rfl
  have hskip : (modify parser.skipBlanks : ParseM P PUnit) p = .ok ⟨⟩ (parser.skipBlanks p) := rfl
  have hpipe := call_run parser.opPipe (parser.skipBlanks p)
  rw [parsePipelineLoop, if_pos (by simp), Cmd.bind_ok hpush, Cmd.bind_ok hskip, Cmd.bind_ok hpipe,
    Cmd.bind_ok hrun]

/-- The loop ends where the command before was not followed by `|`, or behind an error. -/
theorem parsePipelineLoop_done {fuel : Nat} (hfuel : 0 < fuel) (result : Pipeline) (cmd : Option Scommand)
    {anotherPipe error : Bool} (hdone : anotherPipe = true → error = true) (p : P) :
    parsePipelineLoop parser fuel result cmd anotherPipe error p = .ok result p := by
  obtain ⟨fuel, rfl⟩ := Nat.exists_eq_succ_of_ne_zero (Nat.pos_iff_ne_zero.mp hfuel)
  rw [parsePipelineLoop, if_neg (fun hgo => absurd (hdone hgo.1) hgo.2)]
  rfl

/-- The loop of `parse_pipeline` ends on every line, and no command is forgotten. -/
theorem parsePipelineLoop_returns (h : Documented parser rest) {fuel : Nat} (hfuel : 0 < fuel)
    (result : Pipeline) (cmd : Option Scommand) (anotherPipe : Bool) (p : P)
    (hlen : anotherPipe = true → (rest p).length + 1 < fuel) :
    ∃ result' p',
      parsePipelineLoop parser fuel result cmd anotherPipe cmd.isNone p = .ok result' p' ∧
      Consumes (rest p) (rest p') ∧
      (result'.scmds = [] ↔ result.scmds = [] ∧ (anotherPipe = true → cmd = none)) := by
  induction fuel generalizing result cmd anotherPipe p with
  | zero => cases hfuel
  | succ fuel ih =>
      by_cases hgo : anotherPipe = true ∧ cmd.isNone = false
      · obtain ⟨rfl, hcmd⟩ := hgo
        obtain ⟨command, rfl⟩ := Option.isSome_iff_exists.mp (by simpa using hcmd)
        have hlen' := hlen rfl
        obtain ⟨anotherPipe, cs, p₁, hround, hpipe, hcs, hcons, -⟩ :=
          parsePipelineLoop_round h p (Nat.lt_of_succ_lt_succ hlen') result command
        -- another pipe was consumed, so the text is shorter
        have hshorter : anotherPipe = true → (rest p₁).length + 1 < fuel := by
          rintro rfl
          rcases hpipe with ⟨-, hpipe⟩ | ⟨hfalse, -⟩
          · have h1 := length_skipped_le (rest p)
            have h2 := hcons.length_le
            rw [hpipe, List.length_cons] at h1
            omega
          · cases hfalse
        obtain ⟨result', p', hrun, hcons', hempty⟩ :=
          ih (by omega) { result with scmds := result.scmds ++ [command] } _ anotherPipe p₁ hshorter
        refine ⟨result', p', hround.trans hrun, hcs.trans (hcons.trans hcons'), ?_⟩
        rw [hempty]
        simp
      · refine ⟨result, p, parsePipelineLoop_done hfuel result cmd (fun ha => ?_) p, .refl _, ?_⟩
        · exact Bool.not_eq_false _ ▸ fun hc => hgo ⟨ha, hc⟩
        · refine ⟨fun hnil => ⟨hnil, fun ha => ?_⟩, And.left⟩
          by_contra hcmd
          exact hgo ⟨ha, Option.isNone_eq_false_iff.mpr (Option.isSome_iff_ne_none.mpr hcmd)⟩

/-- Arguments with a word among them make a command. -/
theorem commandOf?_of_isNormal {args : List Arg} (h : ∃ a ∈ args, a.IsNormal) :
    commandOf? args = some (scommandOf args) := by
  refine if_neg ?_
  push Not
  exact h

/-- On the tokens of a pipeline the loop pushes its commands, and stops at the operator `&` or at the end
of the line. -/
theorem parsePipelineLoop_run (h : Documented parser rest) (later : List (List Arg))
    (hnormal : ∀ as ∈ later, ∃ a ∈ as, a.IsNormal) (bg : Bool) {fuel : Nat} (p : P)
    (hfuel : (rest p).length + 1 < fuel) (result : Pipeline) (command : Scommand)
    (hline : lineTokens (rest p) = (later.flatMap fun as => .pipe :: as.flatMap Arg.tokens) ++
      (if bg then [.background] else [])) :
    ∃ p', parsePipelineLoop parser fuel result (some command) true false p =
        .ok { result with scmds := result.scmds ++ command :: later.map scommandOf } p' ∧
      Consumes (rest p) (rest p') ∧ rest p' = skipped (rest p') ∧
      lineTokens (rest p') = if bg then [.background] else [] := by
  induction later generalizing fuel p result command with
  | nil =>
      obtain ⟨fuel, rfl⟩ : ∃ n, fuel = n + 1 := ⟨fuel - 1, by omega⟩
      obtain ⟨anotherPipe, cs, p₁, hround, hpipe, hcs, hcons, hstops⟩ :=
        parsePipelineLoop_round h p (Nat.lt_of_succ_lt_succ hfuel) result command
      rw [List.flatMap_nil, List.nil_append] at hline
      have hstop : Stops (lineTokens (rest p)) := by
        rw [hline]
        exact stops_later [] bg
      -- there is no operator, so the text read from is the one after the blanks
      have hsame : anotherPipe = false ∧ cs = skipped (rest p) := by
        rcases hpipe with ⟨-, hpipe⟩ | ⟨hfalse, hcs, -⟩
        swap
        · exact ⟨hfalse, hcs⟩
        rw [← lineTokens_skipped, hpipe, lineTokens_cons (by decide) (by decide)] at hline
        cases bg <;> simp [symbol] at hline
      obtain ⟨rfl, rfl⟩ := hsame
      rw [lineTokens_skipped, leadingArgs_of_stops hstop] at hstops hround
      obtain ⟨htoks, hskip⟩ := hstops hstop
      have hrest : rest p₁ = skipped (rest p) := by
        refine hcons.eq_of_length_le ?_
        rw [← skipped_skipped (rest p), ← hskip rfl]
        exact length_skipped_le _
      refine ⟨p₁, ?_, hcs.trans hcons, ?_, htoks.trans hline⟩
      · rw [hround]
        exact parsePipelineLoop_done (by omega) _ _ (fun hf => by cases hf) p₁
      · rw [hrest, skipped_skipped]
  | cons as later ih =>
      obtain ⟨fuel, rfl⟩ : ∃ n, fuel = n + 1 := ⟨fuel - 1, by omega⟩
      obtain ⟨anotherPipe, cs, p₁, hround, hpipe, hcs, hcons, hstops⟩ :=
        parsePipelineLoop_round h p (Nat.lt_of_succ_lt_succ hfuel) result command
      rw [List.flatMap_cons, List.cons_append, List.cons_append, List.append_assoc] at hline
      obtain ⟨ds, hds, htoks⟩ := skipped_of_operator (.inl rfl) (hline.trans (List.singleton_append).symm)
      -- the operator is there, and the next command is behind it
      have hnext : anotherPipe = true ∧ cs = ds := by
        rcases hpipe with ⟨htrue, hpipe⟩ | ⟨-, -, hne⟩
        · exact ⟨htrue, (List.cons.inj (hpipe.symm.trans hds)).2⟩
        · exact absurd hds (hne ds)
      obtain ⟨rfl, rfl⟩ := hnext
      have hstop := stops_later later bg
      have hargs := leadingArgs_append as hstop
      rw [← htoks] at hargs
      rw [hargs] at hstops hround
      rw [commandOf?_of_isNormal (hnormal as List.mem_cons_self)] at hround
      have hshorter := length_skipped_le (rest p)
      have hle := hcons.length_le
      rw [hds, List.length_cons] at hshorter
      have hlen : (rest p₁).length + 1 < fuel := by omega
      obtain ⟨p', hrun, hcons', hskip, hrest⟩ :=
        ih (fun bs hbs => hnormal bs (List.mem_cons_of_mem as hbs)) p₁ hlen
          { result with scmds := result.scmds ++ [command] } (scommandOf as) (hstops hstop).1
      refine ⟨p', ?_, hcs.trans (hcons.trans hcons'), hskip, hrest⟩
      rw [hround]
      simpa using hrun

/-- The end of `parse_pipeline`, after its first command. -/
theorem parsePipeline_of_loop (h : Documented parser rest) {fuel : Nat} {p p₁ p₂ : P} {result : Pipeline}
    (heof : parser.atEof p = false) {cmd : Option Scommand}
    (hcmd : parseScommand parser fuel (parser.skipBlanks p) = .ok cmd p₁)
    (hloop : parsePipelineLoop parser fuel pipelineNew cmd true cmd.isNone p₁ = .ok result p₂)
    (hcons : Consumes (rest (parser.skipBlanks p)) (rest p₁)) (hcons' : Consumes (rest p₁) (rest p₂)) :
    ∃ p', parsePipeline parser fuel p =
        .ok (if result.scmds = [] then none else some ⟨result.scmds, !(parser.opBackground p₂).1⟩) p' ∧
      rest p' = afterLine (rest p) := by
  refine ⟨(parser.garbage (parser.opBackground p₂).2).2, ?_, ?_⟩
  · have hskip : (modify parser.skipBlanks : ParseM P PUnit) p = .ok ⟨⟩ (parser.skipBlanks p) := rfl
    have hbg := call_run parser.opBackground p₂
    have hgarbage := call_run parser.garbage (parser.opBackground p₂).2
    rw [parsePipeline, Cmd.get_bind, heof, if_neg (by simp), Cmd.bind_ok hskip, Cmd.bind_ok hcmd,
      Cmd.bind_ok hloop, Cmd.bind_ok hbg, Cmd.bind_ok hgarbage]
    by_cases hnil : result.scmds = []
    · rw [if_pos hnil, if_pos (by simp [pipelineIsEmpty, pipelineSetWait, pipelineLength, hnil])]
      rfl
    · rw [if_neg hnil, if_neg (by simpa [pipelineIsEmpty, pipelineSetWait, pipelineLength] using hnil)]
      rfl
  · -- nothing before the garbage reads a newline
    have hall : Consumes (rest p) (rest (parser.opBackground p₂).2) := by
      refine .trans ?_ (hcons.trans (hcons'.trans (h.opBackground_consumes p₂)))
      rw [h.skipBlanks]
      exact Consumes.skipped _
    rw [h.garbage, hall.afterLine_eq]

/-- `parse_pipeline` returns on every line and reads all of it; it returns a pipeline just when the line
starts with a command. -/
theorem parsePipeline_returns (h : Documented parser rest) (heof : parser.atEof p = false) {fuel : Nat}
    (hfuel : (rest p).length + 1 < fuel) :
    ∃ result p', parsePipeline parser fuel p = .ok result p' ∧ rest p' = afterLine (rest p) ∧
      (result = none ↔ ∀ a ∈ (leadingArgs (lineTokens (rest p))).1, ¬ a.IsNormal) := by
  have hle : (rest (parser.skipBlanks p)).length ≤ (rest p).length := by
    rw [h.skipBlanks]
    exact length_skipped_le _
  have hlt : (rest (parser.skipBlanks p)).length < fuel := by omega
  obtain ⟨p₁, hcmd, hcons, -⟩ := parseScommand_run h (parser.skipBlanks p) hlt
  rw [h.skipBlanks, lineTokens_skipped] at hcmd
  have hle' := hcons.length_le
  have hlt' : (rest p₁).length + 1 < fuel := by omega
  obtain ⟨result, p₂, hloop, hcons', hempty⟩ :=
    parsePipelineLoop_returns h (Nat.lt_of_le_of_lt (Nat.zero_le _) hlt') pipelineNew
      (commandOf? (leadingArgs (lineTokens (rest p))).1) true p₁ (fun _ => hlt')
  obtain ⟨p', hrun, hrest⟩ := parsePipeline_of_loop h heof hcmd hloop hcons hcons'
  refine ⟨_, p', hrun, hrest, ?_⟩
  have hnone : commandOf? (leadingArgs (lineTokens (rest p))).1 = none ↔
      ∀ a ∈ (leadingArgs (lineTokens (rest p))).1, ¬ a.IsNormal := by
    unfold commandOf?
    split_ifs with hno
    · exact iff_of_true rfl hno
    · exact iff_of_false (by simp) hno
  rw [← hnone, ite_eq_left_iff]
  simpa [pipelineNew] using hempty

/-- On a line that stands for a pipeline, `parse_pipeline` returns it. -/
theorem parsePipeline_of_denotes (h : Documented parser rest) (heof : parser.atEof p = false) {fuel : Nat}
    (hfuel : (rest p).length + 1 < fuel) (hline : Denotes (lineTokens (rest p)) q) :
    ∃ p', parsePipeline parser fuel p = .ok (some q) p' ∧ rest p' = afterLine (rest p) := by
  obtain ⟨args, later, bg, hnormal, htoks, rfl⟩ := hline
  rw [List.append_assoc] at htoks
  have hstop := stops_later later bg
  have hargs := leadingArgs_append args hstop
  rw [← htoks] at hargs
  have hle : (rest (parser.skipBlanks p)).length ≤ (rest p).length := by
    rw [h.skipBlanks]
    exact length_skipped_le _
  have hlt : (rest (parser.skipBlanks p)).length < fuel := by omega
  obtain ⟨p₁, hcmd, hcons, hstops⟩ := parseScommand_run h (parser.skipBlanks p) hlt
  rw [h.skipBlanks, lineTokens_skipped, hargs] at hcmd hstops
  rw [commandOf?_of_isNormal (hnormal args List.mem_cons_self)] at hcmd
  have hle' := hcons.length_le
  have hlt' : (rest p₁).length + 1 < fuel := by omega
  obtain ⟨p₂, hloop, hcons', hskip, hrest⟩ :=
    parsePipelineLoop_run h later (fun as has => hnormal as (List.mem_cons_of_mem args has)) bg
      p₁ hlt' pipelineNew (scommandOf args) (hstops hstop).1
  obtain ⟨p', hrun, hafter⟩ := parsePipeline_of_loop h heof hcmd hloop hcons hcons'
  have hbg : (parser.opBackground p₂).1 = bg := by
    cases bg with
    | true =>
        have hop : lineTokens (rest p₂) = symbol '&' ++ [] := hrest
        obtain ⟨ds, hds, -⟩ := skipped_of_operator (.inr rfl) hop
        exact (h.opBackground_found p₂ ds (hskip.trans hds)).1
    | false =>
        refine (h.opBackground_notFound p₂ ?_).1
        rw [hskip]
        refine head_skipped_ne (.inr rfl) fun toks htoks => ?_
        rw [hrest] at htoks
        cases htoks
  refine ⟨p', ?_, hafter⟩
  rw [hrun, hbg, if_neg (by simp)]
  rfl

end Pipeline

/-! ## A parser of texts -/

/-- The word at the beginning of a text, as an argument of a kind. -/
def firstWord (kind : ArgKind) (cs : List Char) : Option (String × ArgKind) × List Char :=
  let word := cs.takeWhile fun c => IsWordChar c
  (if word = [] then none else some (String.ofList word, kind), cs.dropWhile fun c => IsWordChar c)

/-- Read the operator behind the blanks, if it is there. -/
def readOperator (op : Char) (cs : List Char) : Bool × List Char :=
  if (skipped cs).head? = some op then (true, (skipped cs).tail) else (false, cs)

/-- The parser of `parser.h` on a text. -/
def textParser : Parser (List Char) where
  nextArgument cs :=
    if (skipped cs).head? = some '<' then firstWord .argInput (skipped (skipped cs).tail)
    else if (skipped cs).head? = some '>' then firstWord .argOutput (skipped (skipped cs).tail)
    else firstWord .argNormal (skipped cs)
  opBackground := readOperator '&'
  skipBlanks := skipped
  opPipe := readOperator '|'
  garbage cs := (skipped (lineOf cs) ≠ [], afterLine cs)
  atEof cs := cs.isEmpty

section TextParser

variable {op : Char} {kind : ArgKind} {cs ds word : List Char}

/-- Reading a word consumes a prefix of the text. -/
theorem firstWord_consumes (kind : ArgKind) (cs : List Char) : Consumes cs (firstWord kind cs).2 := by
  refine ⟨cs.takeWhile fun c => IsWordChar c, List.takeWhile_append_dropWhile.symm, fun hn => ?_⟩
  have := List.all_eq_true.mp List.all_takeWhile _ hn
  exact absurd this (by decide)

/-- A word is read up to the first character that cannot be in it. -/
theorem firstWord_word (kind : ArgKind) (hne : word ≠ []) (hw : ∀ c ∈ word, IsWordChar c)
    (hds : ∀ c ∈ ds.head?, ¬ IsWordChar c) :
    firstWord kind (word ++ ds) = (some (String.ofList word, kind), ds) := by
  have hpos : ∀ c ∈ word, decide (IsWordChar c) = true := fun c hc => decide_eq_true (hw c hc)
  have htake : (word ++ ds).takeWhile (fun c => IsWordChar c) = word := by
    rw [List.takeWhile_append_of_pos hpos]
    cases ds with
    | nil => simp
    | cons d ds => simp [hds d rfl]
  have hdrop : (word ++ ds).dropWhile (fun c => IsWordChar c) = ds := by
    rw [List.dropWhile_append_of_pos hpos]
    cases ds with
    | nil => rfl
    | cons d ds => simp [hds d rfl]
  unfold firstWord
  rw [htake, hdrop]
  simp [hne]

/-- No word is read where none begins. -/
theorem firstWord_noWord (kind : ArgKind) (hcs : ∀ c ∈ cs.head?, ¬ IsWordChar c) :
    firstWord kind cs = (none, cs) := by
  unfold firstWord
  cases cs with
  | nil => rfl
  | cons c cs => simp [hcs c rfl]

/-- Looking for an operator consumes blanks, and the operator if it is there. -/
theorem readOperator_consumes (hop : op ≠ '\n') (cs : List Char) : Consumes cs (readOperator op cs).2 := by
  unfold readOperator
  split_ifs with h
  · obtain ⟨ds, hds⟩ := List.head?_eq_some_iff.mp h
    refine .trans (.skipped cs) ⟨[op], ?_, by simpa using hop.symm⟩
    rw [hds]
    rfl
  · exact .refl cs

/-- An operator at once is found. -/
theorem readOperator_found (hop : ¬ IsBlank op) (cs : List Char) : readOperator op (op :: cs) = (true, cs) := by
  unfold readOperator
  rw [skipped_cons, if_neg hop]
  simp

/-- An operator that is not there is not found, and the text stays. -/
theorem readOperator_notFound (h : ∀ c ∈ cs.head?, c ≠ op ∧ ¬ IsBlank c) :
    readOperator op cs = (false, cs) := by
  unfold readOperator
  cases cs with
  | nil => rfl
  | cons c cs =>
      obtain ⟨hne, hblank⟩ := h c rfl
      rw [skipped_cons, if_neg hblank]
      simp [hne]

/-- The next argument of the reference parser by the character that it begins with. -/
theorem textParser_nextArgument (cs : List Char) :
    textParser.nextArgument cs =
      if (skipped cs).head? = some '<' then firstWord .argInput (skipped (skipped cs).tail)
      else if (skipped cs).head? = some '>' then firstWord .argOutput (skipped (skipped cs).tail)
      else firstWord .argNormal (skipped cs) := rfl

/-- The reference parser does what `parser.h` says. -/
theorem textParser_documented : Documented textParser id where
  skipBlanks _ := rfl
  garbage _ := rfl
  atEof _ := List.isEmpty_iff.mp
  nextArgument_consumes p := by
    have hpast : ∀ c, c ≠ '\n' → (skipped p).head? = some c →
        Consumes p (skipped (skipped p).tail) := by
      intro c hn hc
      obtain ⟨ds, hds⟩ := List.head?_eq_some_iff.mp hc
      refine (Consumes.skipped p).trans (.trans ⟨[c], ?_, by simpa using hn.symm⟩ (.skipped _))
      rw [hds]
      rfl
    rw [id, id, textParser_nextArgument]
    split_ifs with hin hout
    · exact (hpast '<' (by decide) hin).trans (firstWord_consumes _ _)
    · exact (hpast '>' (by decide) hout).trans (firstWord_consumes _ _)
    · exact (Consumes.skipped p).trans (firstWord_consumes _ _)
  opPipe_consumes := readOperator_consumes (by decide)
  opBackground_consumes := readOperator_consumes (by decide)
  nextArgument_word p word cs hfront hne hw hcs := by
    obtain ⟨a, as, rfl⟩ := List.exists_cons_of_ne_nil hne
    have ha := hw a List.mem_cons_self
    -- A character of a word is no redirection sign.
    have hin : a ≠ '<' := by
      rintro rfl
      exact absurd ha (by decide)
    have hout : a ≠ '>' := by
      rintro rfl
      exact absurd ha (by decide)
    have hrun : textParser.nextArgument p = (some (String.ofList (a :: as), .argNormal), cs) := by
      rw [id] at hfront
      rw [textParser_nextArgument, hfront, if_neg (by simpa using hin), if_neg (by simpa using hout),
        firstWord_word _ hne hw hcs]
    rw [hrun]
    exact ⟨rfl, rfl⟩
  nextArgument_redirection p symbol cs word ds hsymbol hfront hname hne hw hds := by
    have hrun : textParser.nextArgument p =
        (some (String.ofList word, if symbol = '<' then .argInput else .argOutput), ds) := by
      rw [id] at hfront
      rw [textParser_nextArgument, hfront]
      rcases hsymbol with rfl | rfl
      · rw [List.head?_cons, if_pos rfl, List.tail_cons, hname, firstWord_word _ hne hw hds]
        rfl
      · rw [List.head?_cons, if_neg (by simp), if_pos rfl, List.tail_cons, hname, firstWord_word _ hne hw hds]
        rfl
    rw [hrun]
    exact ⟨rfl, rfl⟩
  nextArgument_noName p symbol cs hsymbol hfront hname := by
    rw [id] at hfront
    rw [textParser_nextArgument, hfront]
    rcases hsymbol with rfl | rfl
    · rw [List.head?_cons, if_pos rfl, List.tail_cons, firstWord_noWord _ hname]
    · rw [List.head?_cons, if_neg (by simp), if_pos rfl, List.tail_cons, firstWord_noWord _ hname]
  nextArgument_stop p hstop := by
    have hrun : textParser.nextArgument p = (none, skipped p) := by
      -- At a stop the parser stays where it is.
      have hhead : ∀ c, (skipped p).head? = some c → ¬ IsWordChar c ∧ c ≠ '<' ∧ c ≠ '>' := by
        intro c hc
        rcases hstop c hc with rfl | rfl | rfl <;> decide
      rw [textParser_nextArgument, if_neg (fun hc => (hhead '<' hc).2.1 rfl),
        if_neg (fun hc => (hhead '>' hc).2.2 rfl), firstWord_noWord _ fun c hc => (hhead c hc).1]
    rw [hrun]
    exact ⟨rfl, skipped_skipped p⟩
  opPipe_found p cs hp := by
    have hblank : ¬ IsBlank '|' := by decide
    have hrun : textParser.opPipe ('|' :: cs) = (true, cs) := readOperator_found hblank cs
    have hp' : p = '|' :: cs := hp
    rw [hp', hrun]
    exact ⟨rfl, rfl⟩
  opPipe_notFound p hp := by
    have hrun : textParser.opPipe p = (false, p) := readOperator_notFound hp
    rw [hrun]
    exact ⟨rfl, rfl⟩
  opBackground_found p cs hp := by
    have hblank : ¬ IsBlank '&' := by decide
    have hrun : textParser.opBackground ('&' :: cs) = (true, cs) := readOperator_found hblank cs
    have hp' : p = '&' :: cs := hp
    rw [hp', hrun]
    exact ⟨rfl, rfl⟩
  opBackground_notFound p hp := by
    have hrun : textParser.opBackground p = (false, p) := readOperator_notFound hp
    rw [hrun]
    exact ⟨rfl, rfl⟩

end TextParser

/-! ## The lines that are parsed right -/

section Lines

variable {P : Type}

/-- `parse_pipeline` returns the pipeline the line stands for, or nothing when it
stands for none, and in both cases leaves the parser behind the line. -/
def ParsesLine (parser : Parser P) (rest : P → List Char) (p : P) : Prop :=
  ∃ enough, ∀ fuel ≥ enough, ∃ result p', parsePipeline parser fuel p = .ok result p' ∧
    rest p' = afterLine (rest p) ∧ ∀ q, result = some q ↔ Denotes (lineTokens (rest p)) q

/-- A line is parsed right when it stands for a pipeline, and when there is no word before its first
operator or misplaced symbol. On all others the commands before the mistake are returned as if they were
the line. -/
theorem parsePipeline_parsesLine_iff {parser : Parser P} {rest : P → List Char}
    (h : Documented parser rest) {p : P} (heof : parser.atEof p = false) :
    ParsesLine parser rest p ↔
      (∃ q, Denotes (lineTokens (rest p)) q) ∨
        ∀ a ∈ (leadingArgs (lineTokens (rest p))).1, ¬ a.IsNormal := by
  constructor
  · rintro ⟨enough, hall⟩
    obtain ⟨result, p', hrun, -, hdenotes⟩ := hall _ (Nat.le_max_left enough ((rest p).length + 2))
    have hfuel : (rest p).length + 1 < max enough ((rest p).length + 2) := by omega
    obtain ⟨result', p'', hrun', -, hnone⟩ := parsePipeline_returns h heof hfuel
    rw [hrun] at hrun'
    injection hrun' with hresult _
    cases result with
    | none => exact .inr (hnone.mp hresult.symm)
    | some q => exact .inl ⟨q, (hdenotes q).mp rfl⟩
  · rintro hgood
    refine ⟨(rest p).length + 2, fun fuel hfuel => ?_⟩
    have hlt : (rest p).length + 1 < fuel := hfuel
    obtain ⟨result, p', hrun, hafter, hnone⟩ := parsePipeline_returns h heof hlt
    refine ⟨result, p', hrun, hafter, fun q => ⟨?_, fun hq => ?_⟩⟩
    · rintro rfl
      rcases hgood with ⟨q', hq'⟩ | hno
      · obtain ⟨p'', hrun', -⟩ := parsePipeline_of_denotes h heof hlt hq'
        rw [hrun] at hrun'
        injection hrun' with hsame _
        cases hsame
        exact hq'
      · exact absurd (hnone.mpr hno) (by simp)
    · obtain ⟨p'', hrun', -⟩ := parsePipeline_of_denotes h heof hlt hq
      rw [hrun] at hrun'
      injection hrun'

/-- The line `ls | wc`. -/
theorem parsePipeline_parsesLine_iff_text :
    ParsesLine textParser id "ls | wc\n".toList ↔
      (∃ q, Denotes (lineTokens "ls | wc\n".toList) q) ∨
        ∀ a ∈ (leadingArgs (lineTokens "ls | wc\n".toList)).1, ¬ a.IsNormal :=
  parsePipeline_parsesLine_iff textParser_documented rfl

/-- The pipe of the line `ls |` has no command behind it, and `ls` is returned. -/
theorem not_parsesLine_pipe :
    Documented textParser id ∧ textParser.atEof "ls |\n".toList = false ∧
      ¬ ParsesLine textParser id "ls |\n".toList := by
  refine ⟨textParser_documented, rfl, ?_⟩
  rintro ⟨enough, hall⟩
  obtain ⟨result, p', hrun, -, hdenotes⟩ := hall _ (Nat.le_max_left enough 7)
  have hfuel : "ls |\n".toList.length + 1 < max enough 7 := Nat.le_max_right enough 7
  obtain ⟨result', p'', hrun', -, hnone⟩ := parsePipeline_returns textParser_documented (p := "ls |\n".toList) rfl hfuel
  have htoks : lineTokens "ls |\n".toList = [.word "ls", .pipe] := by decide
  rw [id, htoks] at hnone hdenotes
  rw [hrun] at hrun'
  injection hrun' with hresult _
  subst hresult
  cases result with
  | none => exact absurd (hnone.mp rfl (.normal "ls") (by decide)) (by decide)
  | some q =>
      have hpipe : (leadingArgs [.word "ls", .pipe]).2 = .pipe :: [] := rfl
      obtain ⟨a, ha, -⟩ := ((hdenotes q).mp rfl).exists_isNormal_of_pipe hpipe
      cases ha

end Lines

end OsLabs.Shell
