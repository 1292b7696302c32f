import OsLabs.Shell.Command

/-! # The grammar of command lines

A line is a sequence of tokens: words, the symbols of the redirections and the two operators
(`tokens`). `Denotes toks q` says that the tokens are those of commands separated by pipes, each with a
word, perhaps followed by the background operator, and that `q` is the pipeline they stand for. -/

namespace OsLabs.Shell

/-! ## Tokens -/

/-- A space or a tabulator. -/
def IsBlank (c : Char) : Prop := c = ' ' ∨ c = '\t'

instance (c : Char) : Decidable (IsBlank c) := inferInstanceAs (Decidable (_ ∨ _))

/-- The characters of words: all but blanks, newlines and the characters of operators. -/
def IsWordChar (c : Char) : Prop := c ∉ [' ', '\t', '\n', '|', '&', '<', '>']

instance (c : Char) : Decidable (IsWordChar c) := inferInstanceAs (Decidable (¬ _))

/-- A token of a line. -/
inductive Token
  | word (text : String)
  | input
  | output
  | pipe
  | background
  deriving DecidableEq, Repr

/-- The token of a character that is not part of a word. -/
def symbol (c : Char) : List Token :=
  if c = '<' then [.input]
  else if c = '>' then [.output]
  else if c = '|' then [.pipe]
  else if c = '&' then [.background]
  else []

/-- The word that ends here, if one has begun. -/
def wordOf (text : List Char) : List Token := if text = [] then [] else [.word (String.ofList text)]

/-- The tokens of a text, with the beginning of a word read before it. -/
def tokensFrom : List Char → List Char → List Token
  | text, [] => wordOf text
  | text, c :: cs =>
      if IsWordChar c then tokensFrom (text ++ [c]) cs else wordOf text ++ symbol c ++ tokensFrom [] cs

/-- The tokens of a text: words are as long as possible. -/
def tokens (cs : List Char) : List Token := tokensFrom [] cs

/-! ## Arguments and pipelines -/

/-- What `parser_next_argument` can find: a word, or a redirection with the name of its file. -/
inductive Arg
  | normal (text : String)
  | input (text : String)
  | output (text : String)
  deriving DecidableEq, Repr

/-- The arguments that are words. -/
def Arg.IsNormal : Arg → Prop
  | .normal _ => True
  | _ => False

instance (arg : Arg) : Decidable arg.IsNormal :=
  match arg with
  | .normal _ => isTrue trivial
  | .input _ => isFalse id
  | .output _ => isFalse id

/-- The tokens of an argument. -/
def Arg.tokens : Arg → List Token
  | .normal text => [.word text]
  | .input text => [.input, .word text]
  | .output text => [.output, .word text]

/-- Add an argument to a command: the last redirection of a kind counts. -/
def Scommand.add (command : Scommand) : Arg → Scommand
  | .normal text => { command with cmdArgs := command.cmdArgs ++ [text] }
  | .input text => { command with redirIn := some text }
  | .output text => { command with redirOut := some text }

/-- The command of a list of arguments. -/
def scommandOf (args : List Arg) : Scommand := args.foldl Scommand.add ⟨[], none, none⟩

/-- The tokens stand for the pipeline. -/
def Denotes (toks : List Token) (q : Pipeline) : Prop :=
  ∃ (args : List Arg) (later : List (List Arg)) (bg : Bool),
    (∀ as ∈ args :: later, ∃ a ∈ as, a.IsNormal) ∧
    toks = args.flatMap Arg.tokens ++ (later.flatMap fun as => .pipe :: as.flatMap Arg.tokens) ++
      (if bg then [.background] else []) ∧
    q = ⟨(args :: later).map scommandOf, !bg⟩

/-- The arguments at the beginning of some tokens, and the tokens after them. -/
def leadingArgs : List Token → List Arg × List Token
  | .word text :: toks => ((leadingArgs toks).1.cons (.normal text), (leadingArgs toks).2)
  | .input :: .word text :: toks => ((leadingArgs toks).1.cons (.input text), (leadingArgs toks).2)
  | .output :: .word text :: toks => ((leadingArgs toks).1.cons (.output text), (leadingArgs toks).2)
  | toks => ([], toks)

/-! ## Reading tokens -/

section Tokens

variable {c : Char} {cs text word : List Char} {toks : List Token}

/-- Word characters go on the word that is being read. -/
theorem tokensFrom_word (hw : ∀ c ∈ word, IsWordChar c) (text cs : List Char) :
    tokensFrom text (word ++ cs) = tokensFrom (text ++ word) cs := by
  induction word generalizing text with
  | nil => rw [List.nil_append, List.append_nil]
  | cons c word ih =>
      rw [List.cons_append, tokensFrom, if_pos (hw c List.mem_cons_self),
        ih (fun d hd => hw d (List.mem_cons_of_mem c hd)), List.append_assoc, List.singleton_append]

/-- A character that is not part of a word. -/
theorem tokens_cons (h : ¬ IsWordChar c) (cs : List Char) : tokens (c :: cs) = symbol c ++ tokens cs := by
  rw [tokens, tokensFrom, if_neg h]
  rfl

/-- A word, up to a character that is not part of it. -/
theorem tokens_word (hne : word ≠ []) (hw : ∀ c ∈ word, IsWordChar c)
    (hcs : ∀ c ∈ cs.head?, ¬ IsWordChar c) :
    tokens (word ++ cs) = .word (String.ofList word) :: tokens cs := by
  have hword : wordOf word = [.word (String.ofList word)] := if_neg hne
  rw [tokens, tokensFrom_word hw, List.nil_append]
  cases cs with
  | nil =>
      rw [tokensFrom, hword]
      rfl
  | cons c cs =>
      have hc : ¬ IsWordChar c := hcs c rfl
      rw [tokensFrom, if_neg hc, hword, tokens_cons hc]
      rfl

/-- A blank is no word character. -/
theorem not_isWordChar_of_isBlank (h : IsBlank c) : ¬ IsWordChar c := by
  rintro hc
  rcases h with rfl | rfl <;> exact absurd hc (by decide)

end Tokens

/-! ## Leading arguments -/

section LeadingArgs

variable {toks : List Token} {args : List Arg} {later : List (List Arg)} {q : Pipeline}

/-- The tokens at which no argument begins or is begun. -/
def Stops (toks : List Token) : Prop := toks.head? ∈ [none, some Token.pipe, some Token.background]

/-- No arguments lead what begins with something else. -/
theorem leadingArgs_of_stops (h : Stops toks) : leadingArgs toks = ([], toks) := by
  unfold Stops at h
  cases toks with
  | nil => rfl
  | cons t toks => cases t <;> simp at h <;> rfl

/-- A redirection without a name is no argument. -/
theorem leadingArgs_noName {t : Token} (ht : t = .input ∨ t = .output)
    (h : ∀ text toks', toks ≠ .word text :: toks') : leadingArgs (t :: toks) = ([], t :: toks) := by
  cases toks with
  | nil => rcases ht with rfl | rfl <;> rfl
  | cons u toks =>
      cases u with
      | word text => exact absurd rfl (h text toks)
      | input => rcases ht with rfl | rfl <;> rfl
      | output => rcases ht with rfl | rfl <;> rfl
      | pipe => rcases ht with rfl | rfl <;> rfl
      | background => rcases ht with rfl | rfl <;> rfl

/-- Arguments in front are read off, up to what stops them. -/
theorem leadingArgs_append (args : List Arg) (h : Stops toks) :
    leadingArgs (args.flatMap Arg.tokens ++ toks) = (args, toks) := by
  induction args with
  | nil => exact leadingArgs_of_stops h
  | cons a args ih =>
      rw [List.flatMap_cons, List.append_assoc]
      cases a <;> simp only [Arg.tokens, List.cons_append, List.nil_append, leadingArgs, ih]

/-- What follows a command stops its arguments. -/
theorem stops_later (later : List (List Arg)) (bg : Bool) :
    Stops ((later.flatMap fun as => .pipe :: as.flatMap Arg.tokens) ++
      (if bg then [.background] else [])) := by
  cases later with
  | nil => cases bg <;> simp [Stops]
  | cons as later => simp [Stops]

/-- And so has the command behind the first pipe. -/
theorem Denotes.exists_isNormal_of_pipe {toks' : List Token} (h : Denotes toks q)
    (hpipe : (leadingArgs toks).2 = .pipe :: toks') : ∃ a ∈ (leadingArgs toks').1, a.IsNormal := by
  obtain ⟨args, later, bg, hnormal, rfl, -⟩ := h
  rw [List.append_assoc, leadingArgs_append args (stops_later later bg)] at hpipe
  cases later with
  | nil => cases bg <;> simp at hpipe
  | cons as later =>
      simp only [List.flatMap_cons, List.cons_append, List.append_assoc, List.cons.injEq, true_and] at hpipe
      rw [← hpipe, leadingArgs_append as (stops_later later bg)]
      exact hnormal as (List.mem_cons_of_mem args List.mem_cons_self)

end LeadingArgs

end OsLabs.Shell
