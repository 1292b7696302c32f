import Mathlib.Data.List.TakeWhile
import OsLabs.Shell.Waiting
import OsLabs.Shell.Parsing

/-! # The shell's main loop (`mybash.c`)

`main` shows a prompt, parses a line and runs what was parsed, until the parser is at the end of its
file. `mainLoop_lines`: whatever the text, the shell does for its lines, in their order, what
`execute_pipeline` does for one pipeline each (`runAll`): for a line that stands for a pipeline this
pipeline, for a line without a command at its beginning none (`Reads`). No line is skipped or run
twice, and the loop only ends with the text or with the shell. -/

namespace OsLabs.Shell

open Cmd

/-! ## The functions of `mybash.c` -/

/-- Why `main` does not go on: parsing or the process was stopped. -/
inductive MainStop
  | parsing (stop : ParseStop)
  | process (stop : Stop)
  deriving DecidableEq, Repr

/-- Commands with a parser and a process. -/
abbrev MainM (P : Type) := EStateM MainStop (P × Process)

section Main

variable {P α : Type}

/-- Run a command of the parser. -/
def parsing (m : ParseM P α) : MainM P α := fun s =>
  match m s.1 with
  | .ok a p => .ok a (p, s.2)
  | .error e p => .error (.parsing e) (p, s.2)

/-- Run a command of the process. -/
def running (m : ShellM α) : MainM P α := fun s =>
  match m s.2 with
  | .ok a t => .ok a (s.1, t)
  | .error e t => .error (.process e) (s.1, t)

/-- `show_prompt`; `getcwd` fails when the buffer is too small for the path and its end. -/
def showPrompt : ShellM Unit := do
  let s ← get
  Cmd.when (s.cwd.utf8ByteSize + 1 ≤ 1024) (say (.printf (s.cwd ++ "> ")))

variable (parser : Parser P) (env : Env)

/-- The loop of `main`. -/
def mainLoop : Nat → Bool → MainM P Unit
  | 0, _ => throw (.parsing .diverges)
  | fuel + 1, quit =>
      if quit then pure ()
      else do
        running showPrompt
        let pipe ← parsing (parsePipeline parser fuel)
        let quit := parser.atEof (← get).1
        match pipe with
        | none => mainLoop fuel quit
        | some pipe => do
            running (executePipeline env pipe)
            mainLoop fuel quit

end Main

/-! ## What the shell does for its lines -/

/-- Run what was parsed: a prompt for each line, and its pipeline if there is one. -/
def runAll (env : Env) : List (Option Pipeline) → ShellM Unit
  | [] => pure ()
  | none :: results => do
      showPrompt
      runAll env results
  | some pipe :: results => do
      showPrompt
      executePipeline env pipe
      runAll env results

/-- What is parsed of the tokens of a line: the pipeline they stand for; nothing, just when there is no
word before the first operator or misplaced symbol; and otherwise a pipeline that starts with the
command before it. -/
structure Parsed (toks : List Token) (result : Option Pipeline) : Prop where
  denotes : ∀ q, Denotes toks q → result = some q
  empty : result = none ↔ ∀ a ∈ (leadingArgs toks).1, ¬ a.IsNormal
  first : ∀ q, result = some q → q.scmds.head? = some (scommandOf (leadingArgs toks).1)

/-- What is parsed of the lines of a text, one after the other. An empty line at the end of the text
may be left out. -/
def Reads (text : List Char) (results : List (Option Pipeline)) : Prop :=
  ∃ lines, (text.splitOn '\n' = lines ∨ text.splitOn '\n' = lines ++ [[]]) ∧
    List.Forall₂ (fun line result => Parsed (tokens line) result) lines results

/-- What the process of `main` comes to; `none` if parsing stops it. -/
def processResult {P : Type} :
    EStateM.Result MainStop (P × Process) Unit → Option (EStateM.Result Stop Process Unit)
  | .ok _ s => some (.ok ⟨⟩ s.2)
  | .error (.process e) s => some (.error e s.2)
  | .error (.parsing _) _ => none

/-! ## Lines -/

section Lines

variable {cs : List Char}

/-- The first line, when there is no other. -/
theorem lineOf_eq_self (h : '\n' ∉ cs) : lineOf cs = cs := by
  unfold lineOf
  refine List.takeWhile_eq_self_iff.mpr ?_
  intro c hc
  have hne : c ≠ '\n' := fun heq => h (heq ▸ hc)
  simpa using hne

/-- A text with a newline is its first line and what is behind it. -/
theorem lineOf_append_afterLine (h : '\n' ∈ cs) : cs = lineOf cs ++ '\n' :: afterLine cs := by
  induction cs with
  | nil => cases h
  | cons c cs ih =>
      by_cases hc : c = '\n'
      · subst hc
        rfl
      · have hmem : '\n' ∈ cs := (List.mem_cons.mp h).resolve_left (Ne.symm hc)
        unfold lineOf afterLine at ih ⊢
        rw [List.takeWhile_cons_of_pos (by simpa using hc), List.dropWhile_cons_of_pos (by simpa using hc),
          List.cons_append, ← ih hmem]

/-- The text of a line has no newline. -/
theorem newline_not_mem_lineOf (cs : List Char) : '\n' ∉ lineOf cs := by
  intro h
  have := List.all_eq_true.mp List.all_takeWhile _ h
  exact absurd this (by decide)

/-- The lines of a text with a newline. -/
theorem splitOn_of_mem (h : '\n' ∈ cs) :
    cs.splitOn '\n' = lineOf cs :: (afterLine cs).splitOn '\n' := by
  nth_rewrite 1 [lineOf_append_afterLine h]
  exact List.splitOn_append_cons_self_of_not_mem (newline_not_mem_lineOf cs) _

/-- Behind a newline the text is shorter. -/
theorem length_afterLine_lt (h : '\n' ∈ cs) : (afterLine cs).length < cs.length := by
  have hlen := congrArg List.length (lineOf_append_afterLine h)
  rw [List.length_append, List.length_cons] at hlen
  omega

end Lines

/-! ## What is parsed of a line -/

section Parse

variable {P : Type} {parser : Parser P} {rest : P → List Char} {p p' : P} {fuel : Nat}

/-- The loop of `parse_pipeline` keeps the commands it was given, and pushes the first one it has. -/
theorem parsePipelineLoop_keeps {result result' : Pipeline} {cmd : Option Scommand}
    {anotherPipe error : Bool}
    (hrun : parsePipelineLoop parser fuel result cmd anotherPipe error p = .ok result' p') :
    result.scmds <+: result'.scmds ∧
      (anotherPipe = true → error = false → ∀ c, cmd = some c → result.scmds ++ [c] <+: result'.scmds) := by
  induction fuel generalizing result cmd anotherPipe error p with
  | zero => cases hrun
  | succ fuel ih =>
      unfold parsePipelineLoop at hrun
      split_ifs at hrun with hgo
      · cases cmd with
        | none => cases hrun
        | some c =>
            obtain ⟨pushed, p₁, hpush, hrun⟩ := bind_eq_ok.mp hrun
            cases hpush
            obtain ⟨⟨⟩, p₂, -, hrun⟩ := bind_eq_ok.mp hrun
            obtain ⟨another, p₃, -, hrun⟩ := bind_eq_ok.mp hrun
            obtain ⟨cmd', p₄, -, hrun⟩ := bind_eq_ok.mp hrun
            have hprefix := (ih hrun).1
            refine ⟨(List.prefix_append _ _).trans hprefix, fun _ _ c' hc' => ?_⟩
            cases hc'
            exact hprefix
      · cases hrun
        exact ⟨List.prefix_rfl, fun hanother herror => absurd ⟨hanother, by simp [herror]⟩ hgo⟩

/-- The parts of a call of `parse_pipeline`. -/
theorem parsePipeline_parts {result : Option Pipeline}
    (hrun : parsePipeline parser fuel p = .ok result p') :
    ∃ cmd p₁ pipeline p₂ wait, parseScommand parser fuel (parser.skipBlanks p) = .ok cmd p₁ ∧
      parsePipelineLoop parser fuel pipelineNew cmd true cmd.isNone p₁ = .ok pipeline p₂ ∧
      p' = (parser.garbage (parser.opBackground p₂).2).2 ∧
      ∀ q, result = some q → q = ⟨pipeline.scmds, wait⟩ := by
  unfold parsePipeline at hrun
  rw [get_bind] at hrun
  split_ifs at hrun
  · cases hrun
  · obtain ⟨⟨⟩, p₀, hskip, hrun⟩ := bind_eq_ok.mp hrun
    cases hskip
    obtain ⟨cmd, p₁, hcmd, hrun⟩ := bind_eq_ok.mp hrun
    obtain ⟨pipeline, p₂, hloop, hrun⟩ := bind_eq_ok.mp hrun
    obtain ⟨bg, p₃, hbg, hrun⟩ := bind_eq_ok.mp hrun
    cases hbg
    obtain ⟨garbage, p₄, hgarbage, hrun⟩ := bind_eq_ok.mp hrun
    cases hgarbage
    refine ⟨cmd, p₁, pipeline, p₂, !(parser.opBackground p₂).1, hcmd, hloop, ?_⟩
    rw [ite_run] at hrun
    split_ifs at hrun
    · cases hrun
      exact ⟨rfl, fun q hq => by cases hq⟩
    · cases hrun
      exact ⟨rfl, fun q hq => (Option.some.inj hq).symm⟩

/-- `parse_pipeline` reads one line, up to the garbage that ends it. -/
theorem parsePipeline_reads (h : Documented parser rest) (heof : parser.atEof p = false)
    (hfuel : (rest p).length + 1 < fuel) :
    ∃ result p₀, parsePipeline parser fuel p = .ok result (parser.garbage p₀).2 ∧
      Consumes (rest p) (rest p₀) ∧ Parsed (lineTokens (rest p)) result := by
  obtain ⟨result, p', hrun, -, hempty⟩ := parsePipeline_returns h heof hfuel
  obtain ⟨cmd, p₁, pipeline, p₂, wait, hcmd, hloop, rfl, hresult⟩ := parsePipeline_parts hrun
  have hskipped : Consumes (rest p) (rest (parser.skipBlanks p)) := by
    rw [h.skipBlanks]
    exact Consumes.skipped _
  have hle := hskipped.length_le
  have hlt : (rest (parser.skipBlanks p)).length < fuel := by omega
  -- the first command is the one at the beginning of the line
  obtain ⟨p₁', hcmd', hcons, -⟩ := parseScommand_run h (parser.skipBlanks p) hlt
  rw [hcmd] at hcmd'
  injection hcmd' with hfirst hsame
  subst hsame
  rw [h.skipBlanks, lineTokens_skipped] at hfirst
  have hle' := hcons.length_le
  have hpos : 0 < fuel := by omega
  obtain ⟨pipeline', p₂', hloop', hcons', -⟩ :=
    parsePipelineLoop_returns h hpos pipelineNew cmd true p₁ fun _ => by omega
  rw [hloop] at hloop'
  injection hloop' with _ hsame
  subst hsame
  refine ⟨result, (parser.opBackground p₂).2, hrun, ?_, fun q hq => ?_, hempty, fun q hq => ?_⟩
  · exact hskipped.trans (hcons.trans (hcons'.trans (h.opBackground_consumes p₂)))
  · obtain ⟨p'', hrun', -⟩ := parsePipeline_of_denotes h heof hfuel hq
    rw [hrun] at hrun'
    injection hrun'
  · have hnormal : ¬ ∀ a ∈ (leadingArgs (lineTokens (rest p))).1, ¬ a.IsNormal := by
      rw [← hempty, hq]
      simp
    have hsome : cmd = some (scommandOf (leadingArgs (lineTokens (rest p))).1) :=
      hfirst.trans (if_neg hnormal)
    obtain ⟨later, hlater⟩ := (parsePipelineLoop_keeps hloop).2 rfl (by rw [hsome]; rfl) _ hsome
    rw [hresult q hq, ← hlater]
    rfl

end Parse

/-! ## The loop -/

section Loop

variable {P : Type} {parser : Parser P} {rest : P → List Char} {env : Env} {p p' : P} {fuel : Nat}

/-- A prompt is always shown. -/
theorem showPrompt_returns (s : Process) : ∃ t, showPrompt s = .ok ⟨⟩ t := by
  unfold showPrompt
  rw [get_bind]
  by_cases h : s.cwd.utf8ByteSize + 1 ≤ 1024
  · rw [when_pos h]
    exact ⟨_, rfl⟩
  · rw [when_neg h]
    exact ⟨s, rfl⟩

/-- One round of the loop, when the rest of the loop does for the process what `runAll` does. -/
theorem mainLoop_round {result : Option Pipeline} {results : List (Option Pipeline)}
    (hparse : parsePipeline parser fuel p = .ok result p')
    (hrest : ∀ s, processResult (mainLoop parser env fuel (parser.atEof p') (p', s)) =
      some (runAll env results s)) (s : Process) :
    processResult (mainLoop parser env (fuel + 1) false (p, s)) =
      some (runAll env (result :: results) s) := by
  obtain ⟨t, ht⟩ := showPrompt_returns s
  have hprompt : (running showPrompt : MainM P Unit) (p, s) = .ok ⟨⟩ (p, t) := by
    simp [running, ht]
  have hparsing : parsing (parsePipeline parser fuel) (p, t) = .ok result (p', t) := by
    simp [parsing, hparse]
  rw [mainLoop, if_neg (by simp), bind_ok hprompt, bind_ok hparsing, get_bind]
  cases result with
  | none =>
      rw [runAll, bind_ok ht]
      exact hrest t
  | some pipe =>
      rw [runAll, bind_ok ht]
      cases hexec : executePipeline env pipe t with
      | ok x u =>
          have hrunning : (running (executePipeline env pipe) : MainM P Unit) (p', t) = .ok ⟨⟩ (p', u) := by
            simp [running, hexec]
          rw [bind_ok hexec]
          dsimp only
          rw [bind_ok hrunning]
          exact hrest u
      | error e u =>
          have hrunning : (running (executePipeline env pipe) : MainM P Unit) (p', t) =
              .error (.process e) (p', u) := by
            simp [running, hexec]
          rw [bind_error hexec]
          dsimp only
          rw [bind_error hrunning]
          rfl

/-- **The shell runs the lines of its input.** For every parser that keeps to its description and is at
the end of its file when there is no newline left to read, every text and every environment, `main`
does for the process what is parsed of the lines of the text, one after the other. -/
theorem mainLoop_lines (h : Documented parser rest)
    (hend : ∀ p, '\n' ∉ rest p → parser.atEof (parser.garbage p).2 = true) (env : Env) {p : P}
    (heof : parser.atEof p = false) {fuel : Nat} (hfuel : (rest p).length + 2 < fuel) :
    ∃ results, Reads (rest p) results ∧
      ∀ s, processResult (mainLoop parser env fuel false (p, s)) = some (runAll env results s) := by
  -- by induction on the rounds: each one that goes on has read a newline
  induction fuel generalizing p with
  | zero => omega
  | succ fuel ih =>
      have hlt : (rest p).length + 1 < fuel := by omega
      obtain ⟨result, p₀, hparse, hcons, hparsed⟩ := parsePipeline_reads h heof hlt
      have hafter : rest (parser.garbage p₀).2 = afterLine (rest p) := by
        rw [h.garbage, hcons.afterLine_eq]
      have hlast : 0 < fuel := by omega
      cases hquit : parser.atEof (parser.garbage p₀).2 with
      | true =>
          refine ⟨[result], ?_, fun s => mainLoop_round hparse (fun t => ?_) s⟩
          · have hnil := h.atEof _ hquit
            rw [hafter] at hnil
            by_cases hnew : '\n' ∈ rest p
            · refine ⟨[lineOf (rest p)], .inr ?_, .cons hparsed .nil⟩
              rw [splitOn_of_mem hnew, hnil]
              rfl
            · refine ⟨[rest p], .inl (List.splitOn_eq_singleton hnew), .cons ?_ .nil⟩
              rwa [lineTokens, lineOf_eq_self hnew] at hparsed
          · rw [hquit]
            obtain ⟨n, rfl⟩ := Nat.exists_eq_succ_of_ne_zero (Nat.pos_iff_ne_zero.mp hlast)
            rfl
      | false =>
          have hnew : '\n' ∈ rest p := by
            by_contra hno
            obtain ⟨used, hused, -⟩ := hcons
            have hno₀ : '\n' ∉ rest p₀ := fun hmem => hno (hused ▸ List.mem_append_right used hmem)
            rw [hend p₀ hno₀] at hquit
            cases hquit
          have hlt := length_afterLine_lt hnew
          obtain ⟨results, ⟨lines, hlines, hall⟩, hrun⟩ := ih hquit (by rw [hafter]; omega)
          refine ⟨result :: results, ⟨lineOf (rest p) :: lines, ?_, .cons hparsed hall⟩, fun s =>
            mainLoop_round hparse (fun t => ?_) s⟩
          · rw [hafter] at hlines
            rw [splitOn_of_mem hnew]
            exact hlines.imp (congrArg _) (congrArg _)
          · rw [hquit]
            exact hrun t

/-- A parser of a text without a newline is at its end after reading its garbage. -/
theorem textParser_atEof_garbage (cs : List Char) (h : '\n' ∉ id cs) :
    textParser.atEof (textParser.garbage cs).2 = true := by
  have hnil : cs.dropWhile (fun c => c ≠ '\n') = [] := by
    refine List.dropWhile_eq_nil_iff.mpr fun c hc => ?_
    have hne : c ≠ '\n' := fun heq => h (heq ▸ hc)
    simpa using hne
  show (afterLine cs).isEmpty = true
  unfold afterLine
  rw [hnil]
  rfl

/-- Three lines, the last one without a newline. -/
theorem mainLoop_lines_text :
    ∃ results, Reads "cd /\n| ls\nls | wc &".toList results ∧
      ∀ s, processResult (mainLoop textParser (slowEnv 1) 30 false ("cd /\n| ls\nls | wc &".toList, s)) =
        some (runAll (slowEnv 1) results s) :=
  mainLoop_lines textParser_documented textParser_atEof_garbage (slowEnv 1) rfl (by decide)

end Loop

end OsLabs.Shell
