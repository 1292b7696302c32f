import OsLabs.Shell.Waiting

/-! # The descriptors of a pipeline

Which descriptors the children of a pipeline reach `execvp` with, and which ones the shell is left
with. The parent closes the read end it carried only in the last round, so with three commands or
more an older read end stays open in the shell and in later children (`noLeak_iff`); and a child moves
the pipe onto its standard input after its input redirection, so the redirection of a command that
is not the first is lost (`wired_iff`). -/

namespace OsLabs.Shell

open Cmd

/-! ## Entries of the tables -/

/-- Everywhere but at the standard descriptor, moving a descriptor closes it. -/
theorem entry_movedFds_ne {std : Nat} (fd : Option Nat) (t : FdTable OpenFile) {k : Nat} (h : k ≠ std) :
    (movedFds std fd t).entry k = if fd = some k then none else t.entry k := by
  cases fd with
  | none => rfl
  | some fd =>
      show ((t.dup2 fd std).close fd).entry k = _
      rw [FdTable.entry_close, FdTable.entry_dup2_ne t fd h]
      by_cases hk : k = fd
      · rw [if_pos hk, hk, if_pos rfl]
      · rw [if_neg hk, if_neg fun h => hk (Option.some.inj h).symm]

/-- The standard descriptor refers to what the moved one did. -/
theorem entry_movedFds_self {std fd : Nat} {t : FdTable OpenFile} {v : OpenFile}
    (h : t.entry fd = some v) (hne : std ≠ fd) : (movedFds std (some fd) t).entry std = some v := by
  show ((t.dup2 fd std).close fd).entry std = _
  rw [FdTable.entry_close_ne _ hne, FdTable.entry_dup2_self t std h]

/-- A redirection opens its file in one descriptor and leaves the others alone. -/
theorem entry_redirFds (t : FdTable OpenFile) (access : Access) (redir : Option String) (k : Nat) :
    (redirFds t access redir).entry k =
      if redirFd t redir = some k then redir.map (.file · access) else t.entry k := by
  cases redir with
  | none => rfl
  | some name =>
      show (t.openFile _).entry k = _
      rw [FdTable.entry_openFile]
      by_cases hk : k = t.lowestFree
      · rw [if_pos hk, hk]
        exact (if_pos rfl).symm
      · rw [if_neg hk]
        exact (if_neg fun h => hk (Option.some.inj h).symm).symm

/-- Where a redirection is, nothing was open. -/
theorem entry_of_redirFd {t : FdTable OpenFile} {redir : Option String} {k : Nat}
    (h : redirFd t redir = some k) : t.entry k = none := by
  cases redir with
  | none => cases h
  | some name =>
      cases h
      exact t.entry_lowestFree

/-- The descriptor is an end of the pipe. -/
def IsEnd (pipefd : Option (Nat × Nat)) (fd : Nat) : Prop :=
  fd ∈ pipefd.map Prod.fst ∨ fd ∈ pipefd.map Prod.snd

instance (pipefd : Option (Nat × Nat)) (fd : Nat) : Decidable (IsEnd pipefd fd) :=
  inferInstanceAs (Decidable (_ ∨ _))

/-- The ends of a pipe. -/
theorem isEnd_some (readEnd writeEnd fd : Nat) :
    IsEnd (some (readEnd, writeEnd)) fd ↔ fd = readEnd ∨ fd = writeEnd :=
  or_congr ⟨fun h => (Option.some.inj h).symm, fun h => congrArg some h.symm⟩
    ⟨fun h => (Option.some.inj h).symm, fun h => congrArg some h.symm⟩

/-- Without a pipe there are no ends. -/
theorem not_isEnd_none (fd : Nat) : ¬ IsEnd none fd := by
  rintro (h | h) <;> cases h

/-- Beside the standard output, the pipe of a child closes its ends. -/
theorem entry_pipedFds_ne (pipefd : Option (Nat × Nat)) (t : FdTable OpenFile) {k : Nat}
    (h : k ≠ stdoutFileno) :
    (pipedFds pipefd t).entry k = if IsEnd pipefd k then none else t.entry k := by
  rcases pipefd with _ | ⟨readEnd, writeEnd⟩
  · rw [if_neg (not_isEnd_none k)]
    rfl
  · show (movedFds stdoutFileno (some writeEnd) (t.close readEnd)).entry k = _
    rw [entry_movedFds_ne _ _ h, FdTable.entry_close, if_congr (isEnd_some _ _ _) rfl rfl]
    by_cases hw : k = writeEnd
    · rw [if_pos (congrArg some hw.symm), if_pos (.inr hw)]
    · rw [if_neg fun h => hw (Option.some.inj h).symm]
      by_cases hr : k = readEnd
      · rw [if_pos hr, if_pos (.inl hr)]
      · rw [if_neg hr, if_neg (not_or.mpr ⟨hr, hw⟩)]

/-- Away from the standard input and output, a child has what it was forked with, without the ends of
its pipe and the read end it was given. -/
theorem entry_childFds (redirIn redirOut : Option String) (pipefd : Option (Nat × Nat))
    (fdIn : Option Nat) (t : FdTable OpenFile) {k : Nat} (h0 : k ≠ stdinFileno) (h1 : k ≠ stdoutFileno) :
    (childFds redirIn redirOut pipefd fdIn t).entry k =
      if fdIn = some k ∨ IsEnd pipefd k then none else t.entry k := by
  unfold childFds
  dsimp only
  rw [entry_movedFds_ne _ _ h0, entry_movedFds_ne _ _ h0, entry_movedFds_ne _ _ h1,
    entry_pipedFds_ne _ _ h1, entry_redirFds, entry_redirFds]
  by_cases hin : redirFd t redirIn = some k
  · rw [if_pos hin, entry_of_redirFd hin]
    simp
  · rw [if_neg hin, if_neg hin]
    by_cases hout : redirFd (redirFds t .read redirIn) redirOut = some k
    · have hclosed := entry_of_redirFd hout
      rw [entry_redirFds, if_neg hin] at hclosed
      rw [if_pos hout, hclosed]
      simp
    · rw [if_neg hout, if_neg hout]
      by_cases hfd : fdIn = some k
      · rw [if_pos hfd, if_pos (.inl hfd)]
      · rw [if_neg hfd, if_congr (or_iff_right hfd) rfl rfl]

/-! ## The parent -/

/-- `pipe` opens the two lowest free descriptors. -/
theorem entry_openPipe (t : FdTable OpenFile) (n k : Nat) :
    (openPipe t n).entry k = if k = pipeWriteEnd t n then some (.pipeWrite n)
      else if k = t.lowestFree then some (.pipeRead n) else t.entry k := rfl

/-- The ends of a pipe are two descriptors. -/
theorem pipeWriteEnd_ne (t : FdTable OpenFile) (n : Nat) : t.lowestFree ≠ pipeWriteEnd t n :=
  FdTable.ne_lowestFree (by rw [FdTable.entry_openFile_self]; simp)

/-- Where the write end is, nothing was open. -/
theorem entry_pipeWriteEnd (t : FdTable OpenFile) (n : Nat) : t.entry (pipeWriteEnd t n) = none := by
  rw [← FdTable.entry_openFile_ne t (.pipeRead n) (pipeWriteEnd_ne t n).symm]
  exact FdTable.entry_lowestFree _

/-- The parent keeps what it had and the read end. -/
theorem entry_parentFds (t : FdTable OpenFile) (n k : Nat) :
    (parentFds t n).entry k = if k = t.lowestFree then some (.pipeRead n) else t.entry k := by
  show ((openPipe t n).close (pipeWriteEnd t n)).entry k = _
  rw [FdTable.entry_close, entry_openPipe]
  by_cases hk : k = pipeWriteEnd t n
  · rw [if_pos hk, hk, if_neg (pipeWriteEnd_ne t n).symm, entry_pipeWriteEnd]
  · rw [if_neg hk, if_neg hk]

/-- The parent keeps what was open. -/
theorem entry_parentFds_of_open {t : FdTable OpenFile} (n : Nat) {k : Nat} (h : t.entry k ≠ none) :
    (parentFds t n).entry k = t.entry k := by
  rw [entry_parentFds, if_neg (FdTable.ne_lowestFree h)]

/-- A descriptor that is open and is not the one carried to the next round stays open for good. -/
theorem entry_pipelineFds_of_open {scmds : List Scommand} {fdIn : Option Nat} {t : FdTable OpenFile}
    {n a : Nat} (hopen : t.entry a ≠ none) (hne : fdIn ≠ some a) :
    (pipelineFds scmds fdIn t n).entry a ≠ none := by
  induction scmds generalizing fdIn t n with
  | nil => exact hopen
  | cons scmd scmds ih =>
      cases scmds with
      | nil =>
          cases fdIn with
          | none => exact hopen
          | some fd =>
              show (t.close fd).entry a ≠ none
              rw [FdTable.entry_close_ne _ fun h => hne (congrArg some h.symm)]
              exact hopen
      | cons scmd' scmds =>
          show (pipelineFds (scmd' :: scmds) (some t.lowestFree) (parentFds t n) (n + 1)).entry a ≠ none
          refine ih ?_ ?_
          · rw [entry_parentFds_of_open n hopen]
            exact hopen
          · exact fun h => FdTable.ne_lowestFree hopen (Option.some.inj h).symm

/-! ## Runs of a pipeline -/

/-- Waiting keeps the descriptors and what the children do. -/
def KeepsFds (s t : Process) : Prop := t.fds = s.fds ∧ t.outcomes = s.outcomes

instance : Std.Refl KeepsFds := ⟨fun _ => ⟨rfl, rfl⟩⟩

instance : IsTrans Process KeepsFds := ⟨fun _ _ _ h h' => ⟨h'.1.trans h.1, h'.2.trans h.2⟩⟩

/-- `wait` keeps the descriptors. -/
theorem within_wait (env : Env) : Within KeepsFds (wait env) := by
  intro s
  have htick : KeepsFds s (s.tick env) := ⟨rfl, Process.outcomes_tick env s⟩
  rcases wait_cases env s with ⟨-, hrun⟩ | ⟨pid, c, -, -, hrun⟩ | ⟨-, -, hrun⟩
  · rw [hrun]
    exact htick
  · rw [hrun]
    exact ⟨rfl, (Process.outcomes_reap _ pid).trans htick.2⟩
  · rw [hrun]
    exact htick

/-- Waiting for several children keeps the descriptors. -/
theorem within_waitLoop (env : Env) (n : Nat) : Within KeepsFds (waitLoop env n) := by
  induction n with
  | zero => exact within_pure _
  | succ n ih =>
      have hsay (line : Line) : Within KeepsFds (say line) := fun _ => ⟨rfl, rfl⟩
      exact (within_wait env).bind fun r => (within_when fun _ => hsay _).bind fun _ => ih

/-- A pipeline that is neither empty nor a lone builtin is run by forking. -/
theorem forks_of_builtinAlone {p : Pipeline} {s : Process} (hne : p.scmds ≠ [])
    (hb : builtinAlone p s = .ok false s) : p.forks = true := by
  by_cases hends : p.endsShell = false
  · rw [builtinAlone_run hends hne] at hb
    simpa using hb
  · obtain ⟨scmds, wait⟩ := p
    rcases scmds with _ | ⟨⟨_ | ⟨word, args⟩, redirIn, redirOut⟩, _ | ⟨scmd', scmds⟩⟩
    · exact absurd rfl hne
    · cases hb
    · exact absurd rfl hends
    · obtain rfl : word = "exit" := eq_of_beq (eq_true_of_ne_false hends)
      cases hb
    · exact absurd rfl hends

section Pipelines

variable {env : Env} (henv : env.Succeeds) {p : Pipeline} {s : Process} (hne : p.scmds ≠ [])
  (hb : builtinAlone p s = .ok false s)
include henv hne hb

/-- The shell's descriptors after a pipeline, and what its children did. -/
theorem executePipeline_final :
    (final (executePipeline env p s)).fds = pipelineFds p.scmds none s.fds s.pipes ∧
      (final (executePipeline env p s)).outcomes =
        s.outcomes ++ pipelineOutcomes p.scmds none s.fds s.pipes := by
  rw [executePipeline_forks env (forks_of_builtinAlone hne hb)]
  obtain ⟨scmd, scmds, hscmds⟩ := List.exists_cons_of_ne_nil hne
  rw [hscmds]
  obtain ⟨u, hrun, hspawn⟩ := executeLoop_run henv p.wait scmd scmds none 0 s
  rw [hrun]
  have hkeeps : Within KeepsFds (Cmd.when (p.wait = true) (waitLoop env (0 + scmds.length + 1))) :=
    within_when fun _ => within_waitLoop env _
  exact ⟨(hkeeps u).1.trans hspawn.fds, (hkeeps u).2.trans hspawn.outcomes⟩

end Pipelines

/-! ## Leaks -/

/-- After a pipeline the shell has the descriptors it had, and its children reach `execvp` with those,
except for the standard input and output. -/
structure NoLeak (env : Env) (p : Pipeline) (s : Process) : Prop where
  parent : ∀ t, executePipeline env p s = .ok ⟨⟩ t →
    ∀ fd, (t.fds.entry fd).isSome = (s.fds.entry fd).isSome
  child : ∀ exec, Outcome.execvp exec ∈
      (final (executePipeline env p s)).outcomes.drop s.children.length →
    exec.fds.SameOutside s.fds

/-- The descriptors of the shell after two commands or fewer are those before. -/
theorem entry_pipelineFds_short {scmds : List Scommand} (hlen : scmds.length ≤ 2)
    (t : FdTable OpenFile) (n k : Nat) : (pipelineFds scmds none t n).entry k = t.entry k := by
  rcases scmds with _ | ⟨scmd, _ | ⟨scmd', _ | ⟨scmd'', scmds⟩⟩⟩
  · rfl
  · rfl
  · show ((parentFds t n).close t.lowestFree).entry k = _
    rw [FdTable.entry_close, entry_parentFds]
    by_cases hk : k = t.lowestFree
    · rw [if_pos hk, hk, FdTable.entry_lowestFree]
    · rw [if_neg hk, if_neg hk]
  · simp at hlen

/-- The children of two commands or fewer have, away from the standard input and output, what the
shell had. -/
theorem sameOutside_pipelineOutcomes {scmds : List Scommand} (hlen : scmds.length ≤ 2)
    {t : FdTable OpenFile} {n : Nat} {exec : Exec}
    (hmem : Outcome.execvp exec ∈ pipelineOutcomes scmds none t n) : exec.fds.SameOutside t := by
  intro k h0 h1
  rcases scmds with _ | ⟨scmd, _ | ⟨scmd', _ | ⟨scmd'', scmds⟩⟩⟩
  · cases hmem
  · cases List.mem_singleton.mp hmem
    rw [entry_childFds _ _ _ _ _ h0 h1, if_neg]
    rintro (h | h)
    · cases h
    · exact not_isEnd_none k h
  · rcases List.mem_cons.mp hmem with h | h
    · cases h
      rw [entry_childFds _ _ _ _ _ h0 h1, if_congr (or_iff_right (by simp)) rfl rfl,
        if_congr (isEnd_some _ _ _) rfl rfl, entry_openPipe]
      by_cases hr : k = t.lowestFree
      · rw [if_pos (.inl hr), hr, FdTable.entry_lowestFree]
      · by_cases hw : k = pipeWriteEnd t n
        · rw [if_pos (.inr hw), hw, entry_pipeWriteEnd]
        · rw [if_neg (not_or.mpr ⟨hr, hw⟩), if_neg hw, if_neg hr]
    · cases List.mem_singleton.mp h
      rw [entry_childFds _ _ _ _ _ h0 h1, if_congr (or_iff_left (not_isEnd_none k)) rfl rfl,
        entry_parentFds]
      by_cases hr : k = t.lowestFree
      · rw [if_pos (congrArg some hr.symm), hr, FdTable.entry_lowestFree]
      · rw [if_neg fun h => hr (Option.some.inj h).symm, if_neg hr]
  · simp at hlen

/-- After three commands or more the read end of the first pipe is open in the shell. -/
theorem entry_pipelineFds_long {scmds : List Scommand} (hlen : 2 < scmds.length)
    (t : FdTable OpenFile) (n : Nat) : (pipelineFds scmds none t n).entry t.lowestFree ≠ none := by
  rcases scmds with _ | ⟨scmd, _ | ⟨scmd', _ | ⟨scmd'', scmds⟩⟩⟩
  · simp at hlen
  · simp at hlen
  · simp at hlen
  · have hopen : (parentFds t n).entry t.lowestFree ≠ none := by
      rw [entry_parentFds, if_pos rfl]
      simp
    show (pipelineFds (scmd'' :: scmds) (some (parentFds t n).lowestFree)
      (parentFds (parentFds t n) (n + 1)) (n + 2)).entry t.lowestFree ≠ none
    refine entry_pipelineFds_of_open ?_ fun h => FdTable.ne_lowestFree hopen (Option.some.inj h).symm
    rw [entry_parentFds_of_open (n + 1) hopen]
    exact hopen

/-- A longer pipeline leaks a descriptor when no child is slow. -/
theorem exists_leak {p : Pipeline} {s : Process} (hne : p.scmds ≠ [])
    (hb : builtinAlone p s = .ok false s) (hlen : 2 < p.scmds.length) :
    ∃ env : Env, env.Succeeds ∧ ¬ NoLeak env p s := by
  let slow := s.children.length + p.forkCount
  refine ⟨slowEnv slow, slowEnv_succeeds slow, fun h => ?_⟩
  have hends := Pipeline.endsShell_of_forks (forks_of_builtinAlone hne hb)
  obtain ⟨t, ht, -⟩ := executePipeline_slow slow hends (s := s) (.inl (Nat.le_refl _))
  have hfds := (executePipeline_final (slowEnv_succeeds slow) hne hb).1
  rw [ht, Cmd.final_ok] at hfds
  have hsame := h.parent t ht s.fds.lowestFree
  rw [hfds, FdTable.entry_lowestFree, Option.isSome_none, Option.isSome_eq_false_iff,
    Option.isNone_iff_eq_none] at hsame
  exact entry_pipelineFds_long hlen _ _ hsame

/-- When the system calls succeed, a pipeline leaks no descriptor just when it has at most two
commands. -/
theorem noLeak_iff {p : Pipeline} {s : Process} (hne : p.scmds ≠ [])
    (hb : builtinAlone p s = .ok false s) :
    (∀ env : Env, env.Succeeds → NoLeak env p s) ↔ p.scmds.length ≤ 2 := by
  constructor
  · intro h
    by_contra hlen
    obtain ⟨env, henv, hleak⟩ := exists_leak hne hb (Nat.lt_of_not_le hlen)
    exact hleak (h env henv)
  · intro hlen env henv
    obtain ⟨hfds, houtcomes⟩ := executePipeline_final henv hne hb
    refine ⟨fun t ht fd => ?_, fun exec hexec => ?_⟩
    · rw [ht, Cmd.final_ok] at hfds
      rw [hfds, entry_pipelineFds_short hlen]
    · rw [houtcomes, List.drop_left' (by rw [Process.outcomes, List.length_map])] at hexec
      exact sameOutside_pipelineOutcomes hlen hexec

/-- A shell with a terminal on its standard descriptors. -/
def atTerminal : Process :=
  .start ⟨fun fd => if fd < 3 then some (.inherited fd) else none, 3, fun _ h => if_neg (by omega)⟩ "/"

/-- `ls | wc` leaks nothing. -/
theorem noLeak_two_commands :
    NoLeak (slowEnv 0) ⟨[⟨["ls"], none, none⟩, ⟨["wc"], none, none⟩], true⟩ atTerminal :=
  (noLeak_iff (by decide) rfl).mpr (by decide) (slowEnv 0) (slowEnv_succeeds 0)

/-- `ls | sort | wc` leaks the read end of its first pipe. -/
theorem not_forall_noLeak :
    ¬ ∀ (env : Env) (p : Pipeline) (s : Process), env.Succeeds → p.scmds ≠ [] →
      builtinAlone p s = .ok false s → NoLeak env p s := by
  intro hall
  obtain ⟨env, henv, hleak⟩ := exists_leak (s := atTerminal)
    (p := ⟨[⟨["ls"], none, none⟩, ⟨["sort"], none, none⟩, ⟨["wc"], none, none⟩], true⟩)
    (by decide) rfl (by decide)
  exact hleak (hall env _ _ henv (by decide) rfl)

/-! ## The standard input and output of a child -/

/-- What a child's standard input refers to: the read end it was given, or else its redirection. -/
def childStdin (fdIn : Option Nat) (redirIn : Option String) (t : FdTable OpenFile) : Option OpenFile :=
  match fdIn with
  | some fd => t.entry fd
  | none =>
    match redirIn with
    | some name => some (.file name .read)
    | none => t.entry stdinFileno

/-- What a child's standard output refers to: its redirection, or else the write end of its pipe. -/
def childStdout (redirOut : Option String) (pipefd : Option (Nat × Nat)) (t : FdTable OpenFile) :
    Option OpenFile :=
  match redirOut with
  | some name => some (.file name .write)
  | none =>
    match pipefd with
    | some (_, writeEnd) => t.entry writeEnd
    | none => t.entry stdoutFileno

section Standard

variable {t : FdTable OpenFile} {k : Nat}

/-- Opening redirections keeps what is open. -/
theorem entry_redirFds_of_open (hopen : t.entry k ≠ none) (access : Access) (redir : Option String) :
    (redirFds t access redir).entry k = t.entry k := by
  rw [entry_redirFds, if_neg fun h => hopen (entry_of_redirFd h)]

/-- The ends of a pipe, if there is one, are open, distinct and not standard descriptors. -/
structure OpenEnds (t : FdTable OpenFile) (pipefd : Option (Nat × Nat)) : Prop where
  isOpen : ∀ fd, IsEnd pipefd fd → t.entry fd ≠ none ∧ fd ≠ stdinFileno ∧ fd ≠ stdoutFileno
  ne : ∀ readEnd writeEnd, pipefd = some (readEnd, writeEnd) → writeEnd ≠ readEnd

/-- A read end, if there is one, is open and neither a standard descriptor nor an end of the pipe. -/
def CarriedFd (t : FdTable OpenFile) (pipefd : Option (Nat × Nat)) (fdIn : Option Nat) : Prop :=
  ∀ fd, fdIn = some fd →
    t.entry fd ≠ none ∧ fd ≠ stdinFileno ∧ fd ≠ stdoutFileno ∧ ¬ IsEnd pipefd fd

variable {redirIn redirOut : Option String} {pipefd : Option (Nat × Nat)} {fdIn : Option Nat}
  (h0 : t.entry stdinFileno ≠ none) (h1 : t.entry stdoutFileno ≠ none) (hends : OpenEnds t pipefd)
  (hcarried : CarriedFd t pipefd fdIn)

variable (redirOut) in
/-- Before the standard input is touched, a descriptor that is open for good is as it was, unless the
standard output is put there. -/
theorem entry_beforeStdin (hopen : (redirFds t .read redirIn).entry k ≠ none) (hk : k ≠ stdoutFileno)
    (hend : ¬ IsEnd pipefd k) :
    (movedFds stdoutFileno (redirFd (redirFds t .read redirIn) redirOut)
      (pipedFds pipefd (redirFds (redirFds t .read redirIn) .write redirOut))).entry k =
      (redirFds t .read redirIn).entry k := by
  rw [entry_movedFds_ne _ _ hk, if_neg fun h => hopen (entry_of_redirFd h), entry_pipedFds_ne _ _ hk,
    if_neg hend, entry_redirFds_of_open hopen]

include h0 h1 hends hcarried

/-- A child's standard input is the read end it was given, or else its input redirection. -/
theorem entry_childFds_stdin :
    (childFds redirIn redirOut pipefd fdIn t).entry stdinFileno = childStdin fdIn redirIn t := by
  unfold childFds
  dsimp only
  cases fdIn with
  | some fd =>
      obtain ⟨hopen, hne0, hne1, hnotEnd⟩ := hcarried fd rfl
      have hopen' : (redirFds t .read redirIn).entry fd ≠ none := by
        rw [entry_redirFds_of_open hopen]
        exact hopen
      have hbefore := entry_beforeStdin redirOut hopen' hne1 hnotEnd
      cases hv : t.entry fd with
      | none => exact absurd hv hopen
      | some v =>
          refine (entry_movedFds_self (v := v) ?_ hne0.symm).trans hv.symm
          rw [entry_movedFds_ne _ _ hne0, if_neg fun h => hopen (entry_of_redirFd h), hbefore,
            entry_redirFds_of_open hopen, hv]
  | none =>
      cases redirIn with
      | some name =>
          have hne1 : t.lowestFree ≠ stdoutFileno := (FdTable.ne_lowestFree h1).symm
          have hne0 : t.lowestFree ≠ stdinFileno := (FdTable.ne_lowestFree h0).symm
          have hentry : (redirFds t .read (some name)).entry t.lowestFree = some (.file name .read) :=
            FdTable.entry_openFile_self t _
          have hnotEnd : ¬ IsEnd pipefd t.lowestFree := fun h => (hends.isOpen _ h).1 t.entry_lowestFree
          have hbefore := entry_beforeStdin redirOut
            (by rw [hentry]; simp) hne1 hnotEnd
          exact entry_movedFds_self (hbefore.trans hentry) hne0.symm
      | none =>
          exact entry_beforeStdin (t := t) redirOut
            (h0 : (redirFds t .read none).entry stdinFileno ≠ none) (by decide)
            fun h => (hends.isOpen _ h).2.1 rfl

omit h0 in
/-- A child's standard output is its output redirection, or else the write end of its pipe. -/
theorem entry_childFds_stdout :
    (childFds redirIn redirOut pipefd fdIn t).entry stdoutFileno = childStdout redirOut pipefd t := by
  have hopen1 : (redirFds t .read redirIn).entry stdoutFileno ≠ none := by
    rw [entry_redirFds_of_open h1]
    exact h1
  unfold childFds
  dsimp only
  rw [entry_movedFds_ne _ _ (by decide), if_neg fun h => (hcarried _ h).2.2.1 rfl,
    entry_movedFds_ne _ _ (by decide), if_neg fun h => h1 (entry_of_redirFd h)]
  cases redirOut with
  | some name =>
      let t₁ := redirFds t .read redirIn
      have hne1 : t₁.lowestFree ≠ stdoutFileno := (FdTable.ne_lowestFree hopen1).symm
      have hnotEnd : ¬ IsEnd pipefd t₁.lowestFree := fun h => by
        have hopen := (hends.isOpen _ h).1
        rw [← entry_redirFds_of_open hopen .read redirIn] at hopen
        exact hopen t₁.entry_lowestFree
      refine entry_movedFds_self ?_ hne1.symm
      rw [entry_pipedFds_ne _ _ hne1, if_neg hnotEnd]
      exact FdTable.entry_openFile_self t₁ _
  | none =>
      rcases pipefd with _ | ⟨readEnd, writeEnd⟩
      · exact entry_redirFds_of_open h1 _ _
      · obtain ⟨hopen, -, hne1⟩ := hends.isOpen writeEnd ((isEnd_some _ _ _).mpr (.inr rfl))
        cases hv : t.entry writeEnd with
        | none => exact absurd hv hopen
        | some v =>
            refine (entry_movedFds_self (v := v) ?_ hne1.symm).trans hv.symm
            rw [FdTable.entry_close_ne _ (hends.ne _ _ rfl)]
            exact (entry_redirFds_of_open hopen _ _).trans hv

end Standard

/-! ## Wiring -/

/-- What descriptor 0 of the `i`-th child should refer to. -/
def stdinOf (p : Pipeline) (s : Process) (i : Nat) : Option OpenFile :=
  match p.scmds[i]? with
  | some ⟨_, some name, _⟩ => some (.file name .read)
  | _ => if 0 < i then some (.pipeRead (s.pipes + (i - 1))) else s.fds.entry stdinFileno

/-- What descriptor 1 of the `i`-th child should refer to. -/
def stdoutOf (p : Pipeline) (s : Process) (i : Nat) : Option OpenFile :=
  match p.scmds[i]? with
  | some ⟨_, _, some name⟩ => some (.file name .write)
  | _ => if i + 1 < p.scmds.length then some (.pipeWrite (s.pipes + i))
      else s.fds.entry stdoutFileno

/-- Every child of the pipeline reaches `execvp` with the words of its command and with its standard
input and output connected. -/
def Wired (env : Env) (p : Pipeline) (s : Process) : Prop :=
  ∀ (i : Nat) (scmd : Scommand), p.scmds[i]? = some scmd →
    ∃ exec, (final (executePipeline env p s)).outcomes[s.children.length + i]? =
        some (.execvp exec) ∧
      exec.file = scmd.cmdArgs.head? ∧ exec.argv = scmd.cmdArgs ∧
      exec.fds.entry stdinFileno = stdinOf p s i ∧ exec.fds.entry stdoutFileno = stdoutOf p s i

/-- The ends of a new pipe are open, and they are new. -/
theorem openEnds_openPipe {t : FdTable OpenFile} (h0 : t.entry stdinFileno ≠ none)
    (h1 : t.entry stdoutFileno ≠ none) (n : Nat) :
    OpenEnds (openPipe t n) (some (t.lowestFree, pipeWriteEnd t n)) := by
  refine ⟨fun fd hfd => ?_, fun r w h => ?_⟩
  · rcases (isEnd_some _ _ _).mp hfd with rfl | rfl
    · refine ⟨?_, (FdTable.ne_lowestFree h0).symm, (FdTable.ne_lowestFree h1).symm⟩
      rw [entry_openPipe, if_neg (pipeWriteEnd_ne t n), if_pos rfl]
      simp
    · have hclosed := entry_pipeWriteEnd t n
      refine ⟨?_, ?_, ?_⟩
      · rw [entry_openPipe, if_pos rfl]
        simp
      · exact fun h => h0 (h ▸ hclosed)
      · exact fun h => h1 (h ▸ hclosed)
  · cases h
    exact (pipeWriteEnd_ne t n).symm

/-- `pipe` leaves what was open alone. -/
theorem entry_openPipe_of_open {t : FdTable OpenFile} {k : Nat} (n : Nat) (h : t.entry k ≠ none) :
    (openPipe t n).entry k = t.entry k := by
  rw [entry_openPipe, if_neg (fun hk : k = pipeWriteEnd t n => h (hk ▸ entry_pipeWriteEnd t n)),
    if_neg (FdTable.ne_lowestFree h)]

/-- The children of the commands left, in a round that was given the read end `fdIn`. -/
theorem pipelineOutcomes_getElem {scmds : List Scommand} {fdIn : Option Nat} {t : FdTable OpenFile}
    {n i : Nat} {scmd : Scommand} (h0 : t.entry stdinFileno ≠ none) (h1 : t.entry stdoutFileno ≠ none)
    (hfd : CarriedFd t none fdIn) (hi : scmds[i]? = some scmd) :
    ∃ exec, (pipelineOutcomes scmds fdIn t n)[i]? = some (.execvp exec) ∧
      exec.file = scmd.cmdArgs.head? ∧ exec.argv = scmd.cmdArgs ∧
      exec.fds.entry stdinFileno =
        (if 0 < i then some (.pipeRead (n + (i - 1)))
         else childStdin fdIn scmd.redirIn t) ∧
      exec.fds.entry stdoutFileno =
        match scmd.redirOut with
        | some name => some (.file name .write)
        | none => if i + 1 < scmds.length then some (.pipeWrite (n + i)) else t.entry stdoutFileno := by
  -- By induction over the commands; `fdIn` carries the read end that the command before left open.
  induction scmds generalizing fdIn t n i with
  | nil => cases hi
  | cons scmd₀ scmds ih =>
      cases scmds with
      | nil =>
          -- A single command has no pipe, so its child inherits the ends as they are.
          have hnoEnds : OpenEnds t none :=
            ⟨fun fd h => absurd h (not_isEnd_none fd), fun _ _ h => by cases h⟩
          obtain ⟨rfl, rfl⟩ : i = 0 ∧ scmd = scmd₀ := by
            cases i with
            | zero => exact ⟨rfl, (Option.some.inj hi).symm⟩
            | succ i => cases hi
          refine ⟨_, rfl, rfl, rfl, ?_, ?_⟩
          · rw [if_neg (Nat.lt_irrefl 0)]
            exact entry_childFds_stdin h0 h1 hnoEnds hfd
          · rw [entry_childFds_stdout h1 hnoEnds hfd]
            rfl
      | cons scmd₁ scmds =>
          cases i with
          | zero =>
              cases hi
              have h0' : (openPipe t n).entry stdinFileno ≠ none := by
                rwa [entry_openPipe_of_open n h0]
              have h1' : (openPipe t n).entry stdoutFileno ≠ none := by
                rwa [entry_openPipe_of_open n h1]
              have hends := openEnds_openPipe h0 h1 n
              -- The descriptor carried over is none of the ends of the new pipe.
              have hcarried : CarriedFd (openPipe t n) (some (t.lowestFree, pipeWriteEnd t n)) fdIn := by
                intro fd hfdIn
                obtain ⟨hopen, hne0, hne1, -⟩ := hfd fd hfdIn
                refine ⟨by rwa [entry_openPipe_of_open n hopen], hne0, hne1, fun h => ?_⟩
                rcases (isEnd_some _ _ _).mp h with rfl | rfl
                · exact hopen t.entry_lowestFree
                · exact hopen (entry_pipeWriteEnd t n)
              refine ⟨_, rfl, rfl, rfl, ?_, ?_⟩
              · rw [if_neg (Nat.lt_irrefl 0), entry_childFds_stdin h0' h1' hends hcarried]
                cases fdIn with
                | none =>
                    unfold childStdin
                    rw [entry_openPipe_of_open n h0]
                | some fd => exact entry_openPipe_of_open n (hfd fd rfl).1
              · rw [entry_childFds_stdout h1' hends hcarried]
                unfold childStdout
                dsimp only
                rw [entry_openPipe, if_pos rfl, if_pos (by simp)]
                rfl
          | succ i =>
              have hlow : (parentFds t n).entry t.lowestFree = some (.pipeRead n) := by
                rw [entry_parentFds, if_pos rfl]
              -- The parent keeps the read end at its lowest free descriptor for the next command.
              have hcarried : CarriedFd (parentFds t n) none (some t.lowestFree) := by
                rintro fd ⟨⟩
                refine ⟨by rw [hlow]; simp, (FdTable.ne_lowestFree h0).symm,
                  (FdTable.ne_lowestFree h1).symm, not_isEnd_none _⟩
              obtain ⟨exec, hexec, hfile, hargv, hin, hout⟩ :=
                ih (t := parentFds t n) (n := n + 1) (i := i) (by rwa [entry_parentFds_of_open n h0])
                  (by rwa [entry_parentFds_of_open n h1]) hcarried hi
              refine ⟨exec, hexec, hfile, hargv, ?_, ?_⟩
              · rw [hin, if_pos (Nat.succ_pos i)]
                by_cases hpos : 0 < i
                · rw [if_pos hpos]
                  congr 2
                  omega
                · obtain rfl : i = 0 := by omega
                  exact hlow
              · rw [hout, entry_parentFds_of_open n h1]
                -- One command fewer stands behind, and its pipes are numbered from `n + 1`.
                have hlen : i + 1 < (scmd₁ :: scmds).length ↔
                    i + 1 + 1 < (scmd₀ :: scmd₁ :: scmds).length :=
                  (Nat.succ_lt_succ_iff).symm
                rw [if_congr hlen rfl rfl, Nat.add_right_comm n 1 i, Nat.add_assoc n i 1]

section WiredIff

variable {env : Env} (henv : env.Succeeds) {p : Pipeline} {s : Process} (hne : p.scmds ≠ [])
  (hb : builtinAlone p s = .ok false s) (h0 : s.fds.entry stdinFileno ≠ none)
  (h1 : s.fds.entry stdoutFileno ≠ none)
include henv hne hb

/-- The children of a pipeline come behind those of the shell. -/
theorem outcomes_executePipeline_getElem (i : Nat) :
    (final (executePipeline env p s)).outcomes[s.children.length + i]? =
      (pipelineOutcomes p.scmds none s.fds s.pipes)[i]? := by
  have hlen : s.outcomes.length = s.children.length := List.length_map ..
  rw [(executePipeline_final henv hne hb).2, List.getElem?_append_right (by omega), hlen,
    Nat.add_sub_cancel_left]

include h0 h1

/-- A command that is not the first and redirects its input reads from the pipe. -/
theorem not_wired_of_redirIn {i : Nat} {scmd : Scommand} (hpos : 0 < i)
    (hi : p.scmds[i]? = some scmd) (hredir : scmd.redirIn ≠ none) : ¬ Wired env p s := by
  intro h
  have hcarried : CarriedFd s.fds none none := fun fd h => by cases h
  obtain ⟨exec, hexec, -, -, hin, -⟩ := h i scmd hi
  obtain ⟨exec', hexec', -, -, hin', -⟩ :=
    pipelineOutcomes_getElem (n := s.pipes) h0 h1 hcarried hi
  rw [outcomes_executePipeline_getElem henv hne hb, hexec'] at hexec
  cases hexec
  rw [if_pos hpos] at hin'
  obtain ⟨args, redirIn, redirOut⟩ := scmd
  cases redirIn with
  | none => exact hredir rfl
  | some name =>
      rw [hin', stdinOf, hi] at hin
      cases hin

/-- When the system calls succeed and the standard input and output are open, all children of a
pipeline are connected just when no command but the first redirects its input. -/
theorem wired_iff :
    Wired env p s ↔
      ∀ (i : Nat) (scmd : Scommand), 0 < i → p.scmds[i]? = some scmd → scmd.redirIn = none := by
  have hcarried : CarriedFd s.fds none none := fun fd h => by cases h
  constructor
  · intro h i scmd hpos hi
    by_contra hredir
    exact not_wired_of_redirIn henv hne hb h0 h1 hpos hi hredir h
  · intro h i scmd hi
    obtain ⟨exec, hexec, hfile, hargv, hin, hout⟩ :=
      pipelineOutcomes_getElem (n := s.pipes) h0 h1 hcarried hi
    refine ⟨exec, by rw [outcomes_executePipeline_getElem henv hne hb, hexec], hfile, hargv, ?_, ?_⟩
    · rw [hin, stdinOf, hi]
      by_cases hpos : 0 < i
      · have hredir := h i scmd hpos hi
        obtain ⟨args, redirIn, redirOut⟩ := scmd
        obtain rfl : redirIn = none := hredir
        rfl
      · rw [if_neg hpos]
        obtain ⟨args, redirIn, redirOut⟩ := scmd
        cases redirIn with
        | none => exact (if_neg hpos).symm
        | some name => rfl
    · rw [hout, stdoutOf, hi]
      obtain ⟨args, redirIn, redirOut⟩ := scmd
      cases redirOut <;> rfl

end WiredIff

/-- `sort < in | wc > out` is connected. -/
theorem wired_two_commands : Wired (slowEnv 0)
    ⟨[⟨["sort"], some "in", none⟩, ⟨["wc"], none, some "out"⟩], true⟩ atTerminal := by
  refine (wired_iff (slowEnv_succeeds 0) (by decide) rfl (by decide) (by decide)).mpr ?_
  intro i scmd hpos hi
  match i, hpos, hi with
  | 1, _, hi =>
      cases hi
      rfl

/-- In `ls | wc < in`, `wc` reads what `ls` writes. -/
theorem not_forall_wired :
    ¬ ∀ (env : Env) (p : Pipeline) (s : Process), env.Succeeds → p.scmds ≠ [] →
      builtinAlone p s = .ok false s → (∀ fd, fd ≤ 2 → s.fds.entry fd ≠ none) → Wired env p s := by
  intro hall
  have hopen : ∀ fd, fd ≤ 2 → atTerminal.fds.entry fd ≠ none := by
    intro fd hfd
    simp [atTerminal, Process.start]
    omega
  exact not_wired_of_redirIn (slowEnv_succeeds 0) (s := atTerminal)
    (p := ⟨[⟨["ls"], none, none⟩, ⟨["wc"], some "in", none⟩], true⟩) (by decide) rfl
    (hopen 0 (by decide)) (hopen 1 (by decide)) (i := 1) (by decide) rfl (by decide)
    (hall _ _ _ (slowEnv_succeeds 0) (by decide) rfl hopen)

end OsLabs.Shell
