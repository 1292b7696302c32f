import OsLabs.Shell.Command

/-! # Running pipelines

The functions of `builtin.c` and `execute.c`. A pointer to a descriptor that holds `NO_FD` is `none`;
the descriptors `execute_scmd` updates through pointers are returned. The text of the words is kept as
strings and `malloc` and `strdup` succeed. -/

namespace OsLabs.Shell

/-- `EXIT_SUCCESS`. -/
def exitSuccess : Nat := 0

/-- `EXIT_FAILURE`. -/
def exitFailure : Nat := 1

/-- `STDIN_FILENO`. -/
def stdinFileno : Nat := 0

/-- `STDOUT_FILENO`. -/
def stdoutFileno : Nat := 1

/-! ## Builtins -/

/-- `builtin_is_internal`. -/
def builtinIsInternal (cmd : Scommand) : ShellM Bool := do
  let cmdName ← scommandFront cmd
  pure (cmdName == "cd" || cmdName == "help" || cmdName == "exit")

/-- `builtin_alone`. -/
def builtinAlone (p : Pipeline) : ShellM Bool := do
  if pipelineLength p == 1 then
    let cmd ← pipelineFront p
    builtinIsInternal cmd
  else
    pure false

/-- `builtin_run`; asserts that the command is internal. -/
def builtinRun (env : Env) (cmd : Scommand) : ShellM Unit := do
  let internal ← builtinIsInternal cmd
  if internal then
    let cmdType ← scommandFront cmd
    if cmdType == "cd" then
      if scommandLength cmd > 1 then
        let cmd' ← scommandPopFront cmd
        let filename ← scommandFront cmd'
        let success ← chdir env filename
        Cmd.when (success = false) (say (.printf "No existe el directorio \n"))
      else
        match env.home with
        | none => pure ()
        | some username => do
          let _ ← chdir env username
          pure ()
    else if cmdType == "help" then
      say (.printf "shellname:YGTB\n")
      say (.printf ("autores: Gregorio Vilardo, Tadeo Fiorini, Braian Rodriguez, " ++
        "Yamil Ali\n"))
      say (.printf ("Comandos internos -> cd: Cambia de directorio\n help:muestra " ++
        "informacion relevante\n exit: sale de la shell\n"))
    else if cmdType == "exit" then
      throw (.exited exitSuccess)
    else
      pure ()
  else
    throw .aborted

/-! ## One simple command -/

/-- The loop of `get_argv`: `n` times take the front word and pop it. -/
def getArgvLoop : Nat → Scommand → ShellM (List String × Scommand)
  | 0, scmd => pure ([], scmd)
  | n + 1, scmd => do
    let arg ← scommandFront scmd
    let scmd' ← scommandPopFront scmd
    let (argv, rest) ← getArgvLoop n scmd'
    pure (arg :: argv, rest)

/-- `get_argv`: the words, and the command without them. -/
def getArgv (scmd : Scommand) : ShellM (List String × Scommand) :=
  getArgvLoop (scommandLength scmd) scmd

/-- `get_fd_redir`: the descriptors of the two redirections. -/
def getFdRedir (env : Env) (scmd : Scommand) : ShellM (Option Nat × Option Nat) := do
  let fdIn ← match scmd.redirIn with
    | none => pure none
    | some redirIn => do
      say (.printf (redirIn ++ "\n"))
      let fd ← openFile env redirIn .read
      match fd with
      | none => do
        say (.perror "Error reading file")
        throw (.exited exitFailure)
      | some fd => pure (some fd)
  let fdOut ← match scmd.redirOut with
    | none => pure none
    | some redirOut => do
      let fd ← openFile env redirOut .write
      match fd with
      | none => do
        say (.perror "Error writting file")
        throw (.exited exitFailure)
      | some fd => pure (some fd)
  pure (fdIn, fdOut)

/-- `dup2` onto a standard descriptor and `close`, unless there is no descriptor. -/
def moveTo (std : Nat) : Option Nat → ShellM Unit
  | none => pure ()
  | some fd => do
    dup2 fd std
    close fd

/-- `dup_and_close`. -/
def dupAndClose (fdRedirIn fdRedirOut fdIn fdOut : Option Nat) : ShellM Unit := do
  moveTo stdoutFileno fdRedirOut
  moveTo stdoutFileno fdOut
  moveTo stdinFileno fdRedirIn
  moveTo stdinFileno fdIn

/-- The child's branch of `execute_scmd`, up to `execvp`. -/
def executeChild (env : Env) (scmd : Scommand) (argv : List String) (pipefd : Option (Nat × Nat))
    (fdIn fdOut : Option Nat) : ShellM Exec := do
  let (fdRedirIn, fdRedirOut) ← getFdRedir env scmd
  match pipefd with
  | none => pure ()
  | some (readEnd, writeEnd) => do
    close readEnd
    dup2 writeEnd stdoutFileno
    close writeEnd
  dupAndClose fdRedirIn fdRedirOut fdIn fdOut
  let s ← get
  pure { file := argv.head?, argv, fds := s.fds }

/-- The parent's branch of `execute_scmd`: the new values of `*fd_in` and `*wait_counter`. -/
def executeParent (pipefd : Option (Nat × Nat)) (fdIn : Option Nat) (waitCounter : Nat) :
    ShellM (Option Nat × Nat) := do
  match pipefd with
  | some (readEnd, writeEnd) => do
    close writeEnd
    pure (some readEnd, waitCounter + 1)
  | none =>
    match fdIn with
    | none => pure (none, waitCounter + 1)
    | some fd => do
      close fd
      pure (some fd, waitCounter + 1)

/-- `execute_scmd`: the new values of `*fd_in` and `*wait_counter`. -/
def executeScmd (env : Env) (scmd : Scommand) (isPipe _isWait : Bool) (fdIn fdOut : Option Nat)
    (waitCounter : Nat) : ShellM (Option Nat × Nat) := do
  let (argv, scmd) ← getArgv scmd
  let pipefd ← if isPipe then do
      let created ← pipe env
      match created with
      | none => do
        say (.perror "Error en el pipe")
        throw (.exited exitFailure)
      | some pipefd => pure (some pipefd)
    else pure none
  let forked ← fork env (executeChild env scmd argv pipefd fdIn fdOut)
  if forked then executeParent pipefd fdIn waitCounter
  else do
    say (.perror "Error en el fork\n")
    throw (.exited exitFailure)

/-! ## Pipelines -/

/-- The loop that waits as often as a child was forked. -/
def waitLoop (env : Env) : Nat → ShellM Unit
  | 0 => pure ()
  | n + 1 => do
    let reaped ← wait env
    Cmd.when (reaped = none) (say (.perror "Error wait"))
    waitLoop env n

/-- The loop of `execute_pipeline`. Every round pops a command, so that as many rounds are enough. -/
def executePipelineLoop (env : Env) : Nat → Pipeline → Option Nat → Option Nat → Nat → ShellM Unit
  | 0, _, _, _, _ => pure ()
  | rounds + 1, apipe, fdIn, fdOut, waitCounter =>
    if pipelineIsEmpty apipe then
      pure ()
    else do
      let scmd ← pipelineFront apipe
      let isWait := apipe.wait
      let isPipe := if pipelineLength apipe == 1 then false else true
      let (fdIn', waitCounter') ← executeScmd env scmd isPipe isWait fdIn fdOut waitCounter
      let apipe ← pipelinePopFront apipe
      Cmd.when (isWait = true ∧ isPipe = false) (waitLoop env waitCounter')
      executePipelineLoop env rounds apipe fdIn' fdOut waitCounter'

/-- `execute_pipeline`. -/
def executePipeline (env : Env) (apipe : Pipeline) : ShellM Unit := do
  if pipelineIsEmpty apipe then
    pure ()
  else
    let alone ← builtinAlone apipe
    if alone then
      let scmd ← pipelineFront apipe
      builtinRun env scmd
      let _ ← pipelinePopFront apipe
      pure ()
    else
      executePipelineLoop env (pipelineLength apipe) apipe none none 0

/-- The loop as a walk over the commands. -/
def executeLoop (env : Env) (isWait : Bool) :
    List Scommand → Option Nat → Option Nat → Nat → ShellM Unit
  | [], _, _, _ => pure ()
  | scmd :: scmds, fdIn, fdOut, waitCounter => do
    let isPipe := if (scmd :: scmds).length == 1 then false else true
    let (fdIn', waitCounter') ← executeScmd env scmd isPipe isWait fdIn fdOut waitCounter
    Cmd.when (isWait = true ∧ isPipe = false) (waitLoop env waitCounter')
    executeLoop env isWait scmds fdIn' fdOut waitCounter'

/-- Popping the commands one by one is walking over them. -/
theorem executePipelineLoop_eq (env : Env) (scmds : List Scommand) (isWait : Bool) (fdIn fdOut : Option Nat)
    (k : Nat) : executePipelineLoop env scmds.length ⟨scmds, isWait⟩ fdIn fdOut k =
      executeLoop env isWait scmds fdIn fdOut k := by
  induction scmds generalizing fdIn k with
  | nil => rfl
  | cons scmd scmds ih =>
      have hne : ¬ pipelineIsEmpty ⟨scmd :: scmds, isWait⟩ = true := by
        unfold pipelineIsEmpty pipelineLength
        simp
      rw [List.length_cons, executePipelineLoop, executeLoop, if_neg hne]
      refine (pure_bind scmd _).trans (bind_congr (m := ShellM) fun r => ?_)
      refine (pure_bind (⟨scmds, isWait⟩ : Pipeline) _).trans (bind_congr (m := ShellM) fun _ => ?_)
      exact ih r.1 r.2

end OsLabs.Shell
