import OsLabs.Shell.Execute

/-! # Runs of the shell's functions

How the functions of the shell run when the system calls that need resources succeed. The descriptors
a child ends up with are a function of the table it was forked with, `childFds`. -/

namespace OsLabs.Shell

open Cmd

/-! ## Argument vectors -/

/-- `get_argv` takes all the words and leaves the redirections. -/
theorem getArgvLoop_run (redirIn redirOut : Option String) (args : List String) (s : Process) :
    getArgvLoop args.length ⟨args, redirIn, redirOut⟩ s = .ok (args, ⟨[], redirIn, redirOut⟩) s := by
  induction args with
  | nil => rfl
  | cons arg args ih =>
      show (getArgvLoop args.length ⟨args, redirIn, redirOut⟩ >>= fun r =>
        pure (arg :: r.1, r.2)) s = _
      rw [Cmd.bind_ok ih]
      rfl

/-- `get_argv` returns the words in order and takes them off the command. -/
theorem getArgv_run (scmd : Scommand) (s : Process) :
    getArgv scmd s = .ok (scmd.cmdArgs, { scmd with cmdArgs := [] }) s :=
  getArgvLoop_run scmd.redirIn scmd.redirOut scmd.cmdArgs s

/-! ## Pipes and forks -/

/-- The read end the next pipe would get. -/
def Process.readEnd (s : Process) : Nat := s.fds.lowestFree

/-- The write end the next pipe would get. -/
def Process.writeEnd (s : Process) : Nat := (s.fds.openFile (.pipeRead s.pipes)).lowestFree

/-- The process after creating a pipe. -/
def Process.piped (env : Env) (s : Process) : Process :=
  { s.tick env with
    fds := (s.fds.openFile (.pipeRead s.pipes)).openFile (.pipeWrite s.pipes)
    pipes := s.pipes + 1 }

/-- The process after forking a child with the given outcome. -/
def Process.forked (env : Env) (outcome : Outcome) (s : Process) : Process :=
  { s.tick env with children := (s.tick env).children ++ [⟨outcome, .running⟩] }

/-- The process after closing a descriptor. -/
def Process.closed (fd : Nat) (s : Process) : Process := { s with fds := s.fds.close fd }

section Runs

variable {env : Env} (henv : env.Succeeds)
include henv

/-- `pipe` makes a pipe on the two lowest free descriptors. -/
theorem pipe_run (s : Process) : pipe env s = .ok (some (s.readEnd, s.writeEnd)) (s.piped env) := by
  unfold pipe
  rw [Cmd.get_bind, Cmd.modify_bind, if_pos (henv.pipe s.calls)]
  rfl

/-- `fork` in the parent adds a child, which does what the command would do there. -/
theorem fork_run (child : ShellM Exec) (s : Process) :
    fork env child s =
      .ok true (s.forked env (outcomeOf (child { s.tick env with children := [] }))) := by
  unfold fork
  rw [Cmd.get_bind, Cmd.modify_bind, if_pos (henv.fork s.calls)]
  rfl

/-- `open` takes the lowest free descriptor. -/
theorem openFile_run (name : String) (access : Access) (s : Process) :
    openFile env name access s =
      .ok (some s.fds.lowestFree) { s.tick env with fds := s.fds.openFile (.file name access) } := by
  unfold openFile
  rw [Cmd.get_bind, Cmd.modify_bind, if_pos (henv.openFile s.calls name)]
  rfl

/-! ## The child -/

/-- The descriptor a redirection gets. -/
def redirFd (t : FdTable OpenFile) (redir : Option String) : Option Nat :=
  redir.map fun _ => t.lowestFree

/-- The table after opening a redirection. -/
def redirFds (t : FdTable OpenFile) (access : Access) : Option String → FdTable OpenFile
  | none => t
  | some name => t.openFile (.file name access)

/-- The table after `dup2` onto a standard descriptor and `close`. -/
def movedFds (std : Nat) : Option Nat → FdTable OpenFile → FdTable OpenFile
  | none, t => t
  | some fd, t => (t.dup2 fd std).close fd

/-- The table after a child has put the write end of its pipe in place. -/
def pipedFds : Option (Nat × Nat) → FdTable OpenFile → FdTable OpenFile
  | none, t => t
  | some (readEnd, writeEnd), t => movedFds stdoutFileno (some writeEnd) (t.close readEnd)

/-- The table of a child at `execvp`, from the one it was forked with. -/
def childFds (redirIn redirOut : Option String) (pipefd : Option (Nat × Nat)) (fdIn : Option Nat)
    (t : FdTable OpenFile) : FdTable OpenFile :=
  let t₁ := redirFds t .read redirIn
  let t₂ := redirFds t₁ .write redirOut
  let t₃ := movedFds stdoutFileno (redirFd t₁ redirOut) (pipedFds pipefd t₂)
  movedFds stdinFileno fdIn (movedFds stdinFileno (redirFd t redirIn) t₃)

/-- The redirections are opened one after the other. -/
theorem getFdRedir_run (scmd : Scommand) (s : Process) :
    ∃ s', getFdRedir env scmd s =
        .ok (redirFd s.fds scmd.redirIn, redirFd (redirFds s.fds .read scmd.redirIn) scmd.redirOut) s' ∧
      s'.fds = redirFds (redirFds s.fds .read scmd.redirIn) .write scmd.redirOut := by
  obtain ⟨args, redirIn, redirOut⟩ := scmd
  cases redirIn with
  | none =>
      cases redirOut with
      | none => exact ⟨s, rfl, rfl⟩
      | some out =>
          refine ⟨{ s.tick env with fds := s.fds.openFile (.file out .write) }, ?_, rfl⟩
          unfold getFdRedir
          dsimp only
          rw [Cmd.pure_bind_run, Cmd.bind_ok (openFile_run henv out .write s)]
          rfl
  | some inp =>
      let u : Process := { s with output := s.output ++ [.printf (inp ++ "\n")] }
      let v : Process := { u.tick env with fds := s.fds.openFile (.file inp .read) }
      have hin : openFile env inp .read u = .ok (some s.fds.lowestFree) v := openFile_run henv inp .read u
      cases redirOut with
      | none =>
          refine ⟨v, ?_, rfl⟩
          unfold getFdRedir
          dsimp only
          refine (Cmd.modify_bind _ _ s).trans ?_
          rw [Cmd.bind_ok hin]
          rfl
      | some out =>
          refine ⟨{ v.tick env with fds := v.fds.openFile (.file out .write) }, ?_, rfl⟩
          unfold getFdRedir
          dsimp only
          refine (Cmd.modify_bind _ _ s).trans ?_
          rw [Cmd.bind_ok hin]
          dsimp only
          rw [Cmd.pure_bind_run, Cmd.bind_ok (openFile_run henv out .write v)]
          rfl

omit henv in

/-- `dup_and_close` without a pipe, as one change of the table. -/
theorem dupAndClose_run (fdRedirIn fdRedirOut fdIn : Option Nat) (s : Process) :
    dupAndClose fdRedirIn fdRedirOut fdIn none s =
      .ok ⟨⟩ { s with
        fds := movedFds stdinFileno fdIn (movedFds stdinFileno fdRedirIn
          (movedFds stdoutFileno fdRedirOut s.fds)) } := by
  cases fdRedirIn <;> cases fdRedirOut <;> cases fdIn <;> rfl

/-- A child reaches `execvp` with the words of its command. -/
theorem outcomeOf_executeChild (scmd : Scommand) (argv : List String) (pipefd : Option (Nat × Nat))
    (fdIn : Option Nat) (s : Process) :
    outcomeOf (executeChild env scmd argv pipefd fdIn none s) =
      .execvp ⟨argv.head?, argv, childFds scmd.redirIn scmd.redirOut pipefd fdIn s.fds⟩ := by
  obtain ⟨u, hu, hfds⟩ := getFdRedir_run henv scmd s
  unfold executeChild childFds
  rw [Cmd.bind_ok hu]
  dsimp only
  rw [← hfds]
  cases pipefd with
  | none =>
      dsimp only
      rw [Cmd.bind_ok (dupAndClose_run _ _ _ u)]
      rfl
  | some ends =>
      let v : Process := { u with fds := pipedFds (some ends) u.fds }
      have hv : (close ends.1 >>= fun _ => dup2 ends.2 stdoutFileno >>= fun _ => close ends.2 :
          ShellM Unit) u = .ok ⟨⟩ v := rfl
      have hrest := Cmd.bind_ok (f := fun _ => (do
        dupAndClose (redirFd s.fds scmd.redirIn)
          (redirFd (redirFds s.fds .read scmd.redirIn) scmd.redirOut) fdIn none
        let s ← get
        pure { file := argv.head?, argv, fds := s.fds } : ShellM Exec)) hv
      rw [Cmd.bind_ok (dupAndClose_run _ _ _ v)] at hrest
      exact congrArg outcomeOf hrest

/-! ## One simple command -/

/-- What the child of a command does. -/
def childOutcome (scmd : Scommand) (pipefd : Option (Nat × Nat)) (fdIn : Option Nat)
    (t : FdTable OpenFile) : Outcome :=
  .execvp ⟨scmd.cmdArgs.head?, scmd.cmdArgs, childFds scmd.redirIn scmd.redirOut pipefd fdIn t⟩

/-- A command that is followed by another one leaves the read end of a new pipe for it. -/
theorem executeScmd_piped (scmd : Scommand) (isWait : Bool) (fdIn : Option Nat) (k : Nat)
    (s : Process) :
    executeScmd env scmd true isWait fdIn none k s = .ok (some s.readEnd, k + 1)
      (((s.piped env).forked env (childOutcome scmd (some (s.readEnd, s.writeEnd)) fdIn
        (s.piped env).fds)).closed s.writeEnd) := by
  unfold executeScmd
  rw [Cmd.bind_ok (getArgv_run scmd s)]
  dsimp only
  rw [if_pos rfl, Cmd.bind_ok (pipe_run henv s)]
  dsimp only
  rw [Cmd.pure_bind_run, Cmd.bind_ok (fork_run henv _ _), outcomeOf_executeChild henv]
  rfl

/-- The last command of a pipeline closes the read end it was given. -/
theorem executeScmd_last (scmd : Scommand) (isWait : Bool) (fdIn : Option Nat) (k : Nat)
    (s : Process) :
    executeScmd env scmd false isWait fdIn none k s = .ok (fdIn, k + 1)
      (let u := s.forked env (childOutcome scmd none fdIn s.fds)
       match fdIn with
       | none => u
       | some fd => u.closed fd) := by
  unfold executeScmd
  rw [Cmd.bind_ok (getArgv_run scmd s)]
  dsimp only
  rw [if_neg (by decide), Cmd.pure_bind_run, Cmd.bind_ok (fork_run henv _ _),
    outcomeOf_executeChild henv]
  cases fdIn <;> rfl

end Runs

/-! ## A pipeline -/

/-- The table after creating the `n`-th pipe. -/
def openPipe (t : FdTable OpenFile) (n : Nat) : FdTable OpenFile :=
  (t.openFile (.pipeRead n)).openFile (.pipeWrite n)

/-- The write end of that pipe. -/
def pipeWriteEnd (t : FdTable OpenFile) (n : Nat) : Nat := (t.openFile (.pipeRead n)).lowestFree

/-- The table of the parent after forking a command that is followed by another one. -/
def parentFds (t : FdTable OpenFile) (n : Nat) : FdTable OpenFile :=
  (openPipe t n).close (pipeWriteEnd t n)

/-- What the children of a pipeline do, from the parent's table and the number of pipes so far. -/
def pipelineOutcomes : List Scommand → Option Nat → FdTable OpenFile → Nat → List Outcome
  | [], _, _, _ => []
  | [scmd], fdIn, t, _ => [childOutcome scmd none fdIn t]
  | scmd :: scmds, fdIn, t, n =>
      childOutcome scmd (some (t.lowestFree, pipeWriteEnd t n)) fdIn (openPipe t n) ::
        pipelineOutcomes scmds (some t.lowestFree) (parentFds t n) (n + 1)

/-- The table of the parent after forking a pipeline. -/
def pipelineFds : List Scommand → Option Nat → FdTable OpenFile → Nat → FdTable OpenFile
  | [], _, t, _ => t
  | [_], fdIn, t, _ =>
      match fdIn with
      | none => t
      | some fd => t.close fd
  | _ :: scmds, _, t, n => pipelineFds scmds (some t.lowestFree) (parentFds t n) (n + 1)

end OsLabs.Shell
