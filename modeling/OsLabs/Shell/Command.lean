import OsLabs.Lib.Command
import OsLabs.Lib.FdTable

/-! # The shell's commands and its view of the kernel

A simple command is a queue of words with two optional redirections, and a pipeline a queue of simple
commands with its wait mode (`command.c`). The queue operations assert their preconditions, so they
run in the shell's monad, where a failed assertion stops the process.

The state `Process` is what the kernel keeps for the shell process: its descriptors, its children with
what became of them, and what it printed. The results of system calls that depend on the outside
world (whether `pipe`, `fork`, `open` and `chdir` succeed, when each child terminates, which
terminated child `wait` returns) come from an environment `Env`, indexed by the number of the call. -/

namespace OsLabs.Shell

/-! ## Commands -/

/-- A simple command: its words and its redirections. -/
structure Scommand where
  cmdArgs : List String
  redirIn : Option String
  redirOut : Option String
deriving Repr, DecidableEq

/-- A pipeline: its simple commands and whether the shell waits for it. -/
structure Pipeline where
  scmds : List Scommand
  wait : Bool
deriving Repr, DecidableEq

/-! ## The kernel's view of the shell -/

/-- How a redirection opens its file. -/
inductive Access
  /-- `O_RDONLY`. -/
  | read
  /-- `O_WRONLY | O_CREAT | O_TRUNC`. -/
  | write
deriving Repr, DecidableEq

/-- An open file description. -/
inductive OpenFile
  /-- A file the shell was started with. -/
  | inherited (id : Nat)
  /-- A file opened for a redirection. -/
  | file (name : String) (access : Access)
  /-- The read end of the pipe created by the given call of `pipe`. -/
  | pipeRead (pipe : Nat)
  /-- The write end of that pipe. -/
  | pipeWrite (pipe : Nat)
deriving Repr, DecidableEq

/-- Why a process does not go on. -/
inductive Stop
  /-- `exit` with a status. -/
  | exited (status : Nat)
  /-- A failed `assert`. -/
  | aborted
  /-- `wait` with children left, none of which has terminated. -/
  | blocked
deriving Repr, DecidableEq

/-- A line written to one of the standard streams. -/
inductive Line
  | printf (text : String)
  | perror (text : String)
deriving Repr, DecidableEq

/-- The arguments of `execvp` and the descriptors open at that moment. -/
structure Exec where
  file : Option String
  argv : List String
  fds : FdTable OpenFile

/-- What a child does: it reaches `execvp`, or it stops before. -/
inductive Outcome
  | execvp (exec : Exec)
  | stopped (stop : Stop)

/-- The life of a child as its parent sees it. -/
inductive Status
  | running
  | terminated
  | reaped
deriving Repr, DecidableEq

/-- A forked child. -/
structure Child where
  outcome : Outcome
  status : Status

/-- The state of a shell process. Children are numbered in the order of their `fork`. -/
structure Process where
  fds : FdTable OpenFile
  /-- Pipes created so far. -/
  pipes : Nat
  children : List Child
  /-- System calls made so far. -/
  calls : Nat
  cwd : String
  output : List Line

/-- The results of system calls that the shell's state does not determine. -/
structure Env where
  /-- Whether the call creates the pipe. -/
  pipeOk : Nat → Bool
  /-- Whether the call forks. -/
  forkOk : Nat → Bool
  /-- Whether the call opens the file. -/
  openOk : Nat → String → Bool
  /-- The directory `chdir` changes to from the current one, if it succeeds. -/
  chdirTo : String → String → Option String
  /-- The value of `HOME`. -/
  home : Option String
  /-- Whether a child has terminated by the time of the call. -/
  ended : Nat → Nat → Bool
  /-- Which of the terminated children `wait` returns. -/
  pick : Nat → Nat

/-- The calls that need resources succeed. -/
structure Env.Succeeds (env : Env) : Prop where
  pipe : ∀ call, env.pipeOk call = true
  fork : ∀ call, env.forkOk call = true
  openFile : ∀ call name, env.openOk call name = true

/-- A computation of a shell process. -/
abbrev ShellM := EStateM Stop Process

/-! ## Operations of the queues -/

/-- `scommand_front`; asserts that there is a word. -/
def scommandFront (self : Scommand) : ShellM String :=
  match self.cmdArgs with
  | [] => throw .aborted
  | arg :: _ => pure arg

/-- `scommand_pop_front`; asserts that there is a word. -/
def scommandPopFront (self : Scommand) : ShellM Scommand :=
  match self.cmdArgs with
  | [] => throw .aborted
  | _ :: args => pure { self with cmdArgs := args }

/-- `scommand_length`. -/
def scommandLength (self : Scommand) : Nat := self.cmdArgs.length

/-- `pipeline_length`. -/
def pipelineLength (self : Pipeline) : Nat := self.scmds.length

/-- `pipeline_is_empty`. -/
def pipelineIsEmpty (self : Pipeline) : Bool := pipelineLength self == 0

/-- `pipeline_front`; asserts that there is a command. -/
def pipelineFront (self : Pipeline) : ShellM Scommand :=
  match self.scmds with
  | [] => throw .aborted
  | scmd :: _ => pure scmd

/-- `pipeline_pop_front`; asserts that there is a command. -/
def pipelinePopFront (self : Pipeline) : ShellM Pipeline :=
  match self.scmds with
  | [] => throw .aborted
  | _ :: scmds => pure { self with scmds }

/-! ## System calls -/

/-- A child that has terminated by now is no longer running. -/
def Child.age (ended : Bool) (c : Child) : Child :=
  if c.status = .running ∧ ended then { c with status := .terminated } else c

/-- The start of a system call: children that have terminated by now become so. -/
def Process.tick (env : Env) (s : Process) : Process :=
  { s with
    calls := s.calls + 1
    children := s.children.mapIdx fun pid c => c.age (env.ended s.calls pid) }

/-- Write a line to the standard output or error. -/
def say (line : Line) : ShellM Unit := modify fun s => { s with output := s.output ++ [line] }

/-- `close`; the result is never looked at. -/
def close (fd : Nat) : ShellM Unit := modify fun s => { s with fds := s.fds.close fd }

/-- `dup2`; the result is never looked at. -/
def dup2 (old new : Nat) : ShellM Unit := modify fun s => { s with fds := s.fds.dup2 old new }

/-- `pipe`: the read end and the write end, or an error. -/
def pipe (env : Env) : ShellM (Option (Nat × Nat)) := do
  let s ← get
  modify (Process.tick env)
  if env.pipeOk s.calls then
    let t := s.fds.openFile (.pipeRead s.pipes)
    modify fun u => { u with fds := t.openFile (.pipeWrite s.pipes), pipes := s.pipes + 1 }
    pure (some (s.fds.lowestFree, t.lowestFree))
  else
    pure none

/-- `open`: the new descriptor, or an error. -/
def openFile (env : Env) (name : String) (access : Access) : ShellM (Option Nat) := do
  let s ← get
  modify (Process.tick env)
  if env.openOk s.calls name then
    modify fun u => { u with fds := s.fds.openFile (.file name access) }
    pure (some s.fds.lowestFree)
  else
    pure none

/-- What the parent can know of a child's run. -/
def outcomeOf : EStateM.Result Stop Shell Exec → Outcome
  | .ok exec _ => .execvp exec
  | .error stop _ => .stopped stop

/-- `fork`: the child runs on a copy of the process, without the parent's children; `true` in the
parent, `false` when no process could be created. -/
def fork (env : Env) (child : ShellM Exec) : ShellM Bool := do
  let s ← get
  modify (Process.tick env)
  if env.forkOk s.calls then
    modify fun u =>
      let c : Child := ⟨outcomeOf (child { u with children := [] }), .running⟩
      { u with children := u.children ++ [c] }
    pure true
  else
    pure false

/-- The terminated children that have not been waited for, in the order of their `fork`. -/
def Process.zombies (s : Process) : List Nat :=
  (List.range s.children.length).filter fun pid =>
    (s.children[pid]?).any fun c => c.status = .terminated

/-- Take a child off the list of those to wait for. -/
def Process.reap (pid : Nat) (s : Process) : Process :=
  { s with children := s.children.modify pid fun c => { c with status := .reaped } }

/-- `wait`: a terminated child, or an error when there is no child left; it blocks while every child
left is running. -/
def wait (env : Env) : ShellM (Option Nat) := do
  let s ← get
  modify (Process.tick env)
  let u ← get
  if u.children.all fun c => c.status = .reaped then
    pure none
  else
    match u.zombies[env.pick s.calls % u.zombies.length]? with
    | none => throw .blocked
    | some pid => do
      modify (Process.reap pid)
      pure (some pid)

/-- `chdir`: whether the directory could be changed. -/
def chdir (env : Env) (path : String) : ShellM Bool := do
  let s ← get
  match env.chdirTo s.cwd path with
  | none => pure false
  | some cwd => do
    modify fun u => { u with cwd }
    pure true

end OsLabs.Shell
