import OsLabs.Lib.Transition
import Mathlib

/-! # One semaphore of the kernel and the processes that use it

The kernel's `sem_open`, `sem_close`, `sem_up`, `sem_down`, with `sleep`, `wakeup`, `kill`, `yield`
and the part of `scheduler` that resumes a process, on one slot `s` of the semaphore table and `n`
processes. A process is a program counter into this code. An action lets one process take its next
step, so a list of actions is an interleaving; a process that runs has a CPU of its own, hence the
runs on any number of CPUs are among the runs of this system.

A step is one access to shared memory outside the locks, one lock operation, or one piece of code
inside a lock. The sections that `wakeup` and `kill` execute under a process lock are single steps
(they need that lock free), while `sleep` keeps its own process lock over several steps, up to the
scheduler, which releases it. -/

namespace OsLabs

namespace Kernel

/-! ## State -/

/-- The addresses processes sleep on and `wakeup` is called with: `s` and `&s->locked`. -/
inductive Chan
  | sem
  | locked
  deriving DecidableEq, Repr

/-- The states of a process that has been created and has not exited. -/
inductive ProcState
  | sleeping
  | runnable
  | running
  deriving DecidableEq, Repr

/-- Where a process is in the kernel code; `user` is outside it. -/
inductive Pc (n : Nat)
  | user
  | openAlloc (value : BitVec 32)
  | openTest (value : BitVec 32) (page : Nat)
  | openAssign (value : BitVec 32) (page : Nat)
  | closeTest
  | closeAcquire
  | closeFree
  | closeWake (todo : List (Fin n))
  | closeRelease
  | upTest
  | upAcquire
  | upAdd
  | upWake (todo : List (Fin n))
  | upRelease
  | downTest
  | downAcquire
  | downLoop
  | downTake
  | downRelease
  | sleepAcquire
  | sleepRelease
  | sleepSet
  | sched
  | asleep
  | sleepTidy
  | sleepReacquire
  | killScan (pid : Int) (todo : List (Fin n))
  deriving DecidableEq, Repr

/-- `struct proc`, with the program counter of its kernel code; `lock` is the word of `p->lock`. The
code modelled here writes `killed` and never reads it. -/
structure Proc (n : Nat) where
  pid : Int
  state : ProcState
  chan : Option Chan
  killed : Bool
  lock : Bool
  pc : Pc n

/-- The slot `s` of the semaphore table (`owner` is the holder of `s->locked`, `name` the page its
name is in), the free pages, and the process table. -/
structure State (n : Nat) where
  isOpen : Bool
  value : BitVec 32
  owner : Option (Fin n)
  name : Option Nat
  freelist : List Nat
  procs : Fin n → Proc n
  panicked : Bool

/-- What a step lets an observer see. `closed` lists the processes asleep on the semaphore when its
flag is cleared. -/
inductive Event (n : Nat)
  | opened (i : Fin n) (page : Nat)
  | closed (i : Fin n) (page : Nat) (asleep : List (Fin n))
  | incremented (i : Fin n)
  | decremented (i : Fin n)
  | slept (i : Fin n)
  | killedAsleep (i : Fin n)
  | returned (i : Fin n)
  deriving DecidableEq, Repr

/-- The system calls of the model. -/
inductive Syscall
  | semOpen (value : BitVec 32)
  | semClose
  | semUp
  | semDown
  | kill (pid : Int)
  deriving DecidableEq, Repr

/-- One step of the system: process `i` enters a system call, takes the next step of its code, is
resumed by the scheduler, or gives up its CPU. -/
inductive Action (n : Nat)
  | call (i : Fin n) (c : Syscall)
  | run (i : Fin n)
  | dispatch (i : Fin n)
  | yield (i : Fin n)
  deriving DecidableEq, Repr

variable {n : Nat}

namespace State

/-- Replace the record of process `i`. -/
def setProc (k : State n) (i : Fin n) (p : Proc n) : State n :=
  { k with procs := Function.update k.procs i p }

/-- Process `i` goes on at `pc`. -/
def goto (k : State n) (i : Fin n) (pc : Pc n) : State n :=
  k.setProc i { k.procs i with pc := pc }

/-- Process `i` is SLEEPING on the channel `c`. -/
def SleepsOn (k : State n) (c : Chan) (i : Fin n) : Prop :=
  (k.procs i).state = .sleeping ∧ (k.procs i).chan = some c

instance (k : State n) (c : Chan) (i : Fin n) : Decidable (k.SleepsOn c i) :=
  inferInstanceAs (Decidable (_ ∧ _))

/-- The processes SLEEPING on the semaphore. -/
def sleepers (k : State n) : List (Fin n) :=
  (List.finRange n).filter fun i => k.SleepsOn .sem i

/-- The kernel stops. -/
def panic (k : State n) : State n := { k with panicked := true }

end State

/-! ## Locks -/

/-- The pieces of code that are inside a section of `s->locked`; interrupts are off there. -/
def Pc.holdsSem : Pc n → Bool
  | .closeFree | .closeWake _ | .closeRelease | .upAdd | .upWake _ | .upRelease | .downLoop
  | .downTake | .downRelease | .sleepAcquire | .sleepRelease => true
  | _ => false

/-- The pieces of code that a process executes while it holds its own `p->lock`. -/
def Pc.holdsOwn : Pc n → Bool
  | .sleepRelease | .sleepSet | .sched | .sleepTidy => true
  | _ => false

/-- `acquire(&s->locked)`: spins while another process holds the lock. -/
def acquire (k : State n) (i : Fin n) (next : Pc n) : Option (State n × List (Event n)) :=
  match k.owner with
  | none => some (State.goto { k with owner := some i } i next, [])
  | some j => if j = i then some (k.panic, []) else none

/-- `release(&s->locked)`. -/
def release (k : State n) (i : Fin n) (next : Pc n) (evs : List (Event n)) :
    Option (State n × List (Event n)) :=
  if k.owner = some i then some (State.goto { k with owner := none } i next, evs)
  else some (k.panic, [])

/-! ## The code -/

/-- The record `wakeup(c)` leaves of a process it visits. -/
def wake (c : Chan) (p : Proc n) : Proc n :=
  if p.state = .sleeping ∧ p.chan = some c then { p with state := .runnable } else p

/-- One turn of the loop of `wakeup(c)`, called by process `i`; `todo` are the processes left. -/
def wakeup (k : State n) (i : Fin n) (c : Chan) (again : List (Fin n) → Pc n) (done : Pc n) :
    List (Fin n) → Option (State n × List (Event n))
  | [] => some (k.goto i done, [])
  | q :: todo =>
      if q = i then some (k.goto i (again todo), [])
      else if (k.procs q).lock then none
      else some ((k.setProc q (wake c (k.procs q))).goto i (again todo), [])

/-- The record `kill` leaves of the process it finds. -/
def markKilled (p : Proc n) : Proc n :=
  { p with
    killed := true
    state := if p.state = .sleeping then .runnable else p.state }

/-- One turn of the loop of `kill(pid)`. -/
def killTurn (k : State n) (i : Fin n) (pid : Int) :
    List (Fin n) → Option (State n × List (Event n))
  | [] => some (k.goto i .user, [.returned i])
  | q :: todo =>
      if (k.procs q).lock then none
      else if (k.procs q).pid = pid then
        some ((k.setProc q (markKilled (k.procs q))).goto i .user,
          (if k.SleepsOn .sem q then [.killedAsleep q] else []) ++ [.returned i])
      else some (k.goto i (.killScan pid todo), [])

/-- `kalloc()`, called by `sem_open`. -/
def openAlloc (k : State n) (i : Fin n) (value : BitVec 32) : State n × List (Event n) :=
  match k.freelist with
  | [] => (k.goto i .user, [.returned i])
  | page :: rest => (State.goto { k with freelist := rest } i (.openTest value page), [])

/-- `kfree(pa)`, which panics on a null pointer, in the section of `sem_close`. -/
def closeFree (k : State n) (i : Fin n) : State n × List (Event n) :=
  match k.name with
  | none => (k.panic, [])
  | some page =>
      (State.goto { k with isOpen := false, freelist := page :: k.freelist } i
        (.closeWake (List.finRange n)), [.closed i page k.sleepers])

/-- The next step of process `i`, which is at `pc`. -/
def next (k : State n) (i : Fin n) : Pc n → Option (State n × List (Event n))
  | .user => none
  -- sem_open
  | .openAlloc value => some (openAlloc k i value)
  | .openTest value page =>
      if k.isOpen then
        some (State.goto { k with freelist := page :: k.freelist } i .user, [.returned i])
      else some (k.goto i (.openAssign value page), [])
  | .openAssign value page =>
      -- `initlock` clears the word of the lock, whoever holds it
      some (State.goto { k with isOpen := true, value := value, name := some page, owner := none } i
        .user, [.opened i page, .returned i])
  -- sem_close
  | .closeTest =>
      if k.isOpen then some (k.goto i .closeAcquire, [])
      else some (k.goto i .user, [.returned i])
  | .closeAcquire => acquire k i .closeFree
  | .closeFree => some (closeFree k i)
  | .closeWake todo => wakeup k i .locked .closeWake .closeRelease todo
  | .closeRelease => release k i .user [.returned i]
  -- sem_up
  | .upTest =>
      if k.isOpen then some (k.goto i .upAcquire, []) else some (k.goto i .user, [.returned i])
  | .upAcquire => acquire k i .upAdd
  | .upAdd =>
      some (State.goto { k with value := k.value + 1 } i (.upWake (List.finRange n)),
        [.incremented i])
  | .upWake todo => wakeup k i .sem .upWake .upRelease todo
  | .upRelease => release k i .user [.returned i]
  -- sem_down
  | .downTest =>
      if k.isOpen then some (k.goto i .downAcquire, []) else some (k.goto i .user, [.returned i])
  | .downAcquire => acquire k i .downLoop
  | .downLoop =>
      if k.value.toInt ≤ 0 then some (k.goto i .sleepAcquire, []) else some (k.goto i .downTake, [])
  | .downTake =>
      some (State.goto { k with value := k.value - 1 } i .downRelease, [.decremented i])
  | .downRelease => release k i .user [.returned i]
  -- sleep(s, &s->locked)
  | .sleepAcquire =>
      if (k.procs i).lock then none
      else some (k.setProc i { k.procs i with lock := true, pc := .sleepRelease }, [])
  | .sleepRelease => release k i .sleepSet []
  | .sleepSet =>
      some (k.setProc i
        { k.procs i with chan := some .sem, state := .sleeping, pc := .sched }, [.slept i])
  | .sched =>
      -- the scheduler of this CPU releases `p->lock`
      some (k.setProc i { k.procs i with lock := false, pc := .asleep }, [])
  | .asleep => none
  | .sleepTidy =>
      some (k.setProc i { k.procs i with chan := none, lock := false, pc := .sleepReacquire }, [])
  | .sleepReacquire => acquire k i .downLoop
  -- kill
  | .killScan pid todo => killTurn k i pid todo

/-- The first step of a system call. -/
def Syscall.entry : Syscall → Pc n
  | .semOpen value => .openAlloc value
  | .semClose => .closeTest
  | .semUp => .upTest
  | .semDown => .downTest
  | .kill pid => .killScan pid (List.finRange n)

/-- Where a process resumes that the scheduler has switched to. It owns `p->lock` then: `yield`
releases it at once, `sleep` after it has cleared `p->chan`. -/
def resume (p : Proc n) : Proc n :=
  if p.pc = .asleep then { p with state := .running, lock := true, pc := .sleepTidy }
  else { p with state := .running }

/-- One step of the system. -/
def step (k : State n) : Action n → Option (State n × List (Event n))
  | .call i c =>
      if k.panicked = false ∧ (k.procs i).state = .running ∧ (k.procs i).pc = .user then
        some (k.goto i c.entry, [])
      else none
  | .run i =>
      -- a process that has marked itself SLEEPING is still on its CPU until `sched` switches
      if k.panicked = false ∧ ((k.procs i).state = .running ∨ (k.procs i).pc = .sched) then
        next k i (k.procs i).pc
      else none
  | .dispatch i =>
      if k.panicked = false ∧ (k.procs i).lock = false ∧ (k.procs i).state = .runnable then
        some (k.setProc i (resume (k.procs i)), [])
      else none
  | .yield i =>
      -- interrupts are off while a lock is held
      if k.panicked = false ∧ (k.procs i).lock = false ∧ (k.procs i).state = .running ∧
          (k.procs i).pc.holdsSem = false then
        some (k.setProc i { k.procs i with state := .runnable }, [])
      else none

/-- The executions of the system, from a history and a state. -/
abbrev exec : List (Event n) → State n → List (Action n) → Option (List (Event n) × State n) :=
  Transition.exec step

/-- No process is inside the code of a semaphore, and none sleeps. -/
structure Idle (k : State n) : Prop where
  owner : k.owner = none
  user : ∀ i, (k.procs i).pc = .user
  unlocked : ∀ i, (k.procs i).lock = false
  awake : ∀ i, (k.procs i).state ≠ .sleeping

/-- The slot as it is zeroed at boot, and `n` processes in user code with the pids from 1. -/
def boot (n : Nat) (pages : List Nat) : State n where
  isOpen := false
  value := 0
  owner := none
  name := none
  freelist := pages
  procs i := ⟨(i : Nat) + 1, .running, none, false, false, .user⟩
  panicked := false

/-- The first of two processes. -/
def proc0 : Fin 2 := ⟨0, Nat.two_pos⟩

/-- The second of two processes. -/
def proc1 : Fin 2 := ⟨1, Nat.one_lt_two⟩

/-- Nothing is in progress at boot. -/
theorem idle_boot (n : Nat) (pages : List Nat) : Idle (boot n pages) :=
  ⟨rfl, fun _ => rfl, fun _ => rfl, fun _ => nofun⟩

end Kernel

end OsLabs
