import OsLabs.Lib.Transition
import OsLabs.Lib.WaitFor
import Mathlib

/-! # The harts of the kernel and its tick lock

The lock operations of `scheduler`, `sched`, `yield`, `exit`, `sleep`, `wakeup`, `sys_sleep` and
`clockintr` on `H` harts and `N` processes. A hart executes the code of its scheduler or of the process
that runs on it; an action lets one hart take its next step, so a list of actions is an interleaving.
A hart at an `acquire` spins there, with the locks it holds, until the lock is free.

The locks are `tickslock` and the `p->lock` of each process. `sched` records the tick in
`p->last_executed`, and acquires `tickslock` for it while it holds `p->lock`. Locks of other parts of
the kernel are left out, and with them what they exclude. -/

namespace OsLabs

namespace Sched

/-! ## State -/

/-- The states of a process. -/
inductive ProcState
  | unused
  | sleeping
  | runnable
  | running
  | zombie
  deriving DecidableEq, Repr

/-- The addresses processes sleep on: `&ticks`, and those of other parts of the kernel. -/
inductive Chan
  | ticks
  | other (c : Nat)
  deriving DecidableEq, Repr

/-- The callers of `sleep(chan, lk)`: `sys_sleep` with its local variables, which passes `tickslock`,
and other code, which passes another lock. -/
inductive Sleeper
  | ticks (ticks0 n : BitVec 32)
  | other (c : Nat)
  deriving DecidableEq, Repr

/-- The channel of a caller of `sleep`. -/
def Sleeper.chan : Sleeper → Chan
  | .ticks _ _ => .ticks
  | .other c => .other c

/-- Where interrupts are on, and no lock is held: user code (and kernel code without locks), the loop
of `scheduler` before `acquire(&p->lock)`, the first `acquire` of `sys_sleep`, the last one of `sleep`,
and the loop of a `wakeup` that is called without `tickslock`. -/
inductive Point (N : Nat)
  | user
  | scan (p : Fin N)
  | napAcquire (n : BitVec 32)
  | relock (s : Sleeper)
  | wake (c : Nat) (todo : List (Fin N))
  deriving DecidableEq, Repr

/-- Where a process goes on when `swtch` returns to it: in `forkret`, or in the caller of `sched`. -/
inductive Resume (N : Nat)
  | fork
  | yield (pt : Point N)
  | sleep (s : Sleeper)
  | exit
  deriving DecidableEq, Repr

/-- The steps of `sched`: `acquire(&tickslock)`, the assignment of `p->last_executed`,
`release(&tickslock)`, and `swtch`. -/
inductive Stage
  | acquire
  | read
  | release
  | swtch
  deriving DecidableEq, Repr

/-- Where a hart is. -/
inductive Pc (N : Nat)
  | at (pt : Point N)
  | scanTest (p : Fin N)
  | scanRelease (p : Fin N)
  | yieldAcquire (pt : Point N)
  | yieldSet (pt : Point N)
  | yieldRelease (pt : Point N)
  | sched (stage : Stage) (r : Resume N)
  | napStart (n : BitVec 32)
  | napLoop (ticks0 n : BitVec 32)
  | killedAcquire (ticks0 n : BitVec 32)
  | killedRelease (ticks0 n : BitVec 32)
  | napRelease
  | sleepAcquire (s : Sleeper)
  | sleepUnlock (s : Sleeper)
  | sleepSet (s : Sleeper)
  | sleepTidy (s : Sleeper)
  | exitAcquire
  | exitSet
  | clockAcquire (pt : Point N)
  | clockTick (pt : Point N)
  | clockWake (todo : List (Fin N)) (pt : Point N)
  | clockVisit (q : Fin N) (todo : List (Fin N)) (pt : Point N)
  | clockRelease (pt : Point N)
  | wakeVisit (c : Nat) (q : Fin N) (todo : List (Fin N))
  | forkret
  | zombie
  deriving DecidableEq, Repr

/-- `struct proc`, with the two counters of the statistics; `context` is where it resumes. -/
structure Proc (N : Nat) where
  state : ProcState
  chan : Option Chan
  killed : Bool
  chCounter : BitVec 32
  lastExecuted : BitVec 32
  context : Resume N

/-- `struct cpu`, with the code that the hart executes. -/
structure Hart (N : Nat) where
  proc : Option (Fin N)
  pc : Pc N

/-- The locks, by the hart that holds them, the tick counter, the process table and the harts. -/
structure State (H N : Nat) where
  ticks : BitVec 32
  tickslock : Option (Fin H)
  plock : Fin N → Option (Fin H)
  procs : Fin N → Proc N
  harts : Fin H → Hart N

/-- What a process can ask for: `sys_sleep(n)`, `exit`, a `sleep` on another channel, and a `wakeup` of
another channel. -/
inductive Syscall
  | sleep (n : BitVec 32)
  | exit
  | sleepOn (c : Nat)
  | wakeup (c : Nat)
  deriving DecidableEq, Repr

/-- One step of the system: a hart takes its next step, its process enters the kernel, it gets a timer
interrupt, or some process is marked killed. -/
inductive Action (H N : Nat)
  | run (h : Fin H)
  | call (h : Fin H) (c : Syscall)
  | timer (h : Fin H)
  | kill (p : Fin N)
  deriving DecidableEq, Repr

variable {H N : Nat}

namespace State

/-- Hart `h` goes on at `pc`. -/
def goto (k : State H N) (h : Fin H) (pc : Pc N) : State H N :=
  { k with harts := Function.update k.harts h { k.harts h with pc := pc } }

/-- Replace the record of process `p`. -/
def setProc (k : State H N) (p : Fin N) (x : Proc N) : State H N :=
  { k with procs := Function.update k.procs p x }

/-- The process that `myproc()` returns on hart `h`, if there is one. -/
def withProc (k : State H N) (h : Fin H) (f : Fin N → Option (State H N)) : Option (State H N) :=
  match (k.harts h).proc with
  | none => none
  | some p => f p

/-- The processes that the loop of `wakeup` visits on hart `h`: all but its own. -/
def others (k : State H N) (h : Fin H) : List (Fin N) :=
  (List.finRange N).filter fun p => (k.harts h).proc ≠ some p

end State

/-! ## Locks -/

/-- `acquire(&tickslock)` on hart `h`. -/
def acquireTicks (k : State H N) (h : Fin H) (pc : Pc N) : Option (State H N) :=
  match k.tickslock with
  | none => some (State.goto { k with tickslock := some h } h pc)
  | some _ => none

/-- `release(&tickslock)`; a hart that does not hold it panics. -/
def releaseTicks (k : State H N) (h : Fin H) (pc : Pc N) : Option (State H N) :=
  if k.tickslock = some h then some (State.goto { k with tickslock := none } h pc) else none

/-- `acquire(&p->lock)` on hart `h`. -/
def acquireProc (k : State H N) (h : Fin H) (p : Fin N) (pc : Pc N) : Option (State H N) :=
  match k.plock p with
  | none => some (State.goto { k with plock := Function.update k.plock p (some h) } h pc)
  | some _ => none

/-- `release(&p->lock)`; a hart that does not hold it panics. -/
def releaseProc (k : State H N) (h : Fin H) (p : Fin N) (pc : Pc N) : Option (State H N) :=
  if k.plock p = some h then
    some (State.goto { k with plock := Function.update k.plock p none } h pc)
  else none

/-! ## The code -/

/-- The record that `wakeup(c)` leaves of a process it visits. -/
def wake (c : Chan) (x : Proc N) : Proc N :=
  if x.state = .sleeping ∧ x.chan = some c then { x with state := .runnable } else x

/-- The process after `p` in the loop of `scheduler`, which starts again at the end of the table. -/
def nextProc (p : Fin N) : Fin N :=
  ⟨(p.val + 1) % N, Nat.mod_lt _ p.pos⟩

/-- The code that a process resumes. -/
def Resume.pc : Resume N → Pc N
  | .fork => .forkret
  | .yield pt => .yieldRelease pt
  | .sleep s => .sleepTidy s
  | .exit => .zombie

/-- The next step of a hart at a point without locks. -/
def nextAt (k : State H N) (h : Fin H) : Point N → Option (State H N)
  | .user => none
  | .scan p => acquireProc k h p (.scanTest p)
  | .napAcquire n => acquireTicks k h (.napStart n)
  | .relock (.ticks ticks0 n) => acquireTicks k h (.napLoop ticks0 n)
  | .relock (.other _) => some (k.goto h (.at .user))
  | .wake _ [] => some (k.goto h (.at .user))
  | .wake c (q :: todo) => acquireProc k h q (.wakeVisit c q todo)

/-- The next step of a hart in `sched`. -/
def nextSched (k : State H N) (h : Fin H) (r : Resume N) : Stage → Option (State H N)
  | .acquire => acquireTicks k h (.sched .read r)
  | .read => k.withProc h fun p =>
      some ((k.setProc p { k.procs p with lastExecuted := k.ticks }).goto h (.sched .release r))
  | .release => releaseTicks k h (.sched .swtch r)
  | .swtch => k.withProc h fun p =>
      let k₁ := k.setProc p { k.procs p with context := r }
      some { k₁ with harts := Function.update k₁.harts h ⟨none, .scanRelease p⟩ }

/-- What follows the interrupt handler of a timer: `yield`, if a process runs on the hart. -/
def afterTimer (k : State H N) (h : Fin H) (pt : Point N) : Pc N :=
  match (k.harts h).proc with
  | none => .at pt
  | some p => if (k.procs p).state = .running then .yieldAcquire pt else .at pt

/-- The next step of hart `h`. -/
def next (k : State H N) (h : Fin H) : Pc N → Option (State H N)
  | .at pt => nextAt k h pt
  -- scheduler
  | .scanTest p =>
      if (k.procs p).state = .runnable then
        let k₁ := k.setProc p
          { k.procs p with state := .running, chCounter := (k.procs p).chCounter + 1 }
        some { k₁ with harts := Function.update k₁.harts h ⟨some p, (k.procs p).context.pc⟩ }
      else some (k.goto h (.scanRelease p))
  | .scanRelease p => releaseProc k h p (.at (.scan (nextProc p)))
  -- yield
  | .yieldAcquire pt => k.withProc h fun p => acquireProc k h p (.yieldSet pt)
  | .yieldSet pt => k.withProc h fun p =>
      some ((k.setProc p { k.procs p with state := .runnable }).goto h (.sched .acquire (.yield pt)))
  | .yieldRelease pt => k.withProc h fun p => releaseProc k h p (.at pt)
  -- sched
  | .sched stage r => nextSched k h r stage
  -- sys_sleep, with the call of `killed`
  | .napStart n => some (k.goto h (.napLoop k.ticks n))
  | .napLoop ticks0 n =>
      if k.ticks - ticks0 < n then some (k.goto h (.killedAcquire ticks0 n))
      else some (k.goto h .napRelease)
  | .killedAcquire ticks0 n => k.withProc h fun p => acquireProc k h p (.killedRelease ticks0 n)
  | .killedRelease ticks0 n => k.withProc h fun p =>
      releaseProc k h p (if (k.procs p).killed then .napRelease else .sleepAcquire (.ticks ticks0 n))
  | .napRelease => releaseTicks k h (.at .user)
  -- sleep
  | .sleepAcquire s => k.withProc h fun p => acquireProc k h p (.sleepUnlock s)
  | .sleepUnlock (.ticks ticks0 n) => releaseTicks k h (.sleepSet (.ticks ticks0 n))
  | .sleepUnlock (.other c) => some (k.goto h (.sleepSet (.other c)))
  | .sleepSet s => k.withProc h fun p =>
      some ((k.setProc p { k.procs p with chan := some s.chan, state := .sleeping }).goto h
        (.sched .acquire (.sleep s)))
  | .sleepTidy s => k.withProc h fun p =>
      releaseProc (k.setProc p { k.procs p with chan := none }) h p (.at (.relock s))
  -- exit
  | .exitAcquire => k.withProc h fun p => acquireProc k h p .exitSet
  | .exitSet => k.withProc h fun p =>
      some ((k.setProc p { k.procs p with state := .zombie }).goto h (.sched .acquire .exit))
  -- clockintr
  | .clockAcquire pt => acquireTicks k h (.clockTick pt)
  | .clockTick pt =>
      some (State.goto { k with ticks := k.ticks + 1 } h (.clockWake (k.others h) pt))
  | .clockWake [] pt => some (k.goto h (.clockRelease pt))
  | .clockWake (q :: todo) pt => acquireProc k h q (.clockVisit q todo pt)
  | .clockVisit q todo pt =>
      releaseProc (k.setProc q (wake .ticks (k.procs q))) h q (.clockWake todo pt)
  | .clockRelease pt => releaseTicks k h (afterTimer k h pt)
  -- wakeup, called without `tickslock`
  | .wakeVisit c q todo =>
      releaseProc (k.setProc q (wake (.other c) (k.procs q))) h q (.at (.wake c todo))
  -- forkret
  | .forkret => k.withProc h fun p => releaseProc k h p (.at .user)
  | .zombie => none

/-- The first step of a system call of the process on hart `h`. -/
def entry (k : State H N) (h : Fin H) : Syscall → Pc N
  | .sleep n => .at (.napAcquire n)
  | .exit => .exitAcquire
  | .sleepOn c => .sleepAcquire (.other c)
  | .wakeup c => .at (.wake c (k.others h))

/-- A timer interrupt at a point where interrupts are on: only hart 0 runs `clockintr`. -/
def interrupt (k : State H N) (h : Fin H) (pt : Point N) : Pc N :=
  if h.val = 0 then .clockAcquire pt else afterTimer k h pt

/-- The record that `kill` leaves of a process. -/
def markKilled (x : Proc N) : Proc N :=
  { x with
    killed := true
    state := if x.state = .sleeping then .runnable else x.state }

/-- One step of the system. -/
def step (k : State H N) : Action H N → Option (State H N × List Empty)
  | .run h => (next k h (k.harts h).pc).map fun k' => (k', [])
  | .call h c =>
      if (k.harts h).pc = .at .user ∧ (k.harts h).proc ≠ none then
        some (k.goto h (entry k h c), [])
      else none
  | .timer h =>
      match (k.harts h).pc with
      | .at pt => some (k.goto h (interrupt k h pt), [])
      | _ => none
  | .kill p =>
      -- a section under `p->lock` of a process on some hart
      if k.plock p = none then some (k.setProc p (markKilled (k.procs p)), []) else none

/-- Every hart is in the loop of `scheduler`, and no lock is held. -/
structure Booted (k : State H N) : Prop where
  tickslock : k.tickslock = none
  plock : ∀ p, k.plock p = none
  idle : ∀ h, (k.harts h).proc = none ∧ ∃ p, (k.harts h).pc = .at (.scan p)

/-! ## Waiting -/

/-- The locks of the system. -/
inductive Lock (N : Nat)
  | ticks
  | proc (p : Fin N)
  deriving DecidableEq, Repr

/-- The hart that holds a lock. -/
def State.holder (k : State H N) : Lock N → Option (Fin H)
  | .ticks => k.tickslock
  | .proc p => k.plock p

/-- The lock that a hart at a point without locks is waiting for. -/
def Point.wants : Point N → Option (Lock N)
  | .scan p => some (.proc p)
  | .napAcquire _ | .relock (.ticks _ _) => some .ticks
  | .wake _ (q :: _) => some (.proc q)
  | .user | .relock (.other _) | .wake _ [] => none

/-- The lock that a hart is waiting for: the one of the `acquire` it is at. -/
def Hart.wants (x : Hart N) : Option (Lock N) :=
  match x.pc with
  | .at pt => pt.wants
  | .yieldAcquire _ | .killedAcquire _ _ | .sleepAcquire _ | .exitAcquire => x.proc.map .proc
  | .sched .acquire _ | .clockAcquire _ => some .ticks
  | .clockWake (q :: _) _ => some (.proc q)
  | _ => none

/-- A cycle of harts that each hold a lock and wait for the one held by the next. -/
def State.LockCycle (k : State H N) : Prop :=
  WaitFor.Deadlocked (fun h => (k.harts h).wants) k.holder

end Sched

end OsLabs
