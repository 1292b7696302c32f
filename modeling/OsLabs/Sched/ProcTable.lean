import OsLabs.Lib.Transition
import Mathlib

/-! # The process table and its statistics

The slots of `proc[NPROC]` over the life of their processes: `allocproc` and `freeproc`, `fork`, `exit`,
`wait`, `yield`, `sleep`, `wakeup`, `kill`, the loop of `scheduler`, and `pstat`, which prints the counters
of a slot. A call is one step here; the order of the steps of the harts is arbitrary. Of `struct proc` the
model keeps what these functions test and what `pstat` prints.

An event of a run is a switch of `scheduler` to a process, or the way of a process through `sched`; both
carry the pid. `step_change` lists once what a step can do to the table. -/

namespace OsLabs

namespace Procs

/-! ## State -/

/-- `NPROC`. -/
abbrev nproc : Nat := 64

/-- `NCPU`. -/
abbrev ncpu : Nat := 8

/-- A slot of the table. -/
abbrev Slot := Fin nproc

/-- `int`. -/
abbrev CInt := BitVec 32

/-- `enum procstate`. -/
inductive ProcState
  | unused
  | used
  | sleeping
  | runnable
  | running
  | zombie
  deriving DecidableEq, Repr

/-- What a process can sleep on: a slot (in `wait`), `&ticks`, and other addresses. -/
inductive Chan
  | proc (p : Slot)
  | ticks
  | other (c : Nat)
  deriving DecidableEq, Repr

/-- `struct proc`. -/
structure Proc where
  state : ProcState
  chan : Option Chan
  killed : Bool
  xstate : CInt
  pid : CInt
  parent : Option Slot
  chCounter : CInt
  prio : CInt
  lastExecuted : CInt
  deriving DecidableEq, Repr

/-- `struct cpu`, with the slot that its scheduler looks at next. -/
structure Cpu where
  proc : Option Slot
  scan : Slot
  deriving DecidableEq, Repr

/-- The table, the variables of the kernel, and the harts. -/
structure State where
  proc : Slot → Proc
  nextpid : CInt
  ticks : BitVec 32
  initproc : Option Slot
  cpus : Fin ncpu → Cpu

/-- Assign to a slot of the table. -/
def State.setProc (s : State) (p : Slot) (x : Proc) : State := { s with proc := Function.update s.proc p x }

/-- Assign to a hart. -/
def State.setCpu (s : State) (c : Fin ncpu) (x : Cpu) : State := { s with cpus := Function.update s.cpus c x }

/-- `myproc`. -/
def State.myproc (s : State) (c : Fin ncpu) : Option Slot := (s.cpus c).proc

/-- What happens to a process: `scheduler` switches to it, or it goes through `sched` at a tick. -/
inductive Event
  | switched (pid : CInt)
  | sched (pid : CInt) (tick : BitVec 32)
  deriving DecidableEq, Repr

/-! ## Allocation -/

/-- The slot `allocproc` finds. -/
def firstUnused (s : State) : Option Slot :=
  (List.finRange nproc).find? fun p => (s.proc p).state = .unused

/-- `freeproc`. The counters and the priority stay. -/
def freeproc (s : State) (p : Slot) : State :=
  s.setProc p { s.proc p with
    pid := 0, parent := none, chan := none, killed := false, xstate := 0, state := .unused }

/-- Assign to a slot of the table, with the next pid. -/
def State.take (s : State) (p : Slot) (x : Proc) : State := { s.setProc p x with nextpid := s.nextpid + 1 }

/-- `allocproc`: the slot it returns, and `none` for `0`. `memory` says whether the trapframe and the page
table can be allocated. -/
def allocproc (s : State) (memory : Bool) : Option Slot × State :=
  match firstUnused s with
  | none => (none, s)
  | some p =>
      let s' := s.take p { s.proc p with pid := s.nextpid, state := .used }
      if memory then (some p, s') else (none, freeproc s' p)

/-- The memory of the kernel before its first instruction, and `procinit`. -/
def procinit : State where
  proc _ := ⟨.unused, none, false, 0, 0, none, 0, 0, 0⟩
  nextpid := 1
  ticks := 0
  initproc := none
  cpus _ := ⟨none, 0⟩

/-- `userinit`. -/
def userinit (s : State) : State :=
  match allocproc s true with
  | (none, s) => s
  | (some p, s) => { s.setProc p { s.proc p with state := .runnable } with initproc := some p }

/-- The kernel when its schedulers start. -/
def boot : State := userinit procinit

/-! ## Sleeping and waking -/

/-- `wakeup`, called on a hart. -/
def wakeup (s : State) (c : Fin ncpu) (chan : Option Chan) : State :=
  { s with proc := fun p =>
      if some p ≠ s.myproc c ∧ (s.proc p).state = .sleeping ∧ (s.proc p).chan = chan then
        { s.proc p with state := .runnable }
      else s.proc p }

/-- `kill`; the slots are tried in order. -/
def kill (s : State) (pid : CInt) : State :=
  match (List.finRange nproc).find? fun p => (s.proc p).pid = pid with
  | none => s
  | some p =>
      s.setProc p { s.proc p with
        killed := true
        state := if (s.proc p).state = .sleeping then .runnable else (s.proc p).state }

/-- `sched` of the process in the slot `p`, and the way of its hart back to the loop of `scheduler`. -/
def sched (s : State) (c : Fin ncpu) (p : Slot) : State × List Event :=
  ((s.setProc p { s.proc p with lastExecuted := s.ticks }).setCpu c ⟨none, p + 1⟩,
    [.sched (s.proc p).pid s.ticks])

/-- `yield`. -/
def yield (s : State) (c : Fin ncpu) (p : Slot) : State × List Event :=
  sched (s.setProc p { s.proc p with state := .runnable }) c p

/-- `sleep`, up to its `sched`. -/
def sleep (s : State) (c : Fin ncpu) (p : Slot) (chan : Chan) : State × List Event :=
  sched (s.setProc p { s.proc p with chan := some chan, state := .sleeping }) c p

/-! ## The loop of `scheduler` -/

/-- One round: the process in the slot is switched to if it can run, and goes on behind its `sched`, where
`sleep` clears `p->chan`. -/
def visit (s : State) (c : Fin ncpu) : State × List Event :=
  let p := (s.cpus c).scan
  if (s.proc p).state = .runnable then
    ((s.setProc p { s.proc p with
        state := .running, chCounter := (s.proc p).chCounter + 1, chan := none }).setCpu c ⟨some p, p⟩,
      [.switched (s.proc p).pid])
  else (s.setCpu c ⟨none, p + 1⟩, [])

/-! ## `fork`, `exit` and `wait` -/

/-- `fork`; `copied` says whether `uvmcopy` succeeds. -/
def fork (s : State) (p : Slot) (memory copied : Bool) : State :=
  match allocproc s memory with
  | (none, s) => s
  | (some np, s) =>
      if copied then s.setProc np { s.proc np with parent := some p, state := .runnable }
      else freeproc s np

/-- `reparent`: the children of the process become those of `initproc`, which is woken for each. -/
def reparent (s : State) (c : Fin ncpu) (p : Slot) : State :=
  (List.finRange nproc).foldl (fun s pp =>
    if (s.proc pp).parent = some p then
      wakeup (s.setProc pp { s.proc pp with parent := s.initproc }) c (s.initproc.map .proc)
    else s) s

/-- `exit`; `none` is the panic of `initproc`. -/
def exit (s : State) (c : Fin ncpu) (p : Slot) (status : CInt) : Option (State × List Event) :=
  if some p = s.initproc then none
  else
    let s := reparent s c p
    let s := wakeup s c ((s.proc p).parent.map .proc)
    some (sched (s.setProc p { s.proc p with xstate := status, state := .zombie }) c p)

/-- A round of the loop of `wait`; `copyout` says that no address was given or `copyout` succeeds. -/
def wait (s : State) (c : Fin ncpu) (p : Slot) (copyout : Bool) : State × List Event :=
  let children := (List.finRange nproc).filter fun pp => (s.proc pp).parent = some p
  match children.find? fun pp => (s.proc pp).state = .zombie with
  | some pp => (if copyout then freeproc s pp else s, [])
  | none =>
      if children = [] ∨ (s.proc p).killed then (s, [])
      else sleep s c p (.proc p)

/-! ## Steps -/

/-- What can happen next on a hart: a round of its scheduler, a call of its process, or the clock. -/
inductive Action
  | visit (c : Fin ncpu)
  | yield (c : Fin ncpu)
  | sleep (c : Fin ncpu) (chan : Chan)
  | wakeup (c : Fin ncpu) (chan : Chan)
  | kill (c : Fin ncpu) (pid : CInt)
  | fork (c : Fin ncpu) (memory copied : Bool)
  | exit (c : Fin ncpu) (status : CInt)
  | wait (c : Fin ncpu) (copyout : Bool)
  | clockintr (c : Fin ncpu)
  deriving DecidableEq, Repr

/-- One step of the kernel. A scheduler runs on a hart without a process; all calls but a `wakeup` of an
interrupt are those of the process on the hart. -/
def step (s : State) : Action → Option (State × List Event)
  | .visit c => if s.myproc c = none then some (visit s c) else none
  | .yield c => (s.myproc c).map fun p => yield s c p
  | .sleep c chan => (s.myproc c).map fun p => sleep s c p chan
  | .wakeup c chan => some (wakeup s c (some chan), [])
  | .kill c pid => (s.myproc c).map fun _ => (kill s pid, [])
  | .fork c memory copied => (s.myproc c).map fun p => (fork s p memory copied, [])
  | .exit c status => (s.myproc c).bind fun p => exit s c p status
  | .wait c copyout => (s.myproc c).map fun p => wait s c p copyout
  | .clockintr c => some (wakeup { s with ticks := s.ticks + 1 } c (some .ticks), [])

/-! ## `pstat` -/

/-- What `pstat` prints of a slot. -/
structure Line where
  pid : CInt
  prio : CInt
  timesChoosen : CInt
  lastExec : CInt
  deriving DecidableEq, Repr

/-- `pstat`. -/
def pstat (s : State) (pid : CInt) : List Line :=
  ((List.finRange nproc).filter fun p => (s.proc p).pid = pid).map fun p =>
    ⟨pid, (s.proc p).prio, (s.proc p).chCounter, (s.proc p).lastExecuted⟩

/-! ## Quiet changes -/

section Quiet

variable {s s' s'' : State} {c : Fin ncpu} {p q : Slot} {x : Proc}

/-- The slot that was set holds what it was set to. -/
@[simp] theorem setProc_proc_self (s : State) (p : Slot) (x : Proc) : (s.setProc p x).proc p = x :=
  Function.update_self ..

/-- The other slots stay. -/
@[simp] theorem setProc_proc_ne (h : q ≠ p) (s : State) (x : Proc) : (s.setProc p x).proc q = s.proc q :=
  Function.update_of_ne h ..

/-- Setting a slot spends no pid. -/
@[simp] theorem setProc_nextpid (s : State) (p : Slot) (x : Proc) : (s.setProc p x).nextpid = s.nextpid := rfl

/-- Setting a slot does not move the clock. -/
@[simp] theorem setProc_ticks (s : State) (p : Slot) (x : Proc) : (s.setProc p x).ticks = s.ticks := rfl

/-- Setting a slot does not change what the harts run. -/
@[simp] theorem setProc_myproc (s : State) (p : Slot) (x : Proc) (c : Fin ncpu) :
    (s.setProc p x).myproc c = s.myproc c := rfl

/-- The hart that was set runs what it was set to. -/
@[simp] theorem setCpu_myproc_self (s : State) (c : Fin ncpu) (x : Cpu) : (s.setCpu c x).myproc c = x.proc := by
  simp [State.setCpu, State.myproc]

/-- The other harts go on running what they ran. -/
@[simp] theorem setCpu_myproc_ne {c' : Fin ncpu} (h : c' ≠ c) (s : State) (x : Cpu) :
    (s.setCpu c x).myproc c' = s.myproc c' := by
  simp [State.setCpu, State.myproc, h]

/-- Setting a hart changes no process. -/
@[simp] theorem setCpu_proc (s : State) (c : Fin ncpu) (x : Cpu) : (s.setCpu c x).proc = s.proc := rfl

/-- Setting a hart spends no pid. -/
@[simp] theorem setCpu_nextpid (s : State) (c : Fin ncpu) (x : Cpu) : (s.setCpu c x).nextpid = s.nextpid := rfl

/-- The slot keeps its pid and its counters; it is neither taken nor freed, and it neither starts nor stops
running. -/
structure Proc.Alike (x y : Proc) : Prop where
  pid : y.pid = x.pid
  chCounter : y.chCounter = x.chCounter
  lastExecuted : y.lastExecuted = x.lastExecuted
  unused : y.state = .unused ↔ x.state = .unused
  running : y.state = .running ↔ x.state = .running

/-- A process has the statistics that it has. -/
theorem Proc.Alike.refl (x : Proc) : Proc.Alike x x := ⟨rfl, rfl, rfl, Iff.rfl, Iff.rfl⟩

/-- Likeness is passed on. -/
theorem Proc.Alike.trans {x y z : Proc} (h : Proc.Alike x y) (h' : Proc.Alike y z) : Proc.Alike x z where
  pid := h'.pid.trans h.pid
  chCounter := h'.chCounter.trans h.chCounter
  lastExecuted := h'.lastExecuted.trans h.lastExecuted
  unused := h'.unused.trans h.unused
  running := h'.running.trans h.running

/-- A step on which no statistic depends. -/
structure Quiet (s s' : State) : Prop where
  alike : ∀ p, Proc.Alike (s.proc p) (s'.proc p)
  nextpid : s'.nextpid = s.nextpid
  myproc : ∀ c, s'.myproc c = s.myproc c

namespace Quiet

/-- Doing nothing is quiet. -/
theorem refl (s : State) : Quiet s s := ⟨fun p => .refl (s.proc p), rfl, fun _ => rfl⟩

/-- Quiet steps make up a quiet step. -/
theorem trans (h : Quiet s s') (h' : Quiet s' s'') : Quiet s s'' where
  alike p := (h.alike p).trans (h'.alike p)
  nextpid := h'.nextpid.trans h.nextpid
  myproc c := (h'.myproc c).trans (h.myproc c)

/-- Setting a slot is quiet when the process keeps what the statistics are made of. -/
theorem setProc (h : Proc.Alike (s.proc p) x) : Quiet s (s.setProc p x) where
  alike q := by
    by_cases hq : q = p
    · subst hq
      rwa [setProc_proc_self]
    · rw [setProc_proc_ne hq]
      exact .refl _
  nextpid := rfl
  myproc _ := rfl

/-- A woken process was asleep. -/
theorem wakeup (s : State) (c : Fin ncpu) (chan : Option Chan) : Quiet s (wakeup s c chan) where
  alike p := by
    unfold Procs.wakeup
    dsimp only
    split_ifs with h
    · exact ⟨rfl, rfl, rfl, by simp [h.2.1], by simp [h.2.1]⟩
    · exact .refl _
  nextpid := rfl
  myproc _ := rfl

/-- `kill` marks a process and makes a sleeping one runnable. -/
theorem kill (s : State) (pid : CInt) : Quiet s (kill s pid) := by
  unfold Procs.kill
  split
  · exact refl s
  · refine setProc ⟨rfl, rfl, rfl, ?_, ?_⟩
    · dsimp only
      split_ifs with h <;> simp [h]
    · dsimp only
      split_ifs with h <;> simp [h]

/-- The loop of `reparent` changes parents and wakes. -/
theorem reparent (s : State) (c : Fin ncpu) (p : Slot) : Quiet s (reparent s c p) := by
  unfold Procs.reparent
  generalize List.finRange nproc = slots
  induction slots generalizing s with
  | nil => exact refl s
  | cons pp slots ih =>
      rw [List.foldl_cons]
      refine Quiet.trans ?_ (ih _)
      split_ifs
      · have hset : Quiet s (s.setProc pp { s.proc pp with parent := s.initproc }) :=
          setProc ⟨rfl, rfl, rfl, Iff.rfl, Iff.rfl⟩
        exact hset.trans (wakeup _ c _)
      · exact refl s

end Quiet

/-- The slot taken holds the new process. -/
@[simp] theorem take_proc_self (s : State) (p : Slot) (x : Proc) : (s.take p x).proc p = x :=
  Function.update_self ..

/-- The other slots stay when one is taken. -/
@[simp] theorem take_proc_ne (h : q ≠ p) (s : State) (x : Proc) : (s.take p x).proc q = s.proc q :=
  Function.update_of_ne h ..

/-- Taking a slot does not change what the harts run. -/
@[simp] theorem take_myproc (s : State) (p : Slot) (x : Proc) (c : Fin ncpu) :
    (s.take p x).myproc c = s.myproc c := rfl

/-- A slot just taken may be set at once. -/
theorem setProc_take (s : State) (p : Slot) (x y : Proc) : (s.take p x).setProc p y = s.take p y := by
  simp [State.take, State.setProc]

/-- `wakeup` does not move the clock. -/
@[simp] theorem wakeup_ticks (s : State) (c : Fin ncpu) (chan : Option Chan) :
    (wakeup s c chan).ticks = s.ticks := rfl

/-- `reparent` wakes processes and does not move the clock. -/
theorem reparent_ticks (s : State) (c : Fin ncpu) (p : Slot) : (reparent s c p).ticks = s.ticks := by
  unfold reparent
  generalize List.finRange nproc = slots
  induction slots generalizing s with
  | nil => rfl
  | cons pp slots ih =>
      rw [List.foldl_cons, ih]
      split_ifs <;> rfl

end Quiet

/-! ## What a step can do -/

/-- The slot a successful `fork` takes. -/
def forkedSlot (s : State) : Action → Option Slot
  | .fork _ true true => firstUnused s
  | _ => none

/-- The largest `int`. -/
def intMax : Int := 2147483647

/-- The step does not take an `int` past its largest value: a switch increments `p->ch_counter`, a `fork`
increments `nextpid`, and the others may assign `ticks` to `p->last_executed`. -/
def WithinInts (s : State) : Action → Prop
  | .visit c =>
      (s.proc (s.cpus c).scan).state = .runnable → (s.proc (s.cpus c).scan).chCounter.toInt < intMax
  | .fork _ _ _ => s.nextpid.toInt < intMax
  | .wakeup _ _ | .kill _ _ | .clockintr _ => True
  | .yield _ | .sleep _ _ | .exit _ _ | .wait _ _ => 0 ≤ s.ticks.toInt

instance (s : State) (a : Action) : Decidable (WithinInts s a) :=
  match a with
  | .visit c => inferInstanceAs (Decidable ((s.proc (s.cpus c).scan).state = .runnable → _))
  | .fork _ _ _ => inferInstanceAs (Decidable (s.nextpid.toInt < intMax))
  | .wakeup _ _ => isTrue trivial
  | .kill _ _ => isTrue trivial
  | .clockintr _ => isTrue trivial
  | .yield _ => inferInstanceAs (Decidable (0 ≤ s.ticks.toInt))
  | .sleep _ _ => inferInstanceAs (Decidable (0 ≤ s.ticks.toInt))
  | .exit _ _ => inferInstanceAs (Decidable (0 ≤ s.ticks.toInt))
  | .wait _ _ => inferInstanceAs (Decidable (0 ≤ s.ticks.toInt))

/-- What a step can do, with the events it emits. -/
inductive Change (s : State) (a : Action) : State → List Event → Prop
  /-- Nothing that matters for the statistics. -/
  | quiet {s' : State} (hfork : forkedSlot s a = none) (h : Quiet s s') : Change s a s' []
  /-- A scheduler switches to the process in a slot. -/
  | switched {c : Fin ncpu} {p : Slot} {x : Proc} {scan : Slot} (hfork : forkedSlot s a = none)
      (hidle : s.myproc c = none) (hrunnable : (s.proc p).state = .runnable)
      (hints : WithinInts s a → (s.proc p).chCounter.toInt < intMax)
      (hpid : x.pid = (s.proc p).pid) (hstate : x.state = .running)
      (hcount : x.chCounter = (s.proc p).chCounter + 1) (hlast : x.lastExecuted = (s.proc p).lastExecuted) :
      Change s a ((s.setProc p x).setCpu c ⟨some p, scan⟩) [.switched (s.proc p).pid]
  /-- The process on a hart goes through `sched`. -/
  | left {c : Fin ncpu} {p : Slot} {x : Proc} {scan : Slot} {s₁ : State} (hfork : forkedSlot s a = none)
      (hproc : s.myproc c = some p) (hquiet : Quiet s s₁)
      (hints : WithinInts s a → 0 ≤ s.ticks.toInt)
      (hpid : x.pid = (s.proc p).pid) (hstate : x.state ≠ .unused ∧ x.state ≠ .running)
      (hcount : x.chCounter = (s.proc p).chCounter) (hlast : x.lastExecuted = s.ticks) :
      Change s a ((s₁.setProc p x).setCpu c ⟨none, scan⟩) [.sched (s.proc p).pid s.ticks]
  /-- A slot is taken for a new process. -/
  | forked {p : Slot} {x : Proc} (hfork : forkedSlot s a = some p) (hunused : (s.proc p).state = .unused)
      (hints : WithinInts s a → s.nextpid.toInt < intMax)
      (hpid : x.pid = s.nextpid) (hstate : x.state = .runnable)
      (hcount : x.chCounter = (s.proc p).chCounter) (hlast : x.lastExecuted = (s.proc p).lastExecuted) :
      Change s a (s.take p x) []
  /-- A pid is spent on a process that could not be made. -/
  | spent {p : Slot} {x : Proc} (hfork : forkedSlot s a = none) (hunused : (s.proc p).state = .unused)
      (hints : WithinInts s a → s.nextpid.toInt < intMax) (hpid : x.pid = 0) (hstate : x.state = .unused) :
      Change s a (s.take p x) []
  /-- The slot of a zombie is freed. -/
  | freed {p : Slot} {x : Proc} (hfork : forkedSlot s a = none) (hzombie : (s.proc p).state = .zombie)
      (hpid : x.pid = 0) (hstate : x.state = .unused) : Change s a (s.setProc p x) []

section Change

variable {s s' : State} {a : Action} {c : Fin ncpu} {p : Slot} {new : List Event}

/-- `allocproc` takes a slot that is `UNUSED`. -/
theorem firstUnused_state (h : firstUnused s = some p) : (s.proc p).state = .unused := by
  have := List.find?_some h
  simpa using this

/-- A visit of the scheduler switches to a runnable process, or passes it by. -/
theorem change_visit (hidle : s.myproc c = none) : Change s (.visit c) (visit s c).1 (visit s c).2 := by
  unfold visit
  dsimp only
  split_ifs with h
  · have hints : WithinInts s (.visit c) → (s.proc (s.cpus c).scan).chCounter.toInt < intMax := fun hints => hints h
    refine .switched ?_ hidle h hints ?_ ?_ ?_ ?_ <;> rfl
  · refine .quiet rfl ⟨fun p => .refl (s.proc p), rfl, fun c' => ?_⟩
    by_cases hc : c' = c
    · subst hc
      rw [setCpu_myproc_self, hidle]
    · rw [setCpu_myproc_ne hc]

/-- `sched` of a process whose state was just changed. -/
theorem change_sched {s₁ : State} {x : Proc} (hfork : forkedSlot s a = none) (hproc : s.myproc c = some p)
    (hquiet : Quiet s s₁) (hticks : s₁.ticks = s.ticks) (hints : WithinInts s a → 0 ≤ s.ticks.toInt)
    (hpid : x.pid = (s₁.proc p).pid) (hstate : x.state ≠ .unused ∧ x.state ≠ .running)
    (hcount : x.chCounter = (s₁.proc p).chCounter) :
    Change s a (sched (s₁.setProc p x) c p).1 (sched (s₁.setProc p x) c p).2 := by
  have hset : (s₁.setProc p x).setProc p { (s₁.setProc p x).proc p with lastExecuted := (s₁.setProc p x).ticks } =
      s₁.setProc p { x with lastExecuted := s₁.ticks } := by
    simp [State.setProc]
  have hpid' : x.pid = (s.proc p).pid := hpid.trans (hquiet.alike p).pid
  have hcount' : x.chCounter = (s.proc p).chCounter := hcount.trans (hquiet.alike p).chCounter
  have hevent : ((s₁.setProc p x).proc p).pid = (s.proc p).pid := by rw [setProc_proc_self, hpid']
  unfold sched
  rw [hset, hevent, setProc_ticks, hticks]
  exact .left hfork hproc hquiet hints hpid' hstate hcount' rfl

/-- `exit` hands the children over, wakes the parent and leaves through `sched`. -/
theorem change_exit {status : CInt} (hproc : s.myproc c = some p)
    (h : exit s c p status = some (s', new)) : Change s (.exit c status) s' new := by
  have hquiet := (Quiet.reparent s c p).trans (.wakeup _ c (((reparent s c p).proc p).parent.map .proc))
  have hticks := (wakeup_ticks (reparent s c p) c (((reparent s c p).proc p).parent.map .proc)).trans
    (reparent_ticks s c p)
  unfold exit at h
  dsimp only at h
  generalize wakeup (reparent s c p) c (((reparent s c p).proc p).parent.map .proc) = s₁ at h hquiet hticks
  split_ifs at h with hinit
  have hchange : Change s (.exit c status)
      (sched (s₁.setProc p { s₁.proc p with xstate := status, state := .zombie }) c p).1
      (sched (s₁.setProc p { s₁.proc p with xstate := status, state := .zombie }) c p).2 :=
    change_sched rfl hproc hquiet hticks id rfl ⟨by simp, by simp⟩ rfl
  rw [Option.some.inj h] at hchange
  exact hchange

/-- `wait` frees a zombie, gives up, or sleeps and so leaves through `sched`. -/
theorem change_wait (copyout : Bool) (hproc : s.myproc c = some p) :
    Change s (.wait c copyout) (wait s c p copyout).1 (wait s c p copyout).2 := by
  unfold wait
  dsimp only
  split
  · rename_i pp hfind
    have hzombie : (s.proc pp).state = .zombie := by simpa using List.find?_some hfind
    cases copyout with
    | true => exact .freed rfl hzombie rfl rfl
    | false => exact .quiet rfl (.refl s)
  · split_ifs
    · exact .quiet rfl (.refl s)
    · exact change_sched rfl hproc (.refl s) rfl id rfl ⟨by simp, by simp⟩ rfl

/-- `fork` takes a slot, spends a pid and gives the slot back, or finds no slot. -/
theorem change_fork {memory copied : Bool} :
    Change s (.fork c memory copied) (fork s p memory copied) [] := by
  unfold fork allocproc
  cases hfirst : firstUnused s with
  | none =>
      refine .quiet ?_ (.refl s)
      cases memory <;> cases copied <;> first | rfl | exact hfirst
  | some np =>
      have hunused := firstUnused_state hfirst
      cases memory with
      | false =>
          -- the slot is taken and freed again
          show Change s _ (freeproc (s.take np _) np) []
          rw [freeproc, setProc_take]
          exact .spent rfl hunused id rfl rfl
      | true =>
          cases copied with
          | false =>
              show Change s _ (freeproc (s.take np _) np) []
              rw [freeproc, setProc_take]
              exact .spent rfl hunused id rfl rfl
          | true =>
              show Change s _ ((s.take np _).setProc np _) []
              rw [setProc_take, take_proc_self]
              exact .forked hfirst hunused id rfl rfl rfl rfl

/-- Every step is one of these changes. -/
theorem step_change (h : step s a = some (s', new)) : Change s a s' new := by
  cases a with
  | visit c =>
      rw [step] at h
      split_ifs at h with hidle
      have hchange := change_visit hidle
      rw [Option.some.inj h] at hchange
      exact hchange
  | yield c =>
      obtain ⟨p, hproc, heq⟩ := Option.map_eq_some_iff.mp h
      cases heq
      exact change_sched rfl hproc (.refl s) rfl id rfl ⟨by simp, by simp⟩ rfl
  | sleep c chan =>
      obtain ⟨p, hproc, heq⟩ := Option.map_eq_some_iff.mp h
      cases heq
      exact change_sched rfl hproc (.refl s) rfl id rfl ⟨by simp, by simp⟩ rfl
  | wakeup c chan =>
      cases h
      exact .quiet rfl (.wakeup s c _)
  | kill c pid =>
      obtain ⟨p, hproc, heq⟩ := Option.map_eq_some_iff.mp h
      cases heq
      exact .quiet rfl (.kill s pid)
  | fork c memory copied =>
      obtain ⟨p, hproc, heq⟩ := Option.map_eq_some_iff.mp h
      cases heq
      exact change_fork
  | exit c status =>
      obtain ⟨p, hproc, heq⟩ := Option.bind_eq_some_iff.mp h
      exact change_exit hproc heq
  | wait c copyout =>
      obtain ⟨p, hproc, heq⟩ := Option.map_eq_some_iff.mp h
      have hchange := change_wait copyout hproc
      rw [heq] at hchange
      exact hchange
  -- the tick itself comes first, and the sleepers on `ticks` are woken
  | clockintr c =>
      cases h
      have htick : Quiet s { s with ticks := s.ticks + 1 } := ⟨fun p => .refl _, rfl, fun _ => rfl⟩
      exact .quiet rfl (htick.trans (.wakeup _ c _))

end Change

end Procs

end OsLabs
