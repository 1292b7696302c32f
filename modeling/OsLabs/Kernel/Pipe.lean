import OsLabs.Lib.Simulation

/-! # Pipes

`pipewrite`, `piperead` and `pipeclose` by any number of processes, one access to the pipe at a time. The counters
`nread` and `nwrite` are of type `uint` and wrap around; a process sleeps where the code sleeps, and goes on from
there once it was woken up and has the lock again.

The specification (`Spec`) is a queue of at most `PIPESIZE` bytes, and for each process its call and how many bytes
the call has moved. `pipe_refines`: the events of every run are those of the specification, whatever the order of
the accesses; so no byte is lost between writers and readers, none comes twice, and they come in order. -/

namespace OsLabs.Kernel

namespace Pipes

open Transition

/-! ## State -/

/-- `PIPESIZE`. -/
def pipesize : Nat := 512

/-- The number of values of a `uint`. -/
def uintMod : Nat := 0x100000000

/-- A call: `pipewrite` of `n` bytes, with those that `copyin` finds at the address; `piperead` of `n` bytes, with the
number that `copyout` has room for. -/
inductive Call
  | write (mem : List UInt8) (n : Int)
  | read (room : Nat) (n : Int)
  deriving DecidableEq

/-- What a process does next. -/
inductive Pc
  | caller
  | writeAcquire (mem : List UInt8) (n : Int) (i : Nat)
  | writeTest (mem : List UInt8) (n : Int) (i : Nat)
  | writeStore (mem : List UInt8) (n : Int) (i : Nat) (ch : UInt8)
  | writeCount (mem : List UInt8) (n : Int) (i : Nat) (ch : UInt8)
  | writeSleep (mem : List UInt8) (n : Int) (i : Nat)
  | readAcquire (room : Nat) (n : Int)
  | readTest (room : Nat) (n : Int)
  | readSleep (room : Nat) (n : Int)
  | readCopy (room : Nat) (n : Int) (i : Nat)
  | readCount (room : Nat) (n : Int) (i : Nat) (ch : UInt8)
  | closeAcquire (writable : Bool)
  | closeFlag (writable : Bool)
  deriving DecidableEq

/-- `struct pipe`, and the processes. -/
structure State (P : Type) where
  data : Nat → UInt8
  nread : Nat
  nwrite : Nat
  readopen : Bool
  writeopen : Bool
  lock : Option P
  killed : P → Bool
  pc : P → Pc

/-- What a run reports. -/
inductive Event (P : Type)
  | called (p : P) (call : Call)
  | put (p : P) (ch : UInt8)
  | got (p : P) (ch : UInt8)
  | dropped (p : P) (ch : UInt8)
  | returned (p : P) (r : Int)
  deriving DecidableEq

/-- What can happen next. -/
inductive Action (P : Type)
  | call (p : P) (call : Call)
  | close (p : P) (writable : Bool)
  | kill (p : P)
  | run (p : P)
  deriving DecidableEq

variable {P : Type}

/-! ## Code -/

/-- `pipealloc`, with the bytes of the page before. -/
def pipealloc (data : Nat → UInt8) : State P :=
  ⟨data, 0, 0, true, true, none, fun _ => false, fun _ => .caller⟩

/-- A process that sleeps until there is something to read is woken up. -/
def Pc.wakeReader : Pc → Pc
  | .readSleep room n => .readAcquire room n
  | pc => pc

/-- A process that sleeps until there is room to write is woken up. -/
def Pc.wakeWriter : Pc → Pc
  | .writeSleep mem n i => .writeAcquire mem n i
  | pc => pc

section Steps

variable [DecidableEq P]

/-- A process goes on at another place. -/
def State.goto (s : State P) (p : P) (pc : Pc) : State P := { s with pc := Function.update s.pc p pc }

/-- `wakeup(&pi->nread)`. -/
def State.wakeReaders (s : State P) : State P := { s with pc := fun q => (s.pc q).wakeReader }

/-- `wakeup(&pi->nwrite)`. -/
def State.wakeWriters (s : State P) : State P := { s with pc := fun q => (s.pc q).wakeWriter }

/-- `acquire`; a process that finds the lock taken tries again. -/
def acquire (s : State P) (p : P) (pc : Pc) : State P :=
  if s.lock = none then { s with lock := some p }.goto p pc else s

/-- `release`. -/
def release (s : State P) (p : P) (pc : Pc) : State P := { s with lock := none }.goto p pc

/-- The end of `pipewrite`. -/
def endWrite (s : State P) (p : P) (i : Nat) : State P × List (Event P) :=
  (release s.wakeReaders p .caller, [.returned p i])

/-- The end of `piperead`. -/
def endRead (s : State P) (p : P) (i : Nat) : State P × List (Event P) :=
  (release s.wakeWriters p .caller, [.returned p i])

/-- The next access of a process. What the tests of a loop read is protected by the lock, but for `killed`. -/
def next (s : State P) (p : P) : Option (State P × List (Event P)) :=
  match s.pc p with
  | .caller | .writeSleep _ _ _ | .readSleep _ _ => none
  | .writeAcquire mem n i => some (acquire s p (.writeTest mem n i), [])
  | .writeTest mem n i =>
      if (i : Int) < n then
        if s.readopen = false ∨ s.killed p = true then some (release s p .caller, [.returned p (-1)])
        else if s.nwrite = (s.nread + pipesize) % uintMod then
          some (release s.wakeReaders p (.writeSleep mem n i), [])
        else
          match mem[i]? with
          | none => some (endWrite s p i)
          | some ch => some (s.goto p (.writeStore mem n i ch), [])
      else some (endWrite s p i)
  | .writeStore mem n i ch =>
      some ({ s with data := Function.update s.data (s.nwrite % pipesize) ch }.goto p (.writeCount mem n i ch), [])
  | .writeCount mem n i ch =>
      some ({ s with nwrite := (s.nwrite + 1) % uintMod }.goto p (.writeTest mem n (i + 1)), [.put p ch])
  | .readAcquire room n => some (acquire s p (.readTest room n), [])
  | .readTest room n =>
      if s.nread = s.nwrite ∧ s.writeopen = true then
        if s.killed p = true then some (release s p .caller, [.returned p (-1)])
        else some (release s p (.readSleep room n), [])
      else some (s.goto p (.readCopy room n 0), [])
  | .readCopy room n i =>
      if (i : Int) < n then
        if s.nread = s.nwrite then some (endRead s p i)
        else some (s.goto p (.readCount room n i (s.data (s.nread % pipesize))), [])
      else some (endRead s p i)
  | .readCount room n i ch =>
      let s := { s with nread := (s.nread + 1) % uintMod }
      if i < room then some (s.goto p (.readCopy room n (i + 1)), [.got p ch])
      else some ((endRead s p i).1, .dropped p ch :: (endRead s p i).2)
  | .closeAcquire writable => some (acquire s p (.closeFlag writable), [])
  | .closeFlag writable =>
      if writable then some (release { s with writeopen := false }.wakeReaders p .caller, [])
      else some (release { s with readopen := false }.wakeWriters p .caller, [])

/-- Where a call begins. -/
def Call.start : Call → Pc
  | .write mem n => .writeAcquire mem n 0
  | .read room n => .readAcquire room n

/-- One step. A process that is killed while it sleeps is woken up. -/
def step (s : State P) : Action P → Option (State P × List (Event P))
  | .call p call => if s.pc p = .caller then some (s.goto p call.start, [.called p call]) else none
  | .close p writable => if s.pc p = .caller then some (s.goto p (.closeAcquire writable), []) else none
  | .kill p =>
      some ({ s with killed := Function.update s.killed p true }.goto p (s.pc p).wakeReader.wakeWriter, [])
  | .run p => next s p

end Steps

/-! ## The specification -/

namespace Spec

/-- The bytes in the pipe, and the calls with the number of bytes that they have moved. -/
structure State (P : Type) where
  queue : List UInt8
  busy : P → Option (Call × Nat)

/-- An empty pipe. -/
def init : State P := ⟨[], fun _ => none⟩

/-- The call has nothing more to do after `i` bytes. -/
def Done (queue : List UInt8) (i : Nat) : Call → Prop
  | .write mem n => n ≤ i ∨ mem.length ≤ i
  | .read room n => n ≤ i ∨ queue = [] ∨ room ≤ i

variable [DecidableEq P]

/-- What may happen. A byte that `copyout` has no room for is gone. A call that fails returns `-1`, and if it is one
of `piperead`, it has taken nothing. -/
inductive Step (v : State P) : Event P → State P → Prop
  | called {p : P} (call : Call) (hbusy : v.busy p = none) :
      Step v (.called p call) { v with busy := Function.update v.busy p (some (call, 0)) }
  | put {p : P} {mem : List UInt8} {n : Int} {i : Nat} {ch : UInt8} (hbusy : v.busy p = some (.write mem n, i))
      (hn : (i : Int) < n) (hch : mem[i]? = some ch) (hroom : v.queue.length < pipesize) :
      Step v (.put p ch) ⟨v.queue ++ [ch], Function.update v.busy p (some (.write mem n, i + 1))⟩
  | got {p : P} {room : Nat} {n : Int} {i : Nat} {ch : UInt8} {rest : List UInt8}
      (hbusy : v.busy p = some (.read room n, i)) (hn : (i : Int) < n) (hroom : i < room)
      (hqueue : v.queue = ch :: rest) :
      Step v (.got p ch) ⟨rest, Function.update v.busy p (some (.read room n, i + 1))⟩
  | dropped {p : P} {room : Nat} {n : Int} {i : Nat} {ch : UInt8} {rest : List UInt8}
      (hbusy : v.busy p = some (.read room n, i)) (hn : (i : Int) < n) (hroom : room ≤ i)
      (hqueue : v.queue = ch :: rest) : Step v (.dropped p ch) { v with queue := rest }
  | returned {p : P} {call : Call} {i : Nat} (hbusy : v.busy p = some (call, i)) (hdone : Done v.queue i call) :
      Step v (.returned p i) { v with busy := Function.update v.busy p none }
  | failed {p : P} {call : Call} {i : Nat} (hbusy : v.busy p = some (call, i))
      (hread : ∀ room n, call = .read room n → i = 0) :
      Step v (.returned p (-1)) { v with busy := Function.update v.busy p none }

end Spec

/-- The byte that was put into the pipe. -/
def Event.putByte : Event P → Option UInt8
  | .put _ ch => some ch
  | _ => none

/-- The byte that was taken out of the pipe. -/
def Event.takenByte : Event P → Option UInt8
  | .got _ ch | .dropped _ ch => some ch
  | _ => none

/-- The specification is that of a queue: what was put in comes out in order. -/
theorem Spec.accepted_queue [DecidableEq P] {v w : Spec.State P} {evs : List (Event P)}
    (h : Accepted Spec.Step v evs w) :
    v.queue ++ evs.filterMap Event.putByte = evs.filterMap Event.takenByte ++ w.queue := by
  induction h with
  | nil => simp
  | cons hstep _ ih =>
      cases hstep with
      | called | returned | failed => simpa [List.filterMap_cons, Event.putByte, Event.takenByte] using ih
      | put => simpa [List.filterMap_cons, Event.putByte, Event.takenByte] using ih
      | got _ _ _ hqueue => simpa [List.filterMap_cons, Event.putByte, Event.takenByte, hqueue] using ih
      | dropped _ _ _ hqueue => simpa [List.filterMap_cons, Event.putByte, Event.takenByte, hqueue] using ih

/-! ## The ring of bytes -/

/-- The ring holds the queue. -/
structure Ring (queue : List UInt8) (data : Nat → UInt8) (nread nwrite : Nat) : Prop where
  nread_lt : nread < uintMod
  length_le : queue.length ≤ pipesize
  counted : nwrite = (nread + queue.length) % uintMod
  stored : ∀ j, (hj : j < queue.length) → data ((nread + j) % pipesize) = queue[j]

namespace Ring

variable {queue rest : List UInt8} {data : Nat → UInt8} {nread nwrite : Nat} {ch : UInt8}

/-- The test for a full pipe is right while the counters wrap. -/
theorem full_iff (h : Ring queue data nread nwrite) :
    nwrite = (nread + pipesize) % uintMod ↔ queue.length = pipesize := by
  have hlt := h.nread_lt
  have hle := h.length_le
  rw [h.counted]
  simp only [uintMod, pipesize] at *
  omega

/-- The test for an empty pipe is right while the counters wrap. -/
theorem empty_iff (h : Ring queue data nread nwrite) : nread = nwrite ↔ queue = [] := by
  have hlt := h.nread_lt
  have hle := h.length_le
  rw [h.counted, ← List.length_eq_zero_iff]
  simp only [uintMod, pipesize] at *
  omega

/-- The place behind the queue is free, as `PIPESIZE` divides the number of values of a counter. -/
theorem store (h : Ring queue data nread nwrite) (hroom : queue.length < pipesize) (ch : UInt8) :
    Ring queue (Function.update data (nwrite % pipesize) ch) nread nwrite := by
  refine ⟨h.nread_lt, h.length_le, h.counted, fun j hj => ?_⟩
  rw [Function.update_of_ne, h.stored j hj]
  rw [h.counted]
  simp only [uintMod, pipesize] at *
  omega

/-- A byte written goes to the end of the queue. -/
theorem push (h : Ring queue data nread nwrite) (hroom : queue.length < pipesize)
    (hch : data (nwrite % pipesize) = ch) : Ring (queue ++ [ch]) data nread ((nwrite + 1) % uintMod) := by
  refine ⟨h.nread_lt, ?_, ?_, fun j hj => ?_⟩
  · rw [List.length_append, List.length_singleton]
    exact hroom
  · rw [h.counted, List.length_append, List.length_singleton, Nat.mod_add_mod, Nat.add_assoc]
  · by_cases hlt : j < queue.length
    · rw [List.getElem_append_left hlt, h.stored j hlt]
    · obtain rfl : j = queue.length := by
        rw [List.length_append, List.length_singleton] at hj
        omega
      rw [List.getElem_concat_length rfl, ← hch, h.counted]
      congr 1
      simp only [uintMod, pipesize]
      omega

/-- The byte to be read is the first of the queue. -/
theorem front (h : Ring (ch :: rest) data nread nwrite) : data (nread % pipesize) = ch := h.stored 0 (by simp)

/-- A byte read leaves the queue. -/
theorem pop (h : Ring (ch :: rest) data nread nwrite) : Ring rest data ((nread + 1) % uintMod) nwrite := by
  have hle := h.length_le
  have hlt := h.nread_lt
  have hcounted := h.counted
  rw [List.length_cons] at hle hcounted
  refine ⟨Nat.mod_lt _ (by decide), Nat.le_of_succ_le hle, ?_, fun j hj => ?_⟩
  · rw [hcounted, Nat.mod_add_mod]
    congr 1
    omega
  · have hstored := h.stored (j + 1) (by simpa using hj)
    rw [List.getElem_cons_succ] at hstored
    rw [← hstored]
    congr 1
    simp only [uintMod, pipesize] at *
    omega

end Ring

/-! ## The invariant -/

/-- The call that a process is in, with the number of bytes it has moved. -/
def Pc.call : Pc → Option (Call × Nat)
  | .caller | .closeAcquire _ | .closeFlag _ => none
  | .writeAcquire mem n i | .writeTest mem n i | .writeSleep mem n i => some (.write mem n, i)
  | .writeStore mem n i _ | .writeCount mem n i _ => some (.write mem n, i)
  | .readAcquire room n | .readTest room n | .readSleep room n => some (.read room n, 0)
  | .readCopy room n i | .readCount room n i _ => some (.read room n, i)

/-- The process holds the lock. -/
def Pc.inside : Pc → Bool
  | .writeTest _ _ _ | .writeStore _ _ _ _ | .writeCount _ _ _ _ => true
  | .readTest _ _ | .readCopy _ _ _ | .readCount _ _ _ _ | .closeFlag _ => true
  | _ => false

/-- What the next access of a process relies on. -/
def Pc.Relies (queue : List UInt8) (data : Nat → UInt8) (nwrite : Nat) : Pc → Prop
  | .writeStore mem n i ch => (i : Int) < n ∧ mem[i]? = some ch ∧ queue.length < pipesize
  | .writeCount mem n i ch =>
      (i : Int) < n ∧ mem[i]? = some ch ∧ queue.length < pipesize ∧ data (nwrite % pipesize) = ch
  | .readCount _ n i ch => (i : Int) < n ∧ queue.head? = some ch
  | _ => True

/-- A process without the lock relies on nothing. -/
theorem Pc.relies_of_outside {pc : Pc} (h : pc.inside = false) (queue : List UInt8) (data : Nat → UInt8)
    (nwrite : Nat) : pc.Relies queue data nwrite := by
  cases pc with
  | writeStore | writeCount | readCount => cases h
  | _ => trivial

/-- Waking up a process changes neither its call nor whether it holds the lock. -/
theorem Pc.wakeReader_alike (pc : Pc) : pc.wakeReader.call = pc.call ∧ pc.wakeReader.inside = pc.inside := by
  cases pc <;> exact ⟨rfl, rfl⟩

/-- A writer that is woken is in the same call, at the same side of the lock. -/
theorem Pc.wakeWriter_alike (pc : Pc) : pc.wakeWriter.call = pc.call ∧ pc.wakeWriter.inside = pc.inside := by
  cases pc <;> exact ⟨rfl, rfl⟩

/-- The pipe holds the queue, and the processes are in the calls; the one that is inside has the lock. -/
structure Refines (v : Spec.State P) (s : State P) : Prop where
  ring : Ring v.queue s.data s.nread s.nwrite
  busy : ∀ p, v.busy p = (s.pc p).call
  lock : ∀ p, (s.pc p).inside = true → s.lock = some p
  relies : ∀ p, (s.pc p).Relies v.queue s.data s.nwrite

section Refinement

variable [DecidableEq P] {v w : Spec.State P} {s s' t : State P} {p : P} {pc : Pc}

/-- The process that goes on is where it went. -/
@[simp] theorem goto_pc_self (s : State P) (p : P) (pc : Pc) : (s.goto p pc).pc p = pc :=
  Function.update_self _ _ _

/-- The other processes stay where they are. -/
theorem goto_pc_ne {q : P} (h : q ≠ p) (s : State P) (pc : Pc) : (s.goto p pc).pc q = s.pc q :=
  Function.update_of_ne h _ _

/-- A step of the process that holds the lock: the others rely on nothing. -/
theorem Refines.inside_step (h : Refines v s) (hp : (s.pc p).inside = true)
    (hring : Ring w.queue t.data t.nread t.nwrite) (hbusy : w.busy = Function.update v.busy p (t.pc p).call)
    (hothers : ∀ q, q ≠ p → (t.pc q).call = (s.pc q).call ∧ (t.pc q).inside = (s.pc q).inside)
    (hlock : (t.pc p).inside = true → t.lock = some p)
    (hrelies : (t.pc p).Relies w.queue t.data t.nwrite) : Refines w t := by
  have houtside {q : P} (hq : q ≠ p) : (t.pc q).inside = false := by
    rw [(hothers q hq).2, Bool.eq_false_iff]
    intro hinside
    exact hq (Option.some.inj ((h.lock q hinside).symm.trans (h.lock p hp)))
  refine ⟨hring, fun q => ?_, fun q hinside => ?_, fun q => ?_⟩
  · by_cases hq : q = p
    · rw [hq, hbusy, Function.update_self]
    · rw [hbusy, Function.update_of_ne hq, h.busy q, (hothers q hq).1]
  · by_cases hq : q = p
    · subst hq
      exact hlock hinside
    · rw [houtside hq] at hinside
      cases hinside
  · by_cases hq : q = p
    · subst hq
      exact hrelies
    · exact Pc.relies_of_outside (houtside hq) _ _ _

/-- The process that holds the lock goes on with it. -/
theorem Refines.goes (h : Refines v s) (hp : (s.pc p).inside = true) (hsame : s'.pc = s.pc) (hs : s'.lock = s.lock)
    (hring : Ring w.queue s'.data s'.nread s'.nwrite) (hbusy : w.busy = Function.update v.busy p pc.call)
    (hrelies : pc.Relies w.queue s'.data s'.nwrite) : Refines w (s'.goto p pc) :=
  h.inside_step hp hring (by rwa [goto_pc_self])
    (fun q hq => by rw [goto_pc_ne hq, hsame]; exact ⟨rfl, rfl⟩) (fun _ => hs.trans (h.lock p hp))
    (by rwa [goto_pc_self])

/-- The process that holds the lock releases it, after it may have woken up others. -/
theorem Refines.released (h : Refines v s) (hp : (s.pc p).inside = true)
    (hothers : ∀ q, (s'.pc q).call = (s.pc q).call ∧ (s'.pc q).inside = (s.pc q).inside)
    (hring : Ring w.queue s'.data s'.nread s'.nwrite) (hout : pc.inside = false)
    (hbusy : w.busy = Function.update v.busy p pc.call) : Refines w (release s' p pc) := by
  have hself : (release s' p pc).pc p = pc := goto_pc_self _ _ _
  refine h.inside_step hp hring (by rwa [hself]) (fun q hq => ?_) (fun hinside => ?_) ?_
  · rw [release, goto_pc_ne hq]
    exact hothers q
  · rw [hself, hout] at hinside
    cases hinside
  · rw [hself]
    exact Pc.relies_of_outside hout _ _ _

/-- A process that does not hold the lock moves to a place where it does not either. -/
theorem Refines.outside_step (h : Refines v s) (hout : pc.inside = false) (killed : P → Bool)
    (hbusy : w.busy = Function.update v.busy p pc.call) (hqueue : w.queue = v.queue) :
    Refines w ({ s with killed := killed }.goto p pc) := by
  refine ⟨by rw [hqueue]; exact h.ring, fun q => ?_, fun q hinside => ?_, fun q => ?_⟩
  · by_cases hq : q = p
    · subst hq
      rw [hbusy, Function.update_self, goto_pc_self]
    · rw [hbusy, Function.update_of_ne hq, h.busy q, goto_pc_ne hq]
  · by_cases hq : q = p
    · subst hq
      rw [goto_pc_self, hout] at hinside
      cases hinside
    · rw [goto_pc_ne hq] at hinside
      exact h.lock q hinside
  · by_cases hq : q = p
    · subst hq
      rw [goto_pc_self]
      exact Pc.relies_of_outside hout _ _ _
    · rw [goto_pc_ne hq, hqueue]
      exact h.relies q

/-- `acquire` is safe: nobody is inside when the lock is free. -/
theorem Refines.acquire (h : Refines v s) (hcall : pc.call = (s.pc p).call)
    (hrelies : ∀ data nwrite, pc.Relies v.queue data nwrite) : Refines v (acquire s p pc) := by
  unfold OsLabs.Kernel.Pipes.acquire
  split_ifs with hlock
  · have houtside (q : P) : (s.pc q).inside = false := by
      rw [Bool.eq_false_iff]
      intro hinside
      cases (h.lock q hinside).symm.trans hlock
    refine ⟨h.ring, fun q => ?_, fun q hinside => ?_, fun q => ?_⟩
    · by_cases hq : q = p
      · rw [hq, goto_pc_self, hcall, h.busy p]
      · rw [goto_pc_ne hq]
        exact h.busy q
    · by_cases hq : q = p
      · rw [hq]
        rfl
      · rw [goto_pc_ne hq, houtside q] at hinside
        cases hinside
    · by_cases hq : q = p
      · rw [hq, goto_pc_self]
        exact hrelies _ _
      · rw [goto_pc_ne hq]
        exact Pc.relies_of_outside (houtside q) _ _ _
  · exact h

/-! ## Steps -/

variable {mem : List UInt8} {room i : Nat} {n : Int} {ch : UInt8} {new : List (Event P)}

/-- A process goes on within its call. -/
theorem Spec.busy_eq {c : Option (Call × Nat)} (h : v.busy p = c) : v.busy = Function.update v.busy p c := by
  rw [← h, Function.update_eq_self]

/-- A call returns, after it may have woken up others. -/
theorem Refines.returned (h : Refines v s) (hp : (s.pc p).inside = true)
    (hothers : ∀ q, (s'.pc q).call = (s.pc q).call ∧ (s'.pc q).inside = (s.pc q).inside)
    (hring : Ring v.queue s'.data s'.nread s'.nwrite) :
    Refines { v with busy := Function.update v.busy p none } (release s' p .caller) :=
  h.released hp hothers hring rfl rfl

/-- The tests of `pipewrite`: it ends, fails, sleeps, or goes on to put a byte. -/
theorem writeTest_refines (h : Refines v s) (hpc : s.pc p = .writeTest mem n i) (hnext : next s p = some (t, new)) :
    ∃ w, Accepted Spec.Step v new w ∧ Refines w t := by
  have hp : (s.pc p).inside = true := by rw [hpc]; rfl
  have hb : v.busy p = some (.write mem n, i) := by rw [h.busy p, hpc]; rfl
  simp only [next, hpc] at hnext
  split_ifs at hnext with hn hclosed hfull
  · cases hnext
    exact ⟨_, .one (.failed hb fun _ _ heq => by cases heq), h.returned hp (fun _ => ⟨rfl, rfl⟩) h.ring⟩
  · cases hnext
    exact ⟨v, .nil v, h.released hp (fun q => (s.pc q).wakeReader_alike) h.ring rfl (Spec.busy_eq hb)⟩
  · have hroom : v.queue.length < pipesize :=
      Nat.lt_of_le_of_ne h.ring.length_le fun heq => hfull (h.ring.full_iff.mpr heq)
    cases hch : mem[i]? with
    | none =>
        rw [hch] at hnext
        cases hnext
        exact ⟨_, .one (.returned hb (.inr (List.getElem?_eq_none_iff.mp hch))),
          h.returned hp (fun q => (s.pc q).wakeReader_alike) h.ring⟩
    | some ch =>
        rw [hch] at hnext
        cases hnext
        exact ⟨v, .nil v, h.goes hp rfl rfl h.ring (Spec.busy_eq hb) ⟨hn, hch, hroom⟩⟩
  · cases hnext
    exact ⟨_, .one (.returned hb (.inl (by omega))), h.returned hp (fun q => (s.pc q).wakeReader_alike) h.ring⟩

/-- Counting the byte that was stored puts it into the queue. -/
theorem writeCount_refines (h : Refines v s) (hpc : s.pc p = .writeCount mem n i ch)
    (hnext : next s p = some (t, new)) : ∃ w, Accepted Spec.Step v new w ∧ Refines w t := by
  have hp : (s.pc p).inside = true := by rw [hpc]; rfl
  have hb : v.busy p = some (.write mem n, i) := by rw [h.busy p, hpc]; rfl
  obtain ⟨hn, hch, hroom, hstored⟩ : (i : Int) < n ∧ mem[i]? = some ch ∧ v.queue.length < pipesize ∧
      s.data (s.nwrite % pipesize) = ch := by
    have hrelies := h.relies p
    rwa [hpc] at hrelies
  simp only [next, hpc] at hnext
  cases hnext
  exact ⟨_, .one (.put hb hn hch hroom), h.goes hp rfl rfl (h.ring.push hroom hstored) rfl trivial⟩

/-- The test of `piperead`: it fails, sleeps, or goes on to copy. -/
theorem readTest_refines (h : Refines v s) (hpc : s.pc p = .readTest room n) (hnext : next s p = some (t, new)) :
    ∃ w, Accepted Spec.Step v new w ∧ Refines w t := by
  have hp : (s.pc p).inside = true := by rw [hpc]; rfl
  have hb : v.busy p = some (.read room n, 0) := by rw [h.busy p, hpc]; rfl
  simp only [next, hpc] at hnext
  split_ifs at hnext with hempty hkilled
  · cases hnext
    exact ⟨_, .one (.failed hb fun _ _ _ => rfl), h.returned hp (fun _ => ⟨rfl, rfl⟩) h.ring⟩
  · cases hnext
    exact ⟨v, .nil v, h.released hp (fun _ => ⟨rfl, rfl⟩) h.ring rfl (Spec.busy_eq hb)⟩
  · cases hnext
    exact ⟨v, .nil v, h.goes hp rfl rfl h.ring (Spec.busy_eq hb) trivial⟩

/-- The tests of the loop that copies: it ends, or takes the byte at the front. -/
theorem readCopy_refines (h : Refines v s) (hpc : s.pc p = .readCopy room n i) (hnext : next s p = some (t, new)) :
    ∃ w, Accepted Spec.Step v new w ∧ Refines w t := by
  have hp : (s.pc p).inside = true := by rw [hpc]; rfl
  have hb : v.busy p = some (.read room n, i) := by rw [h.busy p, hpc]; rfl
  simp only [next, hpc] at hnext
  split_ifs at hnext with hn hempty
  · cases hnext
    exact ⟨_, .one (.returned hb (.inr (.inl (h.ring.empty_iff.mp hempty)))),
      h.returned hp (fun q => (s.pc q).wakeWriter_alike) h.ring⟩
  · cases hnext
    refine ⟨v, .nil v, h.goes hp rfl rfl h.ring (Spec.busy_eq hb) ⟨hn, ?_⟩⟩
    obtain ⟨front, rest, hqueue⟩ := List.exists_cons_of_ne_nil fun heq => hempty (h.ring.empty_iff.mpr heq)
    have hring := h.ring
    rw [hqueue] at hring
    rw [hqueue, List.head?_cons, hring.front]
  · cases hnext
    exact ⟨_, .one (.returned hb (.inl (by omega))), h.returned hp (fun q => (s.pc q).wakeWriter_alike) h.ring⟩

/-- Counting the byte that was read takes it out of the queue, also if it cannot be copied out. -/
theorem readCount_refines (h : Refines v s) (hpc : s.pc p = .readCount room n i ch)
    (hnext : next s p = some (t, new)) : ∃ w, Accepted Spec.Step v new w ∧ Refines w t := by
  have hp : (s.pc p).inside = true := by rw [hpc]; rfl
  have hb : v.busy p = some (.read room n, i) := by rw [h.busy p, hpc]; rfl
  obtain ⟨hn, hfront⟩ : (i : Int) < n ∧ v.queue.head? = some ch := by
    have hrelies := h.relies p
    rwa [hpc] at hrelies
  obtain ⟨rest, hqueue⟩ := List.head?_eq_some_iff.mp hfront
  have hring := h.ring
  rw [hqueue] at hring
  simp only [next, hpc] at hnext
  split_ifs at hnext with hroom
  · cases hnext
    exact ⟨_, .one (.got hb hn hroom hqueue), h.goes hp rfl rfl hring.pop rfl trivial⟩
  · cases hnext
    have hroom := Nat.le_of_not_lt hroom
    refine ⟨_, .cons (.dropped hb hn hroom hqueue) (.one (.returned hb (.inr (.inr hroom)))), ?_⟩
    exact h.released hp (fun q => (s.pc q).wakeWriter_alike) hring.pop rfl rfl

/-- An access of a process. -/
theorem next_refines (h : Refines v s) (hnext : next s p = some (t, new)) :
    ∃ w, Accepted Spec.Step v new w ∧ Refines w t := by
  cases hpc : s.pc p with
  | caller | writeSleep | readSleep => simp [next, hpc] at hnext
  | writeAcquire | readAcquire | closeAcquire =>
      simp only [next, hpc] at hnext
      cases hnext
      exact ⟨v, .nil v, h.acquire (by rw [hpc]; rfl) fun _ _ => trivial⟩
  | writeTest mem n i => exact writeTest_refines h hpc hnext
  | writeStore mem n i ch =>
      have hb : v.busy p = some (.write mem n, i) := by rw [h.busy p, hpc]; rfl
      obtain ⟨hn, hch, hroom⟩ : (i : Int) < n ∧ mem[i]? = some ch ∧ v.queue.length < pipesize := by
        have hrelies := h.relies p
        rwa [hpc] at hrelies
      simp only [next, hpc] at hnext
      cases hnext
      exact ⟨v, .nil v, h.goes (by rw [hpc]; rfl) rfl rfl (h.ring.store hroom ch) (Spec.busy_eq hb)
        ⟨hn, hch, hroom, Function.update_self _ _ _⟩⟩
  | writeCount mem n i ch => exact writeCount_refines h hpc hnext
  | readTest room n => exact readTest_refines h hpc hnext
  | readCopy room n i => exact readCopy_refines h hpc hnext
  | readCount room n i ch => exact readCount_refines h hpc hnext
  | closeFlag writable =>
      have hp : (s.pc p).inside = true := by rw [hpc]; rfl
      have hb : v.busy p = none := by rw [h.busy p, hpc]; rfl
      simp only [next, hpc] at hnext
      split_ifs at hnext
      · cases hnext
        exact ⟨v, .nil v, h.released hp (fun q => (s.pc q).wakeReader_alike) h.ring rfl (Spec.busy_eq hb)⟩
      · cases hnext
        exact ⟨v, .nil v, h.released hp (fun q => (s.pc q).wakeWriter_alike) h.ring rfl (Spec.busy_eq hb)⟩

/-- A step is one of the specification, or does nothing there. -/
theorem step_refines {a : Action P} (h : Refines v s) (hstep : step s a = some (t, new)) :
    ∃ w, Accepted Spec.Step v new w ∧ Refines w t := by
  cases a with
  | call p call =>
      simp only [step] at hstep
      split_ifs at hstep with hpc
      cases hstep
      have hb : v.busy p = none := by rw [h.busy p, hpc]; rfl
      refine ⟨_, .one (.called call hb), ?_⟩
      cases call with
      | write mem n => exact h.outside_step rfl s.killed rfl rfl
      | read room n => exact h.outside_step rfl s.killed rfl rfl
  | close p writable =>
      simp only [step] at hstep
      split_ifs at hstep with hpc
      cases hstep
      have hb : v.busy p = none := by rw [h.busy p, hpc]; rfl
      exact ⟨v, .nil v, h.outside_step rfl s.killed (Spec.busy_eq hb) rfl⟩
  | kill p =>
      simp only [step] at hstep
      cases hstep
      refine ⟨v, .nil v, ?_⟩
      cases hin : (s.pc p).inside with
      | true =>
          -- a process that holds the lock does not sleep
          have hsame : (s.pc p).wakeReader.wakeWriter = s.pc p := by
            cases hpc : s.pc p <;> first | rfl | (rw [hpc] at hin; cases hin)
          rw [hsame]
          exact h.goes hin rfl rfl h.ring (Spec.busy_eq (h.busy p)) (h.relies p)
      | false =>
          have hcall : (s.pc p).wakeReader.wakeWriter.call = (s.pc p).call :=
            (Pc.wakeWriter_alike _).1.trans (Pc.wakeReader_alike _).1
          have hinside : (s.pc p).wakeReader.wakeWriter.inside = (s.pc p).inside :=
            (Pc.wakeWriter_alike _).2.trans (Pc.wakeReader_alike _).2
          refine h.outside_step (hinside.trans hin) _ ?_ rfl
          rw [hcall, ← h.busy p, Function.update_eq_self]
  | run p => exact next_refines h hstep

omit [DecidableEq P] in
/-- A new pipe is empty. -/
theorem pipealloc_refines (data : Nat → UInt8) : Refines (P := P) Spec.init (pipealloc data) where
  ring := ⟨(by decide : 0 < uintMod), Nat.zero_le _, rfl, fun _ hj => absurd hj (Nat.not_lt_zero _)⟩
  busy _ := rfl
  lock _ h := by cases h
  relies _ := trivial

/-- **A pipe is a queue.** In every run from a new pipe, with any processes that write, read, close it and are killed
in any order of their accesses, the events are those of the specification: each write puts the bytes of its memory
in order while there is room, each read takes those at the front, and a call returns how many it has moved, or `-1`.
So the bytes that were put into the pipe are those that were taken out, followed by those in it, at most
`PIPESIZE`, in one order; and the counters tell how many are in it, although they wrap around. -/
theorem pipe_refines {data : Nat → UInt8} {acts : List (Action P)} {evs : List (Event P)}
    (hrun : Transition.exec step [] (pipealloc data) acts = some (evs, t)) :
    ∃ w, Accepted Spec.Step Spec.init evs w ∧ (∀ p, w.busy p = (t.pc p).call) ∧
      evs.filterMap Event.putByte = evs.filterMap Event.takenByte ++ w.queue ∧ w.queue.length ≤ pipesize ∧
      t.nwrite = (t.nread + w.queue.length) % uintMod := by
  obtain ⟨w, hevs, hw⟩ := exec_accepted (R := Refines) (fun _ _ _ _ _ h hstep => step_refines h hstep) (.nil _)
    (pipealloc_refines data) hrun
  exact ⟨w, hevs, hw.busy, Spec.accepted_queue hevs, hw.ring.length_le, hw.ring.counted⟩

end Refinement

/-- One process reads from an empty pipe, and sleeps; another writes three bytes and closes its end. -/
def sleepyRead : List (Action Bool) :=
  [.call true (.read 2 5), .run true, .run true, .call false (.write [7, 8, 9] 3)] ++ List.replicate 11 (.run false) ++
    [.close false true, .run false, .run false] ++ List.replicate 8 (.run true)

/-- The reader has no room for the third byte. -/
theorem pipe_refines_sleepyRead : ∃ evs t,
    Transition.exec step [] (pipealloc fun _ => 0) sleepyRead = some (evs, t) ∧
    evs = [.called true (.read 2 5), .called false (.write [7, 8, 9] 3), .put false 7, .put false 8, .put false 9,
      .returned false 3, .got true 7, .got true 8, .dropped true 9, .returned true 2] ∧
    ∃ w, Accepted Spec.Step Spec.init evs w ∧ w.queue = [] := by
  have hevents : (Transition.exec step [] (pipealloc fun _ => 0) sleepyRead).map Prod.fst =
      some [.called true (.read 2 5), .called false (.write [7, 8, 9] 3), .put false 7, .put false 8, .put false 9,
        .returned false 3, .got true 7, .got true 8, .dropped true 9, .returned true 2] := by
    decide +kernel
  obtain ⟨⟨evs, t⟩, hrun, rfl⟩ := Option.map_eq_some_iff.mp hevents
  obtain ⟨w, hevs, -, hqueue, -⟩ := pipe_refines hrun
  refine ⟨_, t, hrun, rfl, w, hevs, ?_⟩
  simpa [List.filterMap_cons, Event.putByte, Event.takenByte] using hqueue

end Pipes

end OsLabs.Kernel
