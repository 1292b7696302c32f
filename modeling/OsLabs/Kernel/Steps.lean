import OsLabs.Kernel.Semaphore

/-! # What a step of the semaphore system can do

`Step k a k' evs` lists the steps of the system by their effect: `Move`s change the program counter of
one process and nothing else, `Acquires` and `Releases` are the lock operations on `s->locked`, and
each access to the slot, to a process record or to the free pages is a case of its own.
`step_inv` reads a step of `step` as one of them; every invariant of the system is a case analysis on
`Step`. -/

namespace OsLabs

namespace Kernel

variable {n : Nat} {k k' : State n} {i j : Fin n} {evs : List (Event n)}

/-! ## Reading updates -/

namespace State

/-- Setting a process neither opens nor closes the semaphore. -/
@[simp] theorem setProc_isOpen (p : Proc n) : (k.setProc i p).isOpen = k.isOpen := rfl

/-- Setting a process leaves the value alone. -/
@[simp] theorem setProc_value (p : Proc n) : (k.setProc i p).value = k.value := rfl

/-- Setting a process leaves the lock with its owner. -/
@[simp] theorem setProc_owner (p : Proc n) : (k.setProc i p).owner = k.owner := rfl

/-- Setting a process leaves the name of the lock alone. -/
@[simp] theorem setProc_name (p : Proc n) : (k.setProc i p).name = k.name := rfl

/-- The process that was set. -/
@[simp] theorem setProc_procs_self (p : Proc n) : (k.setProc i p).procs i = p :=
  Function.update_self ..

/-- The other processes stay. -/
@[simp] theorem setProc_procs_of_ne (h : j ≠ i) (p : Proc n) :
    (k.setProc i p).procs j = k.procs j :=
  Function.update_of_ne h ..

/-- What holds of every process still does when the record of one is replaced by one it holds of. -/
theorem forall_setProc {p : Proc n} {Q : Fin n → Proc n → Prop} (h : ∀ j, Q j (k.procs j))
    (hp : Q i p) (j : Fin n) : Q j ((k.setProc i p).procs j) := by
  by_cases hj : j = i
  · subst hj
    rwa [setProc_procs_self]
  · rw [setProc_procs_of_ne hj]
    exact h j

/-- A process that goes on neither opens nor closes the semaphore. -/
@[simp] theorem goto_isOpen (pc : Pc n) : (k.goto i pc).isOpen = k.isOpen := rfl

/-- A process that goes on leaves the value alone. -/
@[simp] theorem goto_value (pc : Pc n) : (k.goto i pc).value = k.value := rfl

/-- A process that goes on leaves the lock with its owner. -/
@[simp] theorem goto_owner (pc : Pc n) : (k.goto i pc).owner = k.owner := rfl

/-- A process that goes on leaves the name of the lock alone. -/
@[simp] theorem goto_name (pc : Pc n) : (k.goto i pc).name = k.name := rfl

/-- A process that goes on changes its program counter only. -/
@[simp] theorem goto_procs_self (pc : Pc n) :
    (k.goto i pc).procs i = { k.procs i with pc := pc } :=
  Function.update_self ..

/-- The other processes stay where they are. -/
@[simp] theorem goto_procs_of_ne (h : j ≠ i) (pc : Pc n) : (k.goto i pc).procs j = k.procs j :=
  Function.update_of_ne h ..

/-- A panic neither opens nor closes the semaphore. -/
@[simp] theorem panic_isOpen : k.panic.isOpen = k.isOpen := rfl

/-- A panic leaves the value alone. -/
@[simp] theorem panic_value : k.panic.value = k.value := rfl

/-- A panic leaves the lock with its owner. -/
@[simp] theorem panic_owner : k.panic.owner = k.owner := rfl

/-- A panic leaves the name of the lock alone. -/
@[simp] theorem panic_name : k.panic.name = k.name := rfl

/-- A panic leaves every process where it is. -/
@[simp] theorem panic_procs : k.panic.procs = k.procs := rfl

end State

/-- What holds of every process after a running process has visited one and gone on. -/
theorem forall_visit {q : Fin n} {p : Proc n} {pc : Pc n} {Q : Fin n → Proc n → Prop}
    (h : ∀ j, Q j (k.procs j)) (hq : Q q p) (hr : (k.procs i).state = .running)
    (hqi : i = q → p.state = .running)
    (hi : ∀ p : Proc n, p.state = .running → Q i { p with pc := pc }) (j : Fin n) :
    Q j (((k.setProc q p).goto i pc).procs j) := by
  refine State.forall_setProc (State.forall_setProc h hq) (hi _ ?_) j
  by_cases hiq : i = q
  · subst hiq
    rw [State.setProc_procs_self]
    exact hqi rfl
  · rwa [State.setProc_procs_of_ne hiq]

/-- `wakeup` does not move the process it visits. -/
@[simp] theorem wake_pc (c : Chan) (p : Proc n) : (wake c p).pc = p.pc := by
  unfold wake
  split <;> rfl

/-- Waking does not move the lock of a process. -/
@[simp] theorem wake_lock (c : Chan) (p : Proc n) : (wake c p).lock = p.lock := by
  unfold wake
  split <;> rfl

/-- A woken process remembers the channel that it slept on. -/
@[simp] theorem wake_chan (c : Chan) (p : Proc n) : (wake c p).chan = p.chan := by
  unfold wake
  split <;> rfl

/-- A process that `wakeup` leaves asleep was asleep, on another channel. -/
theorem wake_sleeping {c : Chan} {p : Proc n} (h : (wake c p).state = .sleeping) :
    p.state = .sleeping ∧ p.chan ≠ some c := by
  unfold wake at h
  split at h
  · cases h
  · next hs => exact ⟨h, fun hc => hs ⟨h, hc⟩⟩

/-- `kill` does not move the process it finds. -/
@[simp] theorem markKilled_pc (p : Proc n) : (markKilled p).pc = p.pc := rfl

/-- Marking a process as killed does not move its lock. -/
@[simp] theorem markKilled_lock (p : Proc n) : (markKilled p).lock = p.lock := rfl

/-- A process marked as killed remembers its channel. -/
@[simp] theorem markKilled_chan (p : Proc n) : (markKilled p).chan = p.chan := rfl

/-- `kill` leaves no process asleep. -/
theorem markKilled_awake (p : Proc n) : (markKilled p).state ≠ .sleeping := by
  simp only [markKilled]
  split
  · nofun
  · next hs => exact hs

/-! ## The steps -/

/-- Moves of process `i` from one program counter to another that change nothing else. -/
inductive Move (k : State n) (i : Fin n) : Pc n → Pc n → Prop
  | noPage {v : BitVec 32} : Move k i (.openAlloc v) .user
  | openFree {v : BitVec 32} {page : Nat} (h : k.isOpen = false) :
      Move k i (.openTest v page) (.openAssign v page)
  | closeOpen (h : k.isOpen = true) : Move k i .closeTest .closeAcquire
  | closeNot : Move k i .closeTest .user
  | closeWakeSelf {todo : List (Fin n)} : Move k i (.closeWake (i :: todo)) (.closeWake todo)
  | closeWakeDone : Move k i (.closeWake []) .closeRelease
  | upOpen : Move k i .upTest .upAcquire
  | upNot : Move k i .upTest .user
  | upWakeSelf {todo : List (Fin n)} : Move k i (.upWake (i :: todo)) (.upWake todo)
  | upWakeDone : Move k i (.upWake []) .upRelease
  | downOpen : Move k i .downTest .downAcquire
  | downNot : Move k i .downTest .user
  | downBlock (h : k.value.toInt ≤ 0) : Move k i .downLoop .sleepAcquire
  | downPass (h : 0 < k.value.toInt) : Move k i .downLoop .downTake
  | killNobody {pid : Int} : Move k i (.killScan pid []) .user
  | killSkip {pid : Int} {q : Fin n} {todo : List (Fin n)} :
      Move k i (.killScan pid (q :: todo)) (.killScan pid todo)

/-- From where `s->locked` is acquired, and where the process goes on. -/
inductive Acquires : Pc n → Pc n → Prop
  | close : Acquires .closeAcquire .closeFree
  | up : Acquires .upAcquire .upAdd
  | down : Acquires .downAcquire .downLoop
  | sleep : Acquires .sleepReacquire .downLoop

/-- From where `s->locked` is released, and where the process goes on. -/
inductive Releases : Pc n → Pc n → Prop
  | close : Releases .closeRelease .user
  | up : Releases .upRelease .user
  | down : Releases .downRelease .user
  | sleep : Releases .sleepRelease .sleepSet

/-- The steps of the system, by their effect. -/
inductive Step (k : State n) : Action n → State n → List (Event n) → Prop
  | enter {i : Fin n} {c : Syscall} (hr : (k.procs i).state = .running)
      (hpc : (k.procs i).pc = .user) : Step k (.call i c) (k.goto i c.entry) []
  | yield {i : Fin n} (hr : (k.procs i).state = .running) :
      Step k (.yield i) (k.setProc i { k.procs i with state := .runnable }) []
  | resumeSleeper {i : Fin n} (hs : (k.procs i).state = .runnable)
      (hl : (k.procs i).lock = false) (hpc : (k.procs i).pc = .asleep) :
      Step k (.dispatch i)
        (k.setProc i { k.procs i with state := .running, lock := true, pc := .sleepTidy }) []
  | resumeOther {i : Fin n} (hs : (k.procs i).state = .runnable) (hpc : (k.procs i).pc ≠ .asleep) :
      Step k (.dispatch i) (k.setProc i { k.procs i with state := .running }) []
  | panic {i : Fin n} : Step k (.run i) k.panic []
  | move {i : Fin n} {pc : Pc n} {evs : List (Event n)} (hr : (k.procs i).state = .running)
      (hm : Move k i (k.procs i).pc pc) (hevs : evs = [] ∨ evs = [.returned i]) :
      Step k (.run i) (k.goto i pc) evs
  | alloc {i : Fin n} {v : BitVec 32} {page : Nat} {rest : List Nat}
      (hr : (k.procs i).state = .running) (hpc : (k.procs i).pc = .openAlloc v) :
      Step k (.run i) (State.goto { k with freelist := rest } i (.openTest v page)) []
  | giveBack {i : Fin n} {v : BitVec 32} {page : Nat} (hr : (k.procs i).state = .running)
      (hpc : (k.procs i).pc = .openTest v page) :
      Step k (.run i) (State.goto { k with freelist := page :: k.freelist } i .user) [.returned i]
  | assign {i : Fin n} {v : BitVec 32} {page : Nat} (hr : (k.procs i).state = .running)
      (hpc : (k.procs i).pc = .openAssign v page) :
      Step k (.run i)
        (State.goto { k with isOpen := true, value := v, name := some page, owner := none } i .user)
        [.opened i page, .returned i]
  | free {i : Fin n} {page : Nat} (hr : (k.procs i).state = .running)
      (hpc : (k.procs i).pc = .closeFree) (hname : k.name = some page) :
      Step k (.run i)
        (State.goto { k with isOpen := false, freelist := page :: k.freelist } i
          (.closeWake (List.finRange n)))
        [.closed i page k.sleepers]
  | acquire {i : Fin n} {pc : Pc n} (hr : (k.procs i).state = .running)
      (ha : Acquires (k.procs i).pc pc) (ho : k.owner = none) :
      Step k (.run i) (State.goto { k with owner := some i } i pc) []
  | release {i : Fin n} {pc : Pc n} {evs : List (Event n)} (hr : (k.procs i).state = .running)
      (ha : Releases (k.procs i).pc pc) (ho : k.owner = some i)
      (hevs : evs = [] ∨ evs = [.returned i]) :
      Step k (.run i) (State.goto { k with owner := none } i pc) evs
  | add {i : Fin n} (hr : (k.procs i).state = .running) (hpc : (k.procs i).pc = .upAdd) :
      Step k (.run i) (State.goto { k with value := k.value + 1 } i (.upWake (List.finRange n)))
        [.incremented i]
  | take {i : Fin n} (hr : (k.procs i).state = .running) (hpc : (k.procs i).pc = .downTake) :
      Step k (.run i) (State.goto { k with value := k.value - 1 } i .downRelease) [.decremented i]
  | closeWake {i q : Fin n} {todo : List (Fin n)} (hr : (k.procs i).state = .running)
      (hpc : (k.procs i).pc = .closeWake (q :: todo)) (hne : q ≠ i)
      (hl : (k.procs q).lock = false) :
      Step k (.run i) ((k.setProc q (wake .locked (k.procs q))).goto i (.closeWake todo)) []
  | upWake {i q : Fin n} {todo : List (Fin n)} (hr : (k.procs i).state = .running)
      (hpc : (k.procs i).pc = .upWake (q :: todo)) (hne : q ≠ i)
      (hl : (k.procs q).lock = false) :
      Step k (.run i) ((k.setProc q (wake .sem (k.procs q))).goto i (.upWake todo)) []
  | kill {i q : Fin n} {pid : Int} {todo : List (Fin n)} (hr : (k.procs i).state = .running)
      (hpc : (k.procs i).pc = .killScan pid (q :: todo)) (hl : (k.procs q).lock = false) :
      Step k (.run i) ((k.setProc q (markKilled (k.procs q))).goto i .user)
        ((if k.SleepsOn .sem q then [.killedAsleep q] else []) ++ [.returned i])
  | lockOwn {i : Fin n} (hr : (k.procs i).state = .running)
      (hpc : (k.procs i).pc = .sleepAcquire) :
      Step k (.run i) (k.setProc i { k.procs i with lock := true, pc := .sleepRelease }) []
  | setSleeping {i : Fin n} (hr : (k.procs i).state = .running)
      (hpc : (k.procs i).pc = .sleepSet) :
      Step k (.run i)
        (k.setProc i { k.procs i with chan := some .sem, state := .sleeping, pc := .sched })
        [.slept i]
  | switchOut {i : Fin n} (hpc : (k.procs i).pc = .sched) :
      Step k (.run i) (k.setProc i { k.procs i with lock := false, pc := .asleep }) []
  | tidy {i : Fin n} (hr : (k.procs i).state = .running) (hpc : (k.procs i).pc = .sleepTidy) :
      Step k (.run i)
        (k.setProc i { k.procs i with chan := none, lock := false, pc := .sleepReacquire }) []

/-! ## Inversion -/

/-- An acquisition takes the free lock, or panics. -/
theorem acquire_inv {pc : Pc n} (h : acquire k i pc = some (k', evs)) :
    (k.owner = none ∧ k' = State.goto { k with owner := some i } i pc ∧ evs = []) ∨
      (k' = k.panic ∧ evs = []) := by
  unfold acquire at h
  split at h
  · next ho =>
      cases h
      exact Or.inl ⟨ho, rfl, rfl⟩
  · split at h
    · cases h
      exact Or.inr ⟨rfl, rfl⟩
    · cases h

/-- A release gives the lock back, or panics. -/
theorem release_inv {pc : Pc n} {ret : List (Event n)} (h : release k i pc ret = some (k', evs)) :
    (k.owner = some i ∧ k' = State.goto { k with owner := none } i pc ∧ evs = ret) ∨
      (k' = k.panic ∧ evs = []) := by
  unfold release at h
  split at h
  · next ho =>
      cases h
      exact Or.inl ⟨ho, rfl, rfl⟩
  · cases h
    exact Or.inr ⟨rfl, rfl⟩

/-- A turn of `wakeup` ends the loop, passes over the caller, or visits an unlocked process. -/
theorem wakeup_inv {c : Chan} {again : List (Fin n) → Pc n} {done : Pc n} {todo : List (Fin n)}
    (h : wakeup k i c again done todo = some (k', evs)) :
    (todo = [] ∧ k' = k.goto i done ∧ evs = []) ∨
      (∃ rest, todo = i :: rest ∧ k' = k.goto i (again rest) ∧ evs = []) ∨
      (∃ q rest, todo = q :: rest ∧ q ≠ i ∧ (k.procs q).lock = false ∧
        k' = (k.setProc q (wake c (k.procs q))).goto i (again rest) ∧ evs = []) := by
  cases todo with
  | nil =>
      cases h
      exact Or.inl ⟨rfl, rfl, rfl⟩
  | cons q rest =>
      simp only [wakeup] at h
      split at h
      · next hq =>
          subst hq
          cases h
          exact Or.inr (Or.inl ⟨rest, rfl, rfl, rfl⟩)
      · next hq =>
          split at h
          · cases h
          · next hl =>
              cases h
              exact Or.inr (Or.inr ⟨q, rest, rfl, hq, by simpa using hl, rfl, rfl⟩)

/-- A step of a process that runs is one of the steps listed. -/
theorem next_inv (hr : (k.procs i).state = .running ∨ (k.procs i).pc = .sched)
    (h : next k i (k.procs i).pc = some (k', evs)) : Step k (.run i) k' evs := by
  -- everywhere but in `sched`, the process that takes the step is running
  have hrun : (k.procs i).pc ≠ .sched → (k.procs i).state = .running := fun hne =>
    hr.resolve_right hne
  cases hpc : (k.procs i).pc <;> rw [hpc] at h hrun <;> simp only [next] at h
  case user => cases h
  case openAlloc v =>
      have hr := hrun nofun
      unfold openAlloc at h
      split at h
      · cases h
        exact .move hr (hpc ▸ .noPage) (Or.inr rfl)
      · cases h
        exact .alloc hr hpc
  case openTest v page =>
      have hr := hrun nofun
      split at h
      · cases h
        exact .giveBack hr hpc
      · next ho =>
          cases h
          exact .move hr (hpc ▸ .openFree (by simpa using ho)) (Or.inl rfl)
  case openAssign v page =>
      cases h
      exact .assign (hrun nofun) hpc
  case closeTest =>
      have hr := hrun nofun
      split at h
      · next ho =>
          cases h
          exact .move hr (hpc ▸ .closeOpen ho) (Or.inl rfl)
      · cases h
        exact .move hr (hpc ▸ .closeNot) (Or.inr rfl)
  case closeAcquire =>
      obtain ⟨ho, rfl, rfl⟩ | ⟨rfl, rfl⟩ := acquire_inv h
      · exact .acquire (hrun nofun) (hpc ▸ .close) ho
      · exact .panic
  case closeFree =>
      -- `kfree` of a name that is not there panics
      unfold closeFree at h
      split at h
      · cases h
        exact .panic
      · next page hname =>
          cases h
          exact .free (hrun nofun) hpc hname
  case closeWake todo =>
      have hr := hrun nofun
      obtain ⟨rfl, rfl, rfl⟩ | ⟨rest, rfl, rfl, rfl⟩ | ⟨q, rest, rfl, hq, hl, rfl, rfl⟩ :=
        wakeup_inv h
      · exact .move hr (hpc ▸ .closeWakeDone) (Or.inl rfl)
      · exact .move hr (hpc ▸ .closeWakeSelf) (Or.inl rfl)
      · exact .closeWake hr hpc hq hl
  case closeRelease =>
      obtain ⟨ho, rfl, rfl⟩ | ⟨rfl, rfl⟩ := release_inv h
      · exact .release (hrun nofun) (hpc ▸ .close) ho (Or.inr rfl)
      · exact .panic
  case upTest =>
      have hr := hrun nofun
      split at h
      · cases h
        exact .move hr (hpc ▸ .upOpen) (Or.inl rfl)
      · cases h
        exact .move hr (hpc ▸ .upNot) (Or.inr rfl)
  case upAcquire =>
      obtain ⟨ho, rfl, rfl⟩ | ⟨rfl, rfl⟩ := acquire_inv h
      · exact .acquire (hrun nofun) (hpc ▸ .up) ho
      · exact .panic
  case upAdd =>
      cases h
      exact .add (hrun nofun) hpc
  case upWake todo =>
      have hr := hrun nofun
      obtain ⟨rfl, rfl, rfl⟩ | ⟨rest, rfl, rfl, rfl⟩ | ⟨q, rest, rfl, hq, hl, rfl, rfl⟩ :=
        wakeup_inv h
      · exact .move hr (hpc ▸ .upWakeDone) (Or.inl rfl)
      · exact .move hr (hpc ▸ .upWakeSelf) (Or.inl rfl)
      · exact .upWake hr hpc hq hl
  case upRelease =>
      obtain ⟨ho, rfl, rfl⟩ | ⟨rfl, rfl⟩ := release_inv h
      · exact .release (hrun nofun) (hpc ▸ .up) ho (Or.inr rfl)
      · exact .panic
  case downTest =>
      have hr := hrun nofun
      split at h
      · cases h
        exact .move hr (hpc ▸ .downOpen) (Or.inl rfl)
      · cases h
        exact .move hr (hpc ▸ .downNot) (Or.inr rfl)
  case downAcquire =>
      obtain ⟨ho, rfl, rfl⟩ | ⟨rfl, rfl⟩ := acquire_inv h
      · exact .acquire (hrun nofun) (hpc ▸ .down) ho
      · exact .panic
  case downLoop =>
      have hr := hrun nofun
      split at h
      · next hv =>
          cases h
          exact .move hr (hpc ▸ .downBlock hv) (Or.inl rfl)
      · next hv =>
          cases h
          exact .move hr (hpc ▸ .downPass (by omega)) (Or.inl rfl)
  case downTake =>
      cases h
      exact .take (hrun nofun) hpc
  case downRelease =>
      obtain ⟨ho, rfl, rfl⟩ | ⟨rfl, rfl⟩ := release_inv h
      · exact .release (hrun nofun) (hpc ▸ .down) ho (Or.inr rfl)
      · exact .panic
  -- `sched` may be entered with the lock of the process only
  case sleepAcquire =>
      split at h
      · cases h
      · cases h
        exact .lockOwn (hrun nofun) hpc
  case sleepRelease =>
      obtain ⟨ho, rfl, rfl⟩ | ⟨rfl, rfl⟩ := release_inv h
      · exact .release (hrun nofun) (hpc ▸ .sleep) ho (Or.inl rfl)
      · exact .panic
  case sleepSet =>
      cases h
      exact .setSleeping (hrun nofun) hpc
  case sched =>
      cases h
      exact .switchOut hpc
  case asleep => cases h
  case sleepTidy =>
      cases h
      exact .tidy (hrun nofun) hpc
  case sleepReacquire =>
      obtain ⟨ho, rfl, rfl⟩ | ⟨rfl, rfl⟩ := acquire_inv h
      · exact .acquire (hrun nofun) (hpc ▸ .sleep) ho
      · exact .panic
  case killScan pid todo =>
      have hr := hrun nofun
      cases todo with
      | nil =>
          cases h
          exact .move hr (hpc ▸ .killNobody) (Or.inr rfl)
      -- the scan of `kill` takes the lock of the process that it looks at
      | cons q rest =>
          simp only [killTurn] at h
          split at h
          · cases h
          · next hl =>
              split at h
              · cases h
                exact .kill hr hpc (by simpa using hl)
              · cases h
                exact .move hr (hpc ▸ .killSkip) (Or.inl rfl)

/-- **Inversion of a step.** -/
theorem step_inv {a : Action n} (h : step k a = some (k', evs)) : Step k a k' evs := by
  cases a with
  | call i c =>
      simp only [step] at h
      split at h
      · next hc =>
          cases h
          exact .enter hc.2.1 hc.2.2
      · cases h
  | run i =>
      simp only [step] at h
      split at h
      · next hc => exact next_inv hc.2 h
      · cases h
  | dispatch i =>
      simp only [step] at h
      split at h
      · next hc =>
          cases h
          by_cases hpc : (k.procs i).pc = .asleep
          · simp only [resume, if_pos hpc]
            exact .resumeSleeper hc.2.2 hc.2.1 hpc
          · simp only [resume, if_neg hpc]
            exact .resumeOther hc.2.2 hpc
      · cases h
  | yield i =>
      simp only [step] at h
      split at h
      · next hc =>
          cases h
          exact .yield hc.2.2.1
      · cases h

/-! ## Events -/

/-- `sem_open` has opened the slot. -/
def Event.isOpened : Event n → Bool
  | .opened _ _ => true
  | _ => false

/-- `sem_close` has cleared the flag of the slot. -/
def Event.isClosed : Event n → Bool
  | .closed _ _ _ => true
  | _ => false

/-- Events that concern neither the flag of the slot nor sleeping processes. -/
def Event.isPlain : Event n → Bool
  | .incremented _ | .decremented _ | .returned _ => true
  | _ => false

/-- What a step emits, with what it does to the flag and to the page of the slot. -/
inductive Emits (k : State n) : Action n → State n → List (Event n) → Prop
  | none {a : Action n} {k' : State n} (hopen : k'.isOpen = k.isOpen) (hname : k'.name = k.name) :
      Emits k a k' []
  | plain {a : Action n} {k' : State n} {e : Event n} (hopen : k'.isOpen = k.isOpen)
      (hname : k'.name = k.name) (he : e.isPlain = true) : Emits k a k' [e]
  | opened {i : Fin n} {k' : State n} {v : BitVec 32} {page : Nat}
      (hpc : (k.procs i).pc = .openAssign v page) (hopen : k'.isOpen = true)
      (hname : k'.name = some page) : Emits k (.run i) k' [.opened i page, .returned i]
  | closed {i : Fin n} {k' : State n} {page : Nat} (hpc : (k.procs i).pc = .closeFree)
      (hpage : k.name = some page) (hopen : k'.isOpen = false) (hname : k'.name = k.name) :
      Emits k (.run i) k' [.closed i page k.sleepers]
  | slept {i : Fin n} {k' : State n} (hpc : (k.procs i).pc = .sleepSet)
      (hopen : k'.isOpen = k.isOpen) (hname : k'.name = k.name) : Emits k (.run i) k' [.slept i]
  | killed {i q : Fin n} {k' : State n} (hs : k.SleepsOn .sem q) (hopen : k'.isOpen = k.isOpen)
      (hname : k'.name = k.name) : Emits k (.run i) k' [.killedAsleep q, .returned i]

/-- Every step emits its events. -/
theorem emits {a : Action n} (hs : Step k a k' evs) : Emits k a k' evs := by
  cases hs with
  | enter | yield | resumeSleeper | resumeOther | panic | alloc | acquire | closeWake | upWake
  | lockOwn | switchOut | tidy => exact .none rfl rfl
  | move hr hm hevs | release hr ha ho hevs =>
      obtain rfl | rfl := hevs
      · exact .none rfl rfl
      · exact .plain rfl rfl rfl
  | giveBack | add | take => exact .plain rfl rfl rfl
  | assign hr hpc => exact .opened hpc rfl rfl
  | free hr hpc hname => exact .closed hpc hname rfl rfl
  | setSleeping hr hpc => exact .slept hpc rfl rfl
  | kill hr hpc hl =>
      split
      · next hs => exact .killed hs rfl rfl
      · exact .plain rfl rfl rfl

end Kernel

end OsLabs
