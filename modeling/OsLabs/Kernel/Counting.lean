import OsLabs.Kernel.Steps

/-! # The value of an open semaphore, and its sleepers

Runs of `sem_up`, `sem_down` and `kill` from a semaphore that has just been opened. The invariant
`Counting` says who holds which lock, where the value is known to be positive or not, and that every
process on its way to sleep or asleep while the value is positive is still to be visited by the
`wakeup` of the process that holds `s->locked`. The process lock that `sleep` takes before it releases
`s->locked` is what keeps a `wakeup` from passing over a process in between. -/

namespace OsLabs

namespace Kernel

variable {n : Nat} {k k' : State n} {v : BitVec 32}

/-! ## The invariant -/

/-- A process that is asleep on the semaphore, or that has released `s->locked` to go to sleep. -/
def Proc.Waiting (p : Proc n) : Prop :=
  p.pc = .sleepSet ∨ p.pc = .sched ∨ (p.pc = .asleep ∧ p.state = .sleeping)

/-- The code of `sem_open` and `sem_close`. -/
def Pc.managesSlot : Pc n → Bool
  | .openAlloc _ | .openTest _ _ | .openAssign _ _ | .closeTest | .closeAcquire | .closeFree
  | .closeWake _ | .closeRelease => true
  | _ => false

/-- Process `u` is in the `wakeup(s)` of `sem_up` and has still to visit `j`. -/
def WillWake (k : State n) (u j : Fin n) : Prop :=
  ∃ todo, (k.procs u).pc = .upWake todo ∧ j ∈ todo

/-- What holds in every run of `sem_up`, `sem_down` and `kill` on an open semaphore. -/
structure Counting (k : State n) : Prop where
  owner_iff : ∀ j, (k.procs j).pc.holdsSem = true ↔ k.owner = some j
  lock_eq : ∀ j, (k.procs j).lock = (k.procs j).pc.holdsOwn
  sleeping : ∀ j, (k.procs j).state = .sleeping →
    (k.procs j).Waiting ∧ (k.procs j).chan = some .sem
  blocked : ∀ j, (k.procs j).pc = .sleepAcquire ∨ (k.procs j).pc = .sleepRelease → k.value.toInt ≤ 0
  taking : ∀ j, (k.procs j).pc = .downTake → 0 < k.value.toInt
  user : ∀ j, (k.procs j).pc.managesSlot = false
  waker : 0 < k.value.toInt → ∀ j, (k.procs j).Waiting → ∃ u, k.owner = some u ∧ WillWake k u j

/-- The system calls that use an open semaphore, and `kill`. -/
def Action.usesSlot : Action n → Bool
  | .call _ (.semOpen _) | .call _ .semClose => false
  | _ => true

/-- The semaphore has just been opened with the value `v`, and nobody uses it yet. -/
structure JustOpened (v : BitVec 32) (k : State n) : Prop extends Idle k where
  isOpen : k.isOpen = true
  value : k.value = v

/-- The invariant holds at the start. -/
theorem JustOpened.counting (h : JustOpened v k) : Counting k where
  owner_iff j := by rw [h.user j, h.owner]; simp [Pc.holdsSem]
  lock_eq j := by rw [h.user j, h.unlocked j]; rfl
  sleeping j hj := absurd hj (h.awake j)
  blocked j hj := by rw [h.user j] at hj; cases hj <;> contradiction
  taking j hj := by rw [h.user j] at hj; cases hj
  user j := by rw [h.user j]; rfl
  waker _ j hj := by
    unfold Proc.Waiting at hj
    rw [h.user j] at hj
    obtain hj | hj | ⟨hj, -⟩ := hj <;> cases hj

namespace Counting

variable {i j : Fin n}

/-! ## Consequences -/

/-- Two processes inside sections of `s->locked` are the same process. -/
theorem eq_of_holds (h : Counting k) (hi : (k.procs i).pc.holdsSem = true)
    (hj : (k.procs j).pc.holdsSem = true) : j = i :=
  Option.some.inj (((h.owner_iff j).mp hj).symm.trans ((h.owner_iff i).mp hi))

/-- While a process that is not in `wakeup` holds the lock, the value is not positive or nobody
waits. -/
theorem nobody_of_holds (h : Counting k) (hi : (k.procs i).pc.holdsSem = true)
    (hpc : ∀ todo, (k.procs i).pc ≠ .upWake todo) (hv : 0 < k.value.toInt) :
    ¬ (k.procs j).Waiting := by
  intro hj
  obtain ⟨u, hu, todo, htodo, -⟩ := h.waker hv j hj
  obtain rfl : i = u := Option.some.inj (((h.owner_iff i).mp hi).symm.trans hu)
  exact hpc todo htodo

/-- With the lock free, the value is not positive or nobody waits. -/
theorem nobody_of_free (h : Counting k) (ho : k.owner = none) (hv : 0 < k.value.toInt) :
    ¬ (k.procs j).Waiting := by
  intro hj
  obtain ⟨u, hu, -⟩ := h.waker hv j hj
  rw [ho] at hu
  cases hu

/-! ## Preservation -/

/-- A process that is running does not wait, except at `sleepSet` and `sched`. -/
theorem not_waiting_of_running {p : Proc n} (hr : p.state = .running) (h₁ : p.pc ≠ .sleepSet)
    (h₂ : p.pc ≠ .sched) : ¬ p.Waiting := by
  rintro (h | h | ⟨-, h⟩)
  · exact h₁ h
  · exact h₂ h
  · rw [hr] at h
    cases h

/-- Replacing the record of one process, with the rest of the slot as it is. The new record agrees
with its program counter, waits only if the old one did, and does not stop waking others. -/
theorem setProc (h : Counting k) {p : Proc n}
    (hsem : p.pc.holdsSem = (k.procs i).pc.holdsSem) (hown : p.lock = p.pc.holdsOwn)
    (hsleep : p.state = .sleeping → p.Waiting ∧ p.chan = some .sem)
    (hblocked : p.pc = .sleepAcquire ∨ p.pc = .sleepRelease → k.value.toInt ≤ 0)
    (htaking : p.pc = .downTake → 0 < k.value.toInt) (huser : p.pc.managesSlot = false)
    (hwait : p.Waiting → (k.procs i).Waiting)
    (hwaker : ∀ j, j ≠ i → (k.procs j).Waiting → WillWake k i j →
      ∃ todo, p.pc = .upWake todo ∧ j ∈ todo) :
    Counting (k.setProc i p) where
  owner_iff := State.forall_setProc (Q := fun j p => p.pc.holdsSem = true ↔ k.owner = some j)
    h.owner_iff (by rw [hsem]; exact h.owner_iff i)
  lock_eq := State.forall_setProc (Q := fun _ p => p.lock = p.pc.holdsOwn) h.lock_eq hown
  sleeping := State.forall_setProc
    (Q := fun _ p => p.state = .sleeping → p.Waiting ∧ p.chan = some .sem) h.sleeping hsleep
  blocked := State.forall_setProc
    (Q := fun _ p => p.pc = .sleepAcquire ∨ p.pc = .sleepRelease → k.value.toInt ≤ 0) h.blocked
    hblocked
  taking := State.forall_setProc (Q := fun _ p => p.pc = .downTake → 0 < k.value.toInt) h.taking
    htaking
  user := State.forall_setProc (Q := fun _ p => p.pc.managesSlot = false) h.user huser
  waker hv j hj := by
    have hold : (k.procs j).Waiting :=
      State.forall_setProc (Q := fun j p => p.Waiting → (k.procs j).Waiting) (fun _ => id) hwait j hj
    obtain ⟨u, hu, hw⟩ := h.waker hv j hold
    refine ⟨u, hu, ?_⟩
    by_cases hui : u = i
    · subst hui
      by_cases hji : j = u
      · -- a process in the loop of `wakeup` does not wait itself
        subst hji
        obtain ⟨todo, htodo, -⟩ := hw
        obtain h₁ | h₁ | ⟨h₁, -⟩ := hold <;> rw [htodo] at h₁ <;> cases h₁
      · obtain ⟨todo, htodo, hmem⟩ := hwaker j hji hold hw
        exact ⟨todo, by rw [State.setProc_procs_self, htodo], hmem⟩
    · obtain ⟨todo, htodo, hmem⟩ := hw
      exact ⟨todo, by rw [State.setProc_procs_of_ne hui, htodo], hmem⟩

/-- A running process goes on at a program counter of the same kind. -/
theorem goto (h : Counting k) (hr : (k.procs i).state = .running) {pc : Pc n}
    (hsem : pc.holdsSem = (k.procs i).pc.holdsSem) (hown : pc.holdsOwn = (k.procs i).pc.holdsOwn)
    (hblocked : pc = .sleepAcquire ∨ pc = .sleepRelease → k.value.toInt ≤ 0)
    (htaking : pc = .downTake → 0 < k.value.toInt) (huser : pc.managesSlot = false)
    (hwait : pc ≠ .sleepSet ∧ pc ≠ .sched)
    (hwaker : ∀ j, j ≠ i → (k.procs j).Waiting → WillWake k i j →
      ∃ todo, pc = .upWake todo ∧ j ∈ todo) :
    Counting (k.goto i pc) :=
  h.setProc hsem ((h.lock_eq i).trans hown.symm)
    (fun hs => absurd (hr.symm.trans hs) nofun) hblocked htaking huser
    (fun hw => absurd hw (not_waiting_of_running hr hwait.1 hwait.2)) hwaker

/-- A process whose code has nobody to wake. -/
theorem no_wake {pc₀ pc : Pc n} (hpc : (k.procs i).pc = pc₀) (hne : ∀ todo, pc₀ ≠ .upWake todo)
    (j : Fin n) (_ : j ≠ i) (_ : (k.procs j).Waiting) (hw : WillWake k i j) :
    ∃ todo, pc = .upWake todo ∧ j ∈ todo := by
  obtain ⟨todo, htodo, -⟩ := hw
  exact absurd (hpc.symm.trans htodo) (hne todo)

/-- The moves of `sem_up`, `sem_down` and `kill` preserve the invariant. -/
theorem move (h : Counting k) (hr : (k.procs i).state = .running) {pc₀ pc : Pc n}
    (hpc : (k.procs i).pc = pc₀) (hm : Move k i pc₀ pc) : Counting (k.goto i pc) := by
  have huser : pc₀.managesSlot = false := hpc ▸ h.user i
  have hnone : (∀ todo, pc₀ ≠ .upWake todo) → ∀ j, j ≠ i → (k.procs j).Waiting → WillWake k i j →
      ∃ todo, pc = .upWake todo ∧ j ∈ todo := no_wake hpc
  cases hm
  case noPage | openFree | closeOpen | closeNot | closeWakeSelf | closeWakeDone => cases huser
  case upOpen | upNot | downOpen | downNot | killNobody | killSkip =>
    exact h.goto hr (by rw [hpc]; rfl) (by rw [hpc]; rfl) nofun nofun rfl ⟨nofun, nofun⟩ (hnone nofun)
  case downBlock hv =>
    exact h.goto hr (by rw [hpc]; rfl) (by rw [hpc]; rfl) (fun _ => hv) nofun rfl ⟨nofun, nofun⟩
      (hnone nofun)
  case downPass hv =>
    exact h.goto hr (by rw [hpc]; rfl) (by rw [hpc]; rfl) nofun (fun _ => hv) rfl ⟨nofun, nofun⟩
      (hnone nofun)
  case upWakeDone =>
    refine h.goto hr (by rw [hpc]; rfl) (by rw [hpc]; rfl) nofun nofun rfl ⟨nofun, nofun⟩ ?_
    rintro j - - ⟨todo, htodo, hmem⟩
    obtain rfl : [] = todo := by simpa using hpc.symm.trans htodo
    cases hmem
  case upWakeSelf todo =>
    refine h.goto hr (by rw [hpc]; rfl) (by rw [hpc]; rfl) nofun nofun rfl ⟨nofun, nofun⟩ ?_
    rintro j hj - ⟨todo', htodo, hmem⟩
    obtain rfl : i :: todo = todo' := by simpa using hpc.symm.trans htodo
    exact ⟨todo, rfl, (List.mem_cons.mp hmem).resolve_left hj⟩

/-- A step of a process inside its section of `s->locked`, or at an end of it: the owner and the value
may change, since no other process is inside a section. -/
theorem ofSection (h : Counting k) (hr : (k.procs i).state = .running) {pc : Pc n}
    {value : BitVec 32} {owner : Option (Fin n)}
    (hothers : ∀ j, j ≠ i → (k.procs j).pc.holdsSem = false)
    (howner : owner = if pc.holdsSem then some i else none)
    (hown : pc.holdsOwn = (k.procs i).pc.holdsOwn)
    (hblocked : pc = .sleepAcquire ∨ pc = .sleepRelease → value.toInt ≤ 0)
    (htaking : pc = .downTake → 0 < value.toInt) (huser : pc.managesSlot = false)
    (hself : pc = .sleepSet ∨ pc = .sched → value.toInt ≤ 0)
    (hwaker : 0 < value.toInt → ∀ j, j ≠ i → (k.procs j).Waiting →
      ∃ todo, pc = .upWake todo ∧ j ∈ todo) :
    Counting (State.goto { k with value := value, owner := owner } i pc) := by
  -- whoever else is in the locked section would hold the lock
  have hholds : ∀ j, j ≠ i → ((k.procs j).pc.holdsSem = true ↔ owner = some j) := by
    intro j hj
    rw [hothers j hj, howner]
    split
    · simp only [Bool.false_eq_true, Option.some.injEq, false_iff]
      exact fun he => hj he.symm
    · simp only [Bool.false_eq_true, reduceCtorEq]
  -- in the order of the fields of the invariant
  refine ⟨fun j => ?_, ?_, ?_, fun j hj => ?_, fun j hj => ?_, ?_, fun hv j hj => ?_⟩
  · by_cases hj : j = i
    · subst hj
      simp only [State.goto_procs_self, State.goto_owner, howner]
      split <;> simp_all
    · rw [State.goto_procs_of_ne hj]
      exact hholds j hj
  · exact State.forall_setProc (Q := fun _ p => p.lock = p.pc.holdsOwn) h.lock_eq
      ((h.lock_eq i).trans hown.symm)
  · exact State.forall_setProc
      (Q := fun _ p => p.state = .sleeping → p.Waiting ∧ p.chan = some .sem) h.sleeping
      (fun hs => absurd (hr.symm.trans hs) nofun)
  · by_cases hji : j = i
    · subst hji
      rw [State.goto_procs_self] at hj
      exact hblocked hj
    · rw [State.goto_procs_of_ne hji] at hj
      have hfree := hothers j hji
      obtain hj | hj := hj <;> rw [hj] at hfree <;> cases hfree
  · by_cases hji : j = i
    · subst hji
      rw [State.goto_procs_self] at hj
      exact htaking hj
    · rw [State.goto_procs_of_ne hji] at hj
      have hfree := hothers j hji
      rw [hj] at hfree
      cases hfree
  · exact State.forall_setProc (Q := fun _ p => p.pc.managesSlot = false) h.user huser
  · by_cases hji : j = i
    · subst hji
      rw [State.goto_procs_self] at hj
      have hle : value.toInt ≤ 0 := by
        obtain hj | hj | ⟨-, hj⟩ := hj
        · exact hself (Or.inl hj)
        · exact hself (Or.inr hj)
        · exact absurd (hr.symm.trans hj) nofun
      exact absurd hv (by simpa using hle)
    · rw [State.goto_procs_of_ne hji] at hj
      obtain ⟨todo, htodo, hmem⟩ := hwaker hv j hji hj
      refine ⟨i, ?_, todo, ?_, hmem⟩
      · rw [State.goto_owner, howner, htodo]
        rfl
      · rw [State.goto_procs_self, htodo]

/-- With the lock free, nobody is inside a section. -/
theorem others_of_free (h : Counting k) (ho : k.owner = none) (j : Fin n) :
    (k.procs j).pc.holdsSem = false := by
  have hj := h.owner_iff j
  rw [ho] at hj
  simpa using hj

/-- While a process is inside a section, no other is. -/
theorem others_of_holds (h : Counting k) (hi : (k.procs i).pc.holdsSem = true) (hj : j ≠ i) :
    (k.procs j).pc.holdsSem = false := by
  by_contra hne
  exact hj (h.eq_of_holds hi (by simpa using hne))

/-- Acquiring the free lock. -/
theorem acquire (h : Counting k) (hr : (k.procs i).state = .running) {pc₀ pc : Pc n}
    (hpc : (k.procs i).pc = pc₀) (ha : Acquires pc₀ pc) (ho : k.owner = none) :
    Counting (State.goto { k with owner := some i } i pc) := by
  have huser : pc₀.managesSlot = false := hpc ▸ h.user i
  have hnone : 0 < k.value.toInt → ∀ j, j ≠ i → (k.procs j).Waiting →
      ∃ todo, pc = .upWake todo ∧ j ∈ todo :=
    fun hv j _ hj => absurd hj (h.nobody_of_free ho hv)
  cases ha
  case close => cases huser
  case up | down | sleep =>
    exact h.ofSection hr (fun j _ => h.others_of_free ho j) rfl (by rw [hpc]; rfl) nofun nofun rfl
      nofun hnone

/-- Releasing the lock, at the end of a section or inside `sleep`. -/
theorem release (h : Counting k) (hr : (k.procs i).state = .running) {pc₀ pc : Pc n}
    (hpc : (k.procs i).pc = pc₀) (ha : Releases pc₀ pc) :
    Counting (State.goto { k with owner := none } i pc) := by
  have huser : pc₀.managesSlot = false := hpc ▸ h.user i
  have hholds : (k.procs i).pc.holdsSem = true := by
    rw [hpc]
    cases ha <;> rfl
  have hnone : 0 < k.value.toInt → ∀ j, j ≠ i → (k.procs j).Waiting →
      ∃ todo, pc = .upWake todo ∧ j ∈ todo := by
    refine fun hv j _ hj => absurd hj (h.nobody_of_holds hholds (fun todo he => ?_) hv)
    rw [hpc] at he
    subst he
    cases ha
  cases ha
  case close => cases huser
  case up | down =>
    exact h.ofSection hr (fun j hj => h.others_of_holds hholds hj) rfl (by rw [hpc]; rfl) nofun nofun
      rfl nofun hnone
  case sleep =>
    exact h.ofSection hr (fun j hj => h.others_of_holds hholds hj) rfl (by rw [hpc]; rfl) nofun nofun
      rfl (fun _ => h.blocked i (Or.inr hpc)) hnone

/-- `s->value++`: everybody is to be visited by the `wakeup` that follows. -/
theorem add (h : Counting k) (hr : (k.procs i).state = .running) (hpc : (k.procs i).pc = .upAdd) :
    Counting (State.goto { k with value := k.value + 1 } i (.upWake (List.finRange n))) := by
  have hholds : (k.procs i).pc.holdsSem = true := by rw [hpc]; rfl
  exact h.ofSection hr (fun j hj => h.others_of_holds hholds hj) ((h.owner_iff i).mp hholds)
    (by rw [hpc]; rfl) nofun nofun rfl nofun
    (fun _ j _ _ => ⟨List.finRange n, rfl, List.mem_finRange j⟩)

/-- `s->value--` after the loop of `sem_down` has seen a positive value. -/
theorem take (h : Counting k) (hr : (k.procs i).state = .running)
    (hpc : (k.procs i).pc = .downTake) :
    Counting (State.goto { k with value := k.value - 1 } i .downRelease) := by
  have hholds : (k.procs i).pc.holdsSem = true := by rw [hpc]; rfl
  refine h.ofSection hr (fun j hj => h.others_of_holds hholds hj) ((h.owner_iff i).mp hholds)
    (by rw [hpc]; rfl) nofun nofun rfl nofun fun _ j _ hj => ?_
  refine absurd hj (h.nobody_of_holds hholds (fun todo he => ?_) (h.taking i hpc))
  rw [hpc] at he
  cases he

/-- A record without the process lock that is not asleep does not wait. -/
theorem not_waiting_of_unlocked {p : Proc n} (hl : p.pc.holdsOwn = false)
    (hs : p.state ≠ .sleeping) : ¬ p.Waiting := by
  rintro (h | h | ⟨-, h⟩)
  · rw [h] at hl
    cases hl
  · rw [h] at hl
    cases hl
  · exact hs h

/-- A process without its lock is made RUNNABLE if it slept, by `wakeup(s)` or by `kill`. -/
theorem awaken (h : Counting k) {q : Fin n} (hl : (k.procs q).lock = false) {p : Proc n}
    (hpc : p.pc = (k.procs q).pc) (hlock : p.lock = (k.procs q).lock) (hs : p.state ≠ .sleeping) :
    Counting (k.setProc q p) ∧ ¬ p.Waiting := by
  have hown : p.pc.holdsOwn = false := by rw [hpc, ← h.lock_eq q, hl]
  have hw : ¬ p.Waiting := not_waiting_of_unlocked hown hs
  refine ⟨h.setProc (by rw [hpc]) (by rw [hlock, hl, hown]) (fun he => absurd he hs)
    (by rw [hpc]; exact h.blocked q) (by rw [hpc]; exact h.taking q) (by rw [hpc]; exact h.user q)
    (fun he => absurd he hw) ?_, hw⟩
  rintro j - - ⟨todo, htodo, hmem⟩
  exact ⟨todo, by rw [hpc, htodo], hmem⟩

/-- `wakeup(s)` visits a process: it does not wait any longer. -/
theorem upWake (h : Counting k) (hr : (k.procs i).state = .running) {q : Fin n}
    {todo : List (Fin n)} (hpc : (k.procs i).pc = .upWake (q :: todo)) (hne : q ≠ i)
    (hl : (k.procs q).lock = false) :
    Counting ((k.setProc q (wake .sem (k.procs q))).goto i (.upWake todo)) := by
  have hs : (wake .sem (k.procs q)).state ≠ .sleeping := fun he =>
    (wake_sleeping he).2 (h.sleeping q (wake_sleeping he).1).2
  obtain ⟨h₁, hq⟩ := h.awaken hl (wake_pc _ _) (wake_lock _ _) hs
  have hi : (k.setProc q (wake .sem (k.procs q))).procs i = k.procs i :=
    State.setProc_procs_of_ne hne.symm _
  refine h₁.goto (by rw [hi, hr]) (by rw [hi, hpc]; rfl) (by rw [hi, hpc]; rfl) nofun nofun rfl
    ⟨nofun, nofun⟩ ?_
  rintro j hj hw ⟨rest, hrest, hmem⟩
  rw [hi, hpc] at hrest
  obtain rfl : q :: todo = rest := by simpa using hrest
  refine ⟨todo, rfl, (List.mem_cons.mp hmem).resolve_left ?_⟩
  rintro rfl
  rw [State.setProc_procs_self] at hw
  exact hq hw

/-- `kill` finds its process. -/
theorem kill (h : Counting k) (hr : (k.procs i).state = .running) {q : Fin n} {pid : Int}
    {todo : List (Fin n)} (hpc : (k.procs i).pc = .killScan pid (q :: todo))
    (hl : (k.procs q).lock = false) :
    Counting ((k.setProc q (markKilled (k.procs q))).goto i .user) := by
  obtain ⟨h₁, -⟩ := h.awaken hl (markKilled_pc _) (markKilled_lock _) (markKilled_awake _)
  have hi : ((k.setProc q (markKilled (k.procs q))).procs i).pc = (k.procs i).pc :=
    State.forall_setProc (Q := fun j p => p.pc = (k.procs j).pc) (fun _ => rfl) (markKilled_pc _) i
  have hri : ((k.setProc q (markKilled (k.procs q))).procs i).state = .running := by
    by_cases hiq : i = q
    · subst hiq
      rw [State.setProc_procs_self]
      simp only [markKilled, hr, reduceCtorEq, if_false]
    · rw [State.setProc_procs_of_ne hiq, hr]
  refine h₁.goto hri (by rw [hi, hpc]; rfl) (by rw [hi, hpc]; rfl) (by simp) (by simp) rfl (by simp) ?_
  intro j _ _ hw
  obtain ⟨rest, hrest, -⟩ := hw
  rw [hi, hpc] at hrest
  cases hrest

/-- The steps of `sleep` and of the scheduler on the record of the process itself. -/
theorem ofOwn (h : Counting k) {pc₀ : Pc n} (hpc : (k.procs i).pc = pc₀)
    (hne : ∀ todo, pc₀ ≠ .upWake todo) {p : Proc n} (hsem : p.pc.holdsSem = pc₀.holdsSem)
    (hown : p.lock = p.pc.holdsOwn) (hsleep : p.state = .sleeping → p.Waiting ∧ p.chan = some .sem)
    (hblocked : p.pc = .sleepAcquire ∨ p.pc = .sleepRelease → k.value.toInt ≤ 0)
    (htaking : p.pc ≠ .downTake) (huser : p.pc.managesSlot = false)
    (hwait : p.Waiting → (k.procs i).Waiting) : Counting (k.setProc i p) :=
  h.setProc (by rw [hsem, hpc]) hown hsleep hblocked (fun he => absurd he htaking) huser hwait
    (no_wake hpc hne)

/-- **A step preserves the invariant.** -/
theorem step (h : Counting k) {a : Action n} {evs : List (Event n)} (ha : a.usesSlot = true)
    (hs : Step k a k' evs) : Counting k' := by
  cases hs with
  | enter hr hpc =>
      rename_i i c
      have hsem : (c.entry : Pc n).holdsSem = false := by cases c <;> rfl
      have hown : (c.entry : Pc n).holdsOwn = false := by cases c <;> rfl
      refine h.goto hr (by rw [hpc, hsem]; rfl) (by rw [hpc, hown]; rfl) ?_ ?_ ?_ ?_
        -- a call begins outside the locked section
        (no_wake hpc nofun)
      · cases c <;> nofun
      · cases c <;> nofun
      · cases c <;> first | rfl | cases ha
      · cases c <;> exact ⟨nofun, nofun⟩
  | yield hr =>
      rename_i i
      have hw := h.waker
      refine h.setProc rfl (h.lock_eq i) nofun (h.blocked i) (h.taking i) (h.user i) ?_
        (fun j _ _ hwake => hwake)
      -- a process that is made runnable waits for nothing any more
      rintro (he | he | ⟨-, he⟩)
      · exact Or.inl he
      · exact Or.inr (Or.inl he)
      · cases he
  | resumeSleeper hst hl hpc =>
      exact h.ofOwn hpc nofun rfl rfl nofun nofun nofun rfl
        (fun hw => absurd hw (not_waiting_of_running rfl nofun nofun))
  | resumeOther hst hpc =>
      rename_i i
      refine h.setProc rfl (h.lock_eq i) nofun (h.blocked i) (h.taking i) (h.user i) ?_
        (fun j _ _ hwake => hwake)
      rintro (he | he | ⟨-, he⟩)
      · exact Or.inl he
      · exact Or.inr (Or.inl he)
      · cases he
  | panic => exact ⟨h.owner_iff, h.lock_eq, h.sleeping, h.blocked, h.taking, h.user, h.waker⟩
  | move hr hm hevs => exact h.move hr rfl hm
  -- opening and closing are not among the steps here
  | alloc hr hpc => exact absurd (h.user _) (by rw [hpc]; nofun)
  | giveBack hr hpc => exact absurd (h.user _) (by rw [hpc]; nofun)
  | assign hr hpc => exact absurd (h.user _) (by rw [hpc]; nofun)
  | free hr hpc hname => exact absurd (h.user _) (by rw [hpc]; nofun)
  | acquire hr ha' ho => exact h.acquire hr rfl ha' ho
  | release hr ha' ho hevs => exact h.release hr rfl ha'
  | add hr hpc => exact h.add hr hpc
  | take hr hpc => exact h.take hr hpc
  | closeWake hr hpc hne hl => exact absurd (h.user _) (by rw [hpc]; nofun)
  | upWake hr hpc hne hl => exact h.upWake hr hpc hne hl
  | kill hr hpc hl => exact h.kill hr hpc hl
  | lockOwn hr hpc =>
      exact h.ofOwn hpc nofun rfl rfl (fun he => absurd (hr.symm.trans he) nofun)
        (fun _ => h.blocked _ (Or.inl hpc)) nofun rfl
        (fun hw => absurd hw (not_waiting_of_running hr nofun nofun))
  | setSleeping hr hpc =>
      refine h.ofOwn hpc nofun rfl ?_ (fun _ => ⟨Or.inr (Or.inl rfl), rfl⟩) nofun nofun rfl
        (fun _ => Or.inl hpc)
      rw [h.lock_eq, hpc]
      rfl
  | switchOut hpc =>
      rename_i i
      refine h.ofOwn hpc nofun rfl rfl (fun he => ⟨Or.inr (Or.inr ⟨rfl, he⟩), (h.sleeping i he).2⟩)
        nofun nofun rfl (fun _ => Or.inr (Or.inl hpc))
  | tidy hr hpc =>
      exact h.ofOwn hpc nofun rfl rfl (fun he => absurd (hr.symm.trans he) nofun) nofun nofun rfl
        (fun hw => absurd hw (not_waiting_of_running hr nofun nofun))

end Counting

/-! ## The value -/

/-- The units added by a step. -/
def Event.isIncrement : Event n → Bool
  | .incremented _ => true
  | _ => false

/-- The units taken by a step. -/
def Event.isDecrement : Event n → Bool
  | .decremented _ => true
  | _ => false

/-- The value `v` with the units that the history adds and takes, modulo `2 ^ 32`. -/
def balance (v : BitVec 32) (evs : List (Event n)) : BitVec 32 :=
  v + BitVec.ofNat 32 (evs.countP Event.isIncrement) -
    BitVec.ofNat 32 (evs.countP Event.isDecrement)

/-- The balance of no events. -/
@[simp] theorem balance_nil (v : BitVec 32) : balance v ([] : List (Event n)) = v := by
  simp [balance]

/-- The balance after more events. -/
theorem balance_append (v : BitVec 32) (evs new : List (Event n)) :
    balance v (evs ++ new) = balance (balance v evs) new := by
  simp only [balance, List.countP_append, BitVec.ofNat_add]
  grind

/-- Events that add and take nothing. -/
theorem balance_of_returns (v : BitVec 32) {evs : List (Event n)} {i : Fin n}
    (h : evs = [] ∨ evs = [.returned i]) : balance v evs = v := by
  obtain rfl | rfl := h <;> simp [balance, Event.isIncrement, Event.isDecrement]

/-- A step changes the value as its events say. -/
theorem value_step (h : Counting k) {a : Action n} {evs : List (Event n)} (hs : Step k a k' evs) :
    k'.value = balance k.value evs := by
  cases hs with
  | enter | yield | resumeSleeper | resumeOther | panic | alloc | acquire | closeWake | upWake
  | lockOwn | switchOut | tidy => exact (balance_nil _).symm
  | move hr hm hevs => exact (balance_of_returns _ hevs).symm
  | release hr ha ho hevs => exact (balance_of_returns _ hevs).symm
  | giveBack => exact (balance_of_returns _ (Or.inr rfl)).symm
  | assign hr hpc => exact absurd (h.user _) (by rw [hpc]; nofun)
  | free hr hpc => exact absurd (h.user _) (by rw [hpc]; nofun)
  | add => simp [balance, Event.isIncrement, Event.isDecrement]
  | take => simp [balance, Event.isIncrement, Event.isDecrement]
  | setSleeping => simp [balance, Event.isIncrement, Event.isDecrement]
  | kill => split <;> simp [balance, Event.isIncrement, Event.isDecrement]

/-- Process 1 goes to sleep in `sem_down`; process 0 adds a unit, which wakes it, and process 1 takes
the unit. -/
def upAndDown : List (Action 2) :=
  .call proc1 .semDown :: List.replicate 7 (.run proc1) ++ .call proc0 .semUp ::
    List.replicate 7 (.run proc0) ++ .dispatch proc1 :: List.replicate 5 (.run proc1)

/-- The slot that process 0 has opened with the value 0. -/
def openedEmpty : State 2 := { boot 2 [] with isOpen := true, name := some 4096 }

/-- **Counting and no lost wake-up.** In every run of `sem_up`, `sem_down` and `kill` on a semaphore
opened with the value `v`, the value is at every moment `v` plus the increments minus the decrements,
modulo `2 ^ 32`; and whenever nobody holds `s->locked` and the value is positive, nobody is asleep on
the semaphore, whether or not process locks are held. -/
theorem semaphore_counts {k₀ : State n} (h₀ : JustOpened v k₀) {as : List (Action n)}
    (has : ∀ a ∈ as, a.usesSlot = true) {evs : List (Event n)}
    (h : exec [] k₀ as = some (evs, k)) :
    k.value = v + BitVec.ofNat 32 (evs.countP Event.isIncrement) -
        BitVec.ofNat 32 (evs.countP Event.isDecrement) ∧
      (k.owner = none → 0 < k.value.toInt → ∀ i, ¬ k.SleepsOn .sem i) := by
  have hinv : k.value = balance v evs ∧ Counting k := by
    refine Transition.exec_invariant (C := fun _ _ a => a.usesSlot = true)
      (I := fun evs k => k.value = balance v evs ∧ Counting k) ?_
      ⟨h₀.value.trans (balance_nil v).symm, h₀.counting⟩ (Transition.meets_of_forall_mem has) h
    rintro evs k a k' new ⟨hv, hc⟩ ha hs
    have hst := step_inv hs
    exact ⟨by rw [balance_append, ← hv, value_step hc hst], hc.step ha hst⟩
  refine ⟨hinv.1, fun howner hv i hi => ?_⟩
  exact hinv.2.nobody_of_free howner hv (hinv.2.sleeping i hi.1).1

/-- The run of `upAndDown`: the value is again 0, and no lock is held. -/
theorem semaphore_counts_upAndDown : ∃ r, exec [] openedEmpty upAndDown = some r ∧
    r.2.owner = none ∧ (∀ i, (r.2.procs i).pc = .user) ∧
    r.2.value = 0 + BitVec.ofNat 32 (r.1.countP Event.isIncrement) -
        BitVec.ofNat 32 (r.1.countP Event.isDecrement) ∧
      (r.2.owner = none → 0 < r.2.value.toInt → ∀ i, ¬ r.2.SleepsOn .sem i) := by
  have hrun : ∃ r, exec [] openedEmpty upAndDown = some r ∧ r.2.owner = none ∧
      ∀ i, (r.2.procs i).pc = .user := by
    decide +kernel
  obtain ⟨⟨evs, k⟩, h, howner, hpc⟩ := hrun
  have h₀ : JustOpened 0 openedEmpty := ⟨⟨rfl, fun _ => rfl, fun _ => rfl, fun _ => nofun⟩, rfl, rfl⟩
  exact ⟨(evs, k), h, howner, hpc, semaphore_counts h₀ (by decide) h⟩

end Kernel

end OsLabs
