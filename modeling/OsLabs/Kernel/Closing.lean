import OsLabs.Kernel.Steps

/-! # Closing a semaphore that has sleepers

`sem_close` clears the flag and then calls `wakeup(&s->locked)`, but `sem_down` sleeps on `s`; and the
loop of `sem_down` looks neither at the flag nor at `p->killed` when the process runs again. So a
process asleep at the close stays asleep, or takes a unit of the slot's next user, and a killed
process goes back to sleep.

`LeavesNobody` is what is expected of a run. `SparesSleepers` is the condition on its steps under
which it holds: a slot is closed only when nobody is asleep in `sem_down` or about to be, and the loop
of `sem_down` finds no unit only on an open slot and for a process that was not killed in its sleep. -/

namespace OsLabs

namespace Kernel

variable {n : Nat} {k k' : State n} {evs : List (Event n)} {a : Action n} {i j : Fin n}

/-! ## What is expected -/

/-- After a completed close nobody is asleep on the semaphore until it is opened again; a process
asleep at the close neither takes a unit of the reopened slot nor goes back to sleep on it in the same
call; and a process killed in its sleep does not go back to sleep in the same call. -/
structure LeavesNobody (evs : List (Event n)) (k : State n) : Prop where
  closed : ∀ pre c page asleep mid, evs = pre ++ .closed c page asleep :: mid → .returned c ∈ mid →
    (∀ e ∈ mid, e.isOpened = false) → ∀ i, ¬ k.SleepsOn .sem i
  orphans : ∀ pre c page asleep mid e post i,
    evs = pre ++ .closed c page asleep :: (mid ++ e :: post) → i ∈ asleep → .returned i ∉ mid →
    (∃ x ∈ mid, x.isOpened = true) → e ≠ .decremented i ∧ e ≠ .slept i
  killed : ∀ pre i mid post, evs = pre ++ .killedAsleep i :: (mid ++ .slept i :: post) →
    .returned i ∈ mid

/-! ## The step condition -/

/-- A process that has found no unit and is on its way to `p->state = SLEEPING`. -/
def Proc.Nodding (p : Proc n) : Prop :=
  p.pc = .sleepAcquire ∨ p.pc = .sleepRelease ∨ p.pc = .sleepSet

/-- A process that is asleep in `sem_down`, or on its way to sleep. -/
def Proc.Drowsy (p : Proc n) : Prop :=
  p.Nodding ∨ p.pc = .sched ∨ (p.pc = .asleep ∧ p.state = .sleeping)

/-- The history has a kill of `i` in its sleep, and `i` has not returned since. -/
def killPending (i : Fin n) (evs : List (Event n)) : Bool :=
  Transition.since (· == .killedAsleep i) (· == .returned i) evs

/-- The loop test of `sem_down` that finds no unit in process `i`. -/
def Blocks (k : State n) (i : Fin n) : Prop :=
  (k.procs i).pc = .downLoop ∧ k.value.toInt ≤ 0

/-- The slot is closed only when no process is asleep in `sem_down` or on its way, and the loop of
`sem_down` finds no unit only on an open slot and for a process that was not killed in its sleep. -/
def SparesSleepers (evs : List (Event n)) (k : State n) : Action n → Prop
  | .run i =>
      ((k.procs i).pc = .closeFree → ∀ j, ¬ (k.procs j).Drowsy) ∧
        (Blocks k i → k.isOpen = true ∧ killPending i evs = false)
  | _ => True

instance (p : Proc n) : Decidable p.Nodding := inferInstanceAs (Decidable (_ ∨ _))

instance (p : Proc n) : Decidable p.Drowsy := inferInstanceAs (Decidable (_ ∨ _))

instance (k : State n) (i : Fin n) : Decidable (Blocks k i) := inferInstanceAs (Decidable (_ ∧ _))

instance (evs : List (Event n)) (k : State n) : (a : Action n) → Decidable (SparesSleepers evs k a)
  | .run _ => inferInstanceAs (Decidable (_ ∧ _))
  | .call _ _ | .dispatch _ | .yield _ => isTrue trivial

/-! ## What one step does to one process -/

/-- A record `p` that a step may leave of process `j`: it is on its way to sleep, or asleep, only if
`j` was, or if the step is the loop of `sem_down` in `j`; and only `sched` and the scheduler's
processes are SLEEPING. -/
structure Settled (k : State n) (a : Action n) (j : Fin n) (p : Proc n) : Prop where
  nodding : p.Nodding → (k.procs j).Nodding ∨ (a = .run j ∧ Blocks k j)
  drowsy : p.Drowsy → (k.procs j).Drowsy ∨ (a = .run j ∧ Blocks k j)
  sleeping : p.state = .sleeping → p.pc = .sched ∨ p.pc = .asleep

/-- Every process that is SLEEPING is in `sched`, or has left the CPU there. -/
def SleepsInSched (k : State n) : Prop :=
  ∀ j, (k.procs j).state = .sleeping → (k.procs j).pc = .sched ∨ (k.procs j).pc = .asleep

/-- A running process at a program counter away from `sleep`. -/
theorem Settled.of_running {p : Proc n} (hr : p.state = .running)
    (hpc : p.pc ≠ .sleepAcquire ∧ p.pc ≠ .sleepRelease ∧ p.pc ≠ .sleepSet ∧ p.pc ≠ .sched) :
    Settled k a j p := by
  have hnod : ¬ p.Nodding := by
    rintro (h | h | h)
    · exact hpc.1 h
    · exact hpc.2.1 h
    · exact hpc.2.2.1 h
  refine ⟨fun h => absurd h hnod, ?_, fun h => absurd (hr.symm.trans h) nofun⟩
  rintro (h | h | ⟨-, h⟩)
  · exact absurd h hnod
  · exact absurd h hpc.2.2.2
  · exact absurd (hr.symm.trans h) nofun

/-- A record with the program counter of `j` that is SLEEPING only if `j` is. -/
theorem Settled.of_pc (hk : SleepsInSched k) {p : Proc n} (hpc : p.pc = (k.procs j).pc)
    (hs : p.state = .sleeping → (k.procs j).state = .sleeping) : Settled k a j p := by
  refine ⟨fun h => Or.inl ?_, fun h => Or.inl ?_, fun h => ?_⟩
  · simpa only [Proc.Nodding, hpc] using h
  · obtain h | h | ⟨h, h'⟩ := h
    · exact Or.inl (by simpa only [Proc.Nodding, hpc] using h)
    · exact Or.inr (Or.inl (hpc ▸ h))
    · exact Or.inr (Or.inr ⟨hpc ▸ h, hs h'⟩)
  · rw [hpc]
    exact hk j (hs h)

/-- **What a step does to each process.** -/
theorem settled_step (hk : SleepsInSched k) (hs : Step k a k' evs) :
    ∀ j, Settled k a j (k'.procs j) := by
  have hsame : ∀ j, Settled k a j (k.procs j) := fun j => .of_pc hk rfl id
  cases hs with
  | enter hr hpc =>
      rename_i i c
      refine State.forall_setProc hsame (.of_running hr ?_)
      cases c <;> exact ⟨nofun, nofun, nofun, nofun⟩
  | yield hr => exact State.forall_setProc hsame (.of_pc hk rfl nofun)
  | resumeSleeper hst hl hpc =>
      exact State.forall_setProc hsame (.of_running rfl ⟨nofun, nofun, nofun, nofun⟩)
  | resumeOther hst hpc => exact State.forall_setProc hsame (.of_pc hk rfl nofun)
  | panic => exact hsame
  | move hr hm hevs =>
      rename_i i pc
      refine State.forall_setProc hsame ?_
      generalize hpc : (k.procs i).pc = pc₀ at hm
      cases hm
      -- only the test in the loop of `sem_down` sends a process on its way to sleep
      case downBlock hv =>
        exact ⟨fun _ => Or.inr ⟨rfl, hpc, hv⟩, fun _ => Or.inr ⟨rfl, hpc, hv⟩,
          fun h => absurd (hr.symm.trans h) nofun⟩
      all_goals exact .of_running hr ⟨nofun, nofun, nofun, nofun⟩
  | alloc hr | giveBack hr | assign hr | free hr | add hr | take hr | tidy hr =>
      exact State.forall_setProc hsame (.of_running hr ⟨nofun, nofun, nofun, nofun⟩)
  | acquire hr ha ho =>
      rename_i i pc
      refine State.forall_setProc hsame (.of_running hr ?_)
      generalize (k.procs i).pc = pc₀ at ha
      cases ha <;> exact ⟨nofun, nofun, nofun, nofun⟩
  | release hr ha ho hevs =>
      rename_i i pc
      refine State.forall_setProc hsame ?_
      generalize hpc : (k.procs i).pc = pc₀ at ha
      cases ha
      -- `sleep` gives the semaphore's lock back while it holds its own
      case sleep =>
        have hold : (k.procs i).Nodding := Or.inr (Or.inl hpc)
        exact ⟨fun _ => Or.inl hold, fun _ => Or.inl (Or.inl hold),
          fun h => absurd (hr.symm.trans h) nofun⟩
      all_goals exact .of_running hr ⟨nofun, nofun, nofun, nofun⟩
  | closeWake hr hpc hne hl =>
      exact forall_visit hsame (.of_pc hk (wake_pc _ _) fun h => (wake_sleeping h).1) hr
        (fun he => absurd he.symm hne) fun p hp => .of_running hp ⟨nofun, nofun, nofun, nofun⟩
  | upWake hr hpc hne hl =>
      exact forall_visit hsame (.of_pc hk (wake_pc _ _) fun h => (wake_sleeping h).1) hr
        (fun he => absurd he.symm hne) fun p hp => .of_running hp ⟨nofun, nofun, nofun, nofun⟩
  | kill hr hpc hl =>
      refine forall_visit hsame
        (.of_pc hk (markKilled_pc _) fun h => absurd h (markKilled_awake _)) hr ?_
        fun p hp => .of_running hp ⟨nofun, nofun, nofun, nofun⟩
      rintro rfl
      simp only [markKilled, hr, reduceCtorEq, if_false]
  | lockOwn hr hpc =>
      have hold : (k.procs _).Nodding := Or.inl hpc
      exact State.forall_setProc hsame ⟨fun _ => Or.inl hold, fun _ => Or.inl (Or.inl hold),
        fun h => absurd (hr.symm.trans h) nofun⟩
  | setSleeping hr hpc =>
      refine State.forall_setProc hsame ⟨?_, fun _ => Or.inl (Or.inl (Or.inr (Or.inr hpc))),
        fun _ => Or.inl rfl⟩
      rintro (h | h | h) <;> cases h
  | switchOut hpc =>
      refine State.forall_setProc hsame ⟨?_, fun _ => Or.inl (Or.inr (Or.inl hpc)),
        fun _ => Or.inr rfl⟩
      rintro (h | h | h) <;> cases h

/-! ## The invariant -/

/-- What holds in a run whose steps meet the condition. -/
structure Quiet (evs : List (Event n)) (k : State n) : Prop where
  sleeps : SleepsInSched k
  isOpen : ∀ j, (k.procs j).Drowsy → k.isOpen = true
  gone : Transition.since Event.isClosed Event.isOpened evs = true → k.isOpen = false
  awake : ∀ c page asleep, .closed c page asleep ∈ evs → asleep = []
  spared : ∀ j, killPending j evs = true → ¬ (k.procs j).Nodding
  killed : ∀ j, Transition.Guarded (· == .killedAsleep j) (· == .returned j) (· == .slept j) evs

/-- The invariant holds while nothing is in progress. -/
theorem Idle.quiet (h : Idle k) : Quiet [] k where
  sleeps j hj := absurd hj (h.awake j)
  isOpen j hj := by
    obtain (hj | hj | hj) | hj | ⟨hj, -⟩ := hj <;> rw [h.user j] at hj <;> cases hj
  gone hs := by cases hs
  awake _ _ _ h := by cases h
  spared _ hs := by cases hs
  killed _ := Transition.guarded_nil _ _ _

/-- A process asleep on the semaphore is drowsy. -/
theorem drowsy_of_sleepsOn (hk : SleepsInSched k) {c : Chan} (h : k.SleepsOn c j) :
    (k.procs j).Drowsy := by
  obtain hpc | hpc := hk j h.1
  · exact Or.inr (Or.inl hpc)
  · exact Or.inr (Or.inr ⟨hpc, h.1⟩)

/-- A process asleep on the semaphore is no longer on its way to sleep. -/
theorem not_nodding_of_sleepsOn (hk : SleepsInSched k) {c : Chan} (h : k.SleepsOn c j) :
    ¬ (k.procs j).Nodding := by
  obtain hpc | hpc := hk j h.1 <;> rintro (hn | hn | hn) <;> rw [hpc] at hn <;> cases hn

/-- Only a process killed in its sleep becomes pending, and not by itself. -/
theorem killPending_emits {new : List (Event n)} (he : Emits k a k' new)
    (h : killPending j (evs ++ new) = true) :
    killPending j evs = true ∨ (k.SleepsOn .sem j ∧ a ≠ .run j) := by
  cases he with
  | none => exact Or.inl (by simpa using h)
  | plain hopen hname he =>
      rename_i e
      have hne : (e == Event.killedAsleep j) = false := by cases e <;> first | rfl | cases he
      simp only [killPending, Transition.since_concat, hne, Bool.false_or, Bool.and_eq_true] at h
      exact Or.inl h.1
  | opened | closed | slept =>
      refine Or.inl ?_
      simp only [killPending, Transition.since_pair, Transition.since_concat, Bool.or_eq_true,
        Bool.and_eq_true, beq_iff_eq, reduceCtorEq, false_or] at h
      first | exact h.1 | exact h.1.1
  | killed hs hopen hname =>
      rename_i i q
      simp only [killPending, Transition.since_pair, Bool.or_eq_true, Bool.and_eq_true, beq_iff_eq,
        reduceCtorEq, false_or, Event.killedAsleep.injEq, Bool.not_eq_true', beq_eq_false_iff_ne,
        ne_eq, Event.returned.injEq] at h
      obtain ⟨rfl | ⟨hp, -⟩, hne⟩ := h
      · exact Or.inr ⟨hs, fun ha => hne (Action.run.inj ha)⟩
      · exact Or.inl hp

/-- **A step that meets the condition preserves the invariant.** -/
theorem Quiet.step {new : List (Event n)} (h : Quiet evs k) (hc : SparesSleepers evs k a)
    (hs : Step k a k' new) : Quiet (evs ++ new) k' := by
  have hset := settled_step h.sleeps hs
  have he := emits hs
  have hblocks : ∀ j, a = .run j ∧ Blocks k j → k.isOpen = true ∧ killPending j evs = false := by
    rintro j ⟨rfl, hb⟩
    exact hc.2 hb
  have hdrowsy : ∀ j, (k'.procs j).Drowsy → k.isOpen = true := fun j hj =>
    ((hset j).drowsy hj).elim (h.isOpen j) fun hb => (hblocks j hb).1
  refine ⟨fun j => (hset j).sleeping, fun j hj => ?_, fun hg => ?_, fun c page asleep hm => ?_,
    fun j hp hn => ?_, fun j => ?_⟩
  · cases he with
    | none hopen | plain hopen | slept hpc hopen | killed hk hopen => rw [hopen, hdrowsy j hj]
    | opened hpc hopen => exact hopen
    | closed hpc =>
        -- at a close that meets the condition nobody is drowsy, and the step makes nobody so
        refine ((hset j).drowsy hj).elim (fun hd => absurd hd (hc.1 hpc j)) ?_
        rintro ⟨ha, hb, -⟩
        obtain rfl := Action.run.inj ha
        rw [hpc] at hb
        cases hb
  · cases he with
    | none hopen => rw [hopen, h.gone (by simpa using hg)]
    | plain hopen hname hplain =>
        rename_i e
        have hne : e.isClosed = false := by cases e <;> first | rfl | cases hplain
        simp only [Transition.since_concat, hne, Bool.false_or, Bool.and_eq_true] at hg
        rw [hopen, h.gone hg.1]
    | opened => simp [Event.isClosed, Event.isOpened] at hg
    | closed hpc hpage hopen => exact hopen
    | slept hpc hopen =>
        simp only [Transition.since_concat, Event.isClosed, Bool.false_or, Bool.and_eq_true] at hg
        rw [hopen, h.gone hg.1]
    | killed hk hopen =>
        simp only [Transition.since_pair, Event.isClosed, Bool.false_or, Bool.and_eq_true] at hg
        rw [hopen, h.gone hg.1.1]
  · rw [List.mem_append] at hm
    refine hm.elim (h.awake c page asleep) fun hm => ?_
    cases he with
    | none => cases hm
    | plain hopen hname hplain =>
        obtain rfl := List.mem_singleton.mp hm
        cases hplain
    | opened | killed => simp at hm
    | slept => simp at hm
    | closed hpc =>
        obtain ⟨-, -, rfl⟩ : _ ∧ _ ∧ asleep = k.sleepers := by simpa using hm
        refine List.filter_eq_nil_iff.mpr fun i _ hi => ?_
        exact hc.1 hpc i (drowsy_of_sleepsOn h.sleeps (of_decide_eq_true hi))
  · obtain hp | ⟨hk, ha⟩ := killPending_emits he hp
    · refine ((hset j).nodding hn).elim (h.spared j hp) fun hb => ?_
      rw [(hblocks j hb).2] at hp
      cases hp
    · exact ((hset j).nodding hn).elim (not_nodding_of_sleepsOn h.sleeps hk) fun hb => ha hb.1
  · cases he with
    | none | opened | closed | killed => exact (h.killed j).append (by simp)
    | plain hopen hname hplain =>
        refine (h.killed j).concat fun hsl => ?_
        obtain rfl := beq_iff_eq.mp hsl
        cases hplain
    | slept hpc =>
        refine (h.killed j).concat fun hsl => ?_
        obtain rfl := Event.slept.inj (beq_iff_eq.mp hsl)
        by_contra hp
        exact h.spared _ (eq_true_of_ne_false hp) (Or.inr (Or.inr hpc))

/-- The invariant gives what is expected. -/
theorem Quiet.leavesNobody (h : Quiet evs k) : LeavesNobody evs k where
  closed pre c page asleep mid heq _ hmid i hi := by
    have hsince : Transition.since Event.isClosed Event.isOpened evs = true := by
      rw [heq]
      exact Transition.since_of_append _ rfl hmid
    have hopen := h.isOpen i (drowsy_of_sleepsOn h.sleeps hi)
    rw [h.gone hsince] at hopen
    cases hopen
  orphans pre c page asleep mid e post i heq hi := by
    have hnil : asleep = [] := h.awake c page asleep (by rw [heq]; simp)
    rw [hnil] at hi
    cases hi
  killed pre i mid post heq := by
    obtain ⟨z, hz, he⟩ := h.killed i pre _ mid _ post heq (beq_self_eq_true _) (beq_self_eq_true _)
    obtain rfl := beq_iff_eq.mp he
    exact hz

/-! ## Runs -/

/-- **Nobody stays blocked on a closed semaphore, in the runs that spare sleepers.** From a slot with
nothing in progress, in every run in which the slot is closed only when no process is asleep in
`sem_down` or on its way, and in which the loop of `sem_down` finds no unit only on an open slot and
for a process that was not killed in its sleep. -/
theorem leavesNobody_of_sparesSleepers {k₀ : State n} (h₀ : Idle k₀) {as : List (Action n)}
    (hc : Transition.Meets step SparesSleepers [] k₀ as) {evs : List (Event n)}
    (h : exec [] k₀ as = some (evs, k)) : LeavesNobody evs k := by
  refine Quiet.leavesNobody (Transition.exec_invariant (I := Quiet) ?_ h₀.quiet hc h)
  intro evs k a k' new hq hc hs
  exact hq.step hc (step_inv hs)

/-- Process 0 opens the slot with the value 0; process 1 goes to sleep in `sem_down`, process 0 wakes it with
a unit, process 1 takes the unit; process 0 closes. -/
def openWakeClose : List (Action 2) :=
  .call proc0 (.semOpen 0) :: List.replicate 3 (.run proc0) ++ .call proc1 .semDown ::
    List.replicate 7 (.run proc1) ++ .call proc0 .semUp :: List.replicate 7 (.run proc0) ++
    .dispatch proc1 :: List.replicate 5 (.run proc1) ++ .call proc0 .semClose :: List.replicate 7 (.run proc0)

/-- The run of `openWakeClose` meets the condition. -/
theorem leavesNobody_openWakeClose : ∃ r, exec [] (boot 2 [4096]) openWakeClose = some r ∧
    .slept proc1 ∈ r.1 ∧ (r.2.procs proc0).pc = .user ∧ r.2.isOpen = false ∧ LeavesNobody r.1 r.2 := by
  have hrun : ∃ r, exec [] (boot 2 [4096]) openWakeClose = some r ∧ .slept proc1 ∈ r.1 ∧
      (r.2.procs proc0).pc = .user ∧ r.2.isOpen = false := by
    decide +kernel
  obtain ⟨⟨evs, k⟩, h, hslept, hpc, hopen⟩ := hrun
  have hc : Transition.Meets step SparesSleepers [] (boot 2 [4096]) openWakeClose := by decide +kernel
  exact ⟨(evs, k), h, hslept, hpc, hopen, leavesNobody_of_sparesSleepers (idle_boot 2 [4096]) hc h⟩

/-- Process 0 opens the slot with the value 0, process 1 goes to sleep in `sem_down`, and process 0
closes the slot. -/
def closeOnSleeper : List (Action 2) :=
  .call proc0 (.semOpen 0) :: List.replicate 3 (.run proc0) ++ .call proc1 .semDown ::
    List.replicate 7 (.run proc1) ++ .call proc0 .semClose :: List.replicate 7 (.run proc0)

/-- **A close leaves a process asleep.** After the run of `closeOnSleeper` the close has returned and
process 1 is still asleep on the semaphore. -/
theorem not_forall_leavesNobody : ¬ ∀ (n : Nat) (k₀ k : State n) (as : List (Action n))
    (evs : List (Event n)), Idle k₀ → exec [] k₀ as = some (evs, k) → LeavesNobody evs k := by
  intro hall
  have hrun : ∃ r, exec [] (boot 2 [4096]) closeOnSleeper = some r ∧
      r.1 = [.opened 0 4096, .returned 0, .slept 1] ++
        .closed 0 4096 [1] :: [.returned 0] ∧ r.2.SleepsOn .sem 1 := by
    decide +kernel
  obtain ⟨⟨evs, k⟩, h, hevs, hsleep⟩ := hrun
  exact (hall 2 _ k closeOnSleeper evs (idle_boot 2 [4096]) h).closed _ 0 4096 [1] [.returned 0] hevs
    (by decide) (by decide) 1 hsleep

end Kernel

end OsLabs
