import OsLabs.Sched.LockOrder

/-! # The cycle between the tick lock and the process locks

`clockintr` calls `wakeup(&ticks)` with `tickslock` held, and so acquires every `p->lock` in turn;
`sched` acquires `tickslock` with its own `p->lock` held. A hart in `sched` and hart 0 in `clockintr`
may therefore wait for each other. They do in no other way: a run keeps clear of a cycle exactly when
no process enters `sched` while `clockintr` waits for its lock, and `clockintr` does not turn to the
lock of a process that waits in `sched` (`always_not_lockCycle_iff`). -/

namespace OsLabs

namespace Sched

open Transition

variable {H N : Nat} {k k' : State H N} {f g h : Fin H} {p q : Fin N}

/-! ## The step condition -/

/-- The process whose lock the `wakeup` of `clockintr` waits for on a hart. -/
def Hart.visits (x : Hart N) : Option (Fin N) :=
  match x.pc with
  | .clockWake (q :: _) _ => some q
  | _ => none

/-- The process that waits for `tickslock` in `sched` on a hart. -/
def Hart.inSched (x : Hart N) : Option (Fin N) :=
  match x.pc with
  | .sched .acquire _ => x.proc
  | _ => none

/-- The code whose next step calls `sched`. -/
def Pc.entersSched : Pc N → Bool
  | .yieldSet _ | .sleepSet _ | .exitSet => true
  | _ => false

/-- The process that the `wakeup` of `clockintr` turns to next; `others` are those it visits. -/
def Pc.turnsTo (others : List (Fin N)) : Pc N → Option (Fin N)
  | .clockTick _ => others.head?
  | .clockVisit _ todo _ => todo.head?
  | _ => none

/-- The process that the `wakeup` of `clockintr` turns to in the next step of hart `h`. -/
def State.turnsTo (k : State H N) (h : Fin H) : Option (Fin N) :=
  (k.harts h).pc.turnsTo (k.others h)

/-- A process enters `sched` only if no `clockintr` waits for its lock, and `clockintr` turns to the
lock of a process only if that process does not wait in `sched`. -/
def State.KeepsOrder (k : State H N) : Action H N → Prop
  | .run h =>
      ((k.harts h).pc.entersSched = true → ∀ p, (k.harts h).proc = some p →
          ∀ f, (k.harts f).visits ≠ some p) ∧
        ∀ q, k.turnsTo h = some q → ∀ g, (k.harts g).inSched ≠ some q
  | _ => True

instance (k : State H N) : (a : Action H N) → Decidable (k.KeepsOrder a)
  | .run _ => inferInstanceAs (Decidable (_ ∧ _))
  | .call _ _ | .timer _ | .kill _ => isTrue trivial

/-- **The shape of a cycle.** Some hart waits in `clockintr` for the lock of a process that waits in
`sched`. -/
theorem Discipline.lockCycle_iff_visits (hd : Discipline k) :
    k.LockCycle ↔ ∃ f g p, (k.harts f).visits = some p ∧ (k.harts g).inSched = some p := by
  rw [hd.lockCycle_iff, hd.jam_iff]
  constructor
  · rintro ⟨f, g, p, todo, pt, r, hf, hg, hp⟩
    refine ⟨f, g, p, ?_, ?_⟩
    · rw [Hart.visits, hf]
    · rw [Hart.inSched, hg]
      exact hp
  · rintro ⟨f, g, p, hf, hg⟩
    unfold Hart.visits at hf
    unfold Hart.inSched at hg
    split at hf
    · next q todo pt hpc =>
        cases hf
        split at hg
        · next r hpcg => exact ⟨f, g, p, todo, pt, r, hpc, hpcg, hg⟩
        · cases hg
    · cases hf

/-! ## Where a step leads a hart -/

/-- A step of hart `h` replaces its record by `x`. -/
def MovesTo (k k' : State H N) (h : Fin H) (x : Hart N) : Prop :=
  k'.harts = Function.update k.harts h x

/-- The record of the hart that moved. -/
theorem MovesTo.eq {x : Hart N} (hm : MovesTo k k' h x) : k'.harts h = x := by
  rw [hm, Function.update_self]

/-- The records of the other harts. -/
theorem MovesTo.of_ne {x : Hart N} (hm : MovesTo k k' h x) (hg : g ≠ h) :
    k'.harts g = k.harts g := by
  rw [hm, Function.update_of_ne hg]

/-- Lock operations move the hart that executes them. -/
theorem acquireTicks_movesTo {pc : Pc N} (ha : acquireTicks k h pc = some k') :
    MovesTo k k' h ⟨(k.harts h).proc, pc⟩ := by
  unfold acquireTicks at ha
  split at ha <;> cases ha
  rfl

/-- Releasing `tickslock` moves the hart on, with the same process. -/
theorem releaseTicks_movesTo {pc : Pc N} (ha : releaseTicks k h pc = some k') :
    MovesTo k k' h ⟨(k.harts h).proc, pc⟩ := by
  unfold releaseTicks at ha
  split at ha <;> cases ha
  rfl

/-- Acquiring the lock of a process moves the hart on. -/
theorem acquireProc_movesTo {pc : Pc N} (ha : acquireProc k h p pc = some k') :
    MovesTo k k' h ⟨(k.harts h).proc, pc⟩ := by
  unfold acquireProc at ha
  split at ha <;> cases ha
  rfl

/-- Releasing the lock of a process moves the hart on. -/
theorem releaseProc_movesTo {pc : Pc N} (ha : releaseProc k h p pc = some k') :
    MovesTo k k' h ⟨(k.harts h).proc, pc⟩ := by
  unfold releaseProc at ha
  split at ha <;> cases ha
  rfl

/-- A release after a change to the record of a process. -/
theorem setProc_releaseProc_movesTo {pc : Pc N} {y : Proc N}
    (ha : releaseProc (k.setProc q y) h p pc = some k') :
    MovesTo k k' h ⟨(k.harts h).proc, pc⟩ :=
  releaseProc_movesTo (k := k.setProc q y) ha

/-- A step from a point without locks leads neither into the `wakeup` of `clockintr` nor into
`sched`. -/
theorem nextAt_movesTo {pt : Point N} (ha : nextAt k h pt = some k') :
    ∃ x, MovesTo k k' h x ∧ x.visits = none ∧ x.inSched = none := by
  cases pt with
  | user => cases ha
  | scan p => exact ⟨_, acquireProc_movesTo ha, rfl, rfl⟩
  | napAcquire n => exact ⟨_, acquireTicks_movesTo ha, rfl, rfl⟩
  | relock s =>
      cases s with
      | ticks ticks0 n => exact ⟨_, acquireTicks_movesTo ha, rfl, rfl⟩
      | other c =>
          cases ha
          exact ⟨_, rfl, rfl, rfl⟩
  | wake c todo =>
      cases todo with
      | nil =>
          cases ha
          exact ⟨_, rfl, rfl, rfl⟩
      | cons q todo => exact ⟨_, acquireProc_movesTo ha, rfl, rfl⟩

/-- A step inside `sched` leads past its `acquire(&tickslock)`. -/
theorem nextSched_movesTo {stage : Stage} {r : Resume N} (ha : nextSched k h r stage = some k') :
    ∃ x, MovesTo k k' h x ∧ x.visits = none ∧ x.inSched = none := by
  cases stage with
  | acquire => exact ⟨_, acquireTicks_movesTo ha, rfl, rfl⟩
  | release => exact ⟨_, releaseTicks_movesTo ha, rfl, rfl⟩
  | read | swtch =>
      obtain ⟨p, hp, ha⟩ := withProc_eq_some ha
      cases ha
      exact ⟨_, rfl, rfl, rfl⟩

/-- **Where a step leads.** A hart waits in `clockintr` for the lock it turned to, and waits in
`sched` if it was about to enter it. -/
theorem next_movesTo {pc : Pc N} (hpc : (k.harts h).pc = pc) (ha : next k h pc = some k') :
    ∃ x, MovesTo k k' h x ∧ x.visits = k.turnsTo h ∧
      x.inSched = if pc.entersSched then (k.harts h).proc else none := by
  have ht : k.turnsTo h = pc.turnsTo (k.others h) := by rw [State.turnsTo, hpc]
  cases pc with
  | «at» pt =>
      obtain ⟨x, hx, hv, hs⟩ := nextAt_movesTo ha
      exact ⟨x, hx, hv.trans ht.symm, hs⟩
  | sched stage r =>
      obtain ⟨x, hx, hv, hs⟩ := nextSched_movesTo ha
      exact ⟨x, hx, hv.trans ht.symm, hs⟩
  -- the scheduler switches to where the process left off
  | scanTest p =>
      simp only [next] at ha
      split at ha
      · cases ha
        refine ⟨⟨some p, (k.procs p).context.pc⟩, rfl, ?_, ?_⟩
        · rw [ht]
          cases (k.procs p).context <;> rfl
        · cases (k.procs p).context <;> rfl
      · cases ha
        exact ⟨_, rfl, ht.symm, rfl⟩
  | yieldSet | sleepSet | exitSet =>
      obtain ⟨p, hp, ha⟩ := withProc_eq_some ha
      cases ha
      exact ⟨_, rfl, ht.symm, rfl⟩
  | yieldAcquire | killedAcquire | sleepAcquire | exitAcquire =>
      obtain ⟨p, hp, ha⟩ := withProc_eq_some ha
      exact ⟨_, acquireProc_movesTo ha, ht.symm, rfl⟩
  | yieldRelease | forkret =>
      obtain ⟨p, hp, ha⟩ := withProc_eq_some ha
      exact ⟨_, releaseProc_movesTo ha, ht.symm, rfl⟩
  | sleepTidy =>
      obtain ⟨p, hp, ha⟩ := withProc_eq_some ha
      exact ⟨_, setProc_releaseProc_movesTo ha, ht.symm, rfl⟩
  | killedRelease =>
      obtain ⟨p, hp, ha⟩ := withProc_eq_some ha
      split at ha
      all_goals exact ⟨_, releaseProc_movesTo ha, ht.symm, rfl⟩
  | scanRelease => exact ⟨_, releaseProc_movesTo ha, ht.symm, rfl⟩
  | wakeVisit => exact ⟨_, setProc_releaseProc_movesTo ha, ht.symm, rfl⟩
  | napRelease => exact ⟨_, releaseTicks_movesTo ha, ht.symm, rfl⟩
  | clockAcquire => exact ⟨_, acquireTicks_movesTo ha, ht.symm, rfl⟩
  | napStart =>
      cases ha
      exact ⟨_, rfl, ht.symm, rfl⟩
  | napLoop =>
      simp only [next] at ha
      split at ha
      all_goals
        cases ha
        exact ⟨_, rfl, ht.symm, rfl⟩
  | sleepUnlock s =>
      cases s with
      | ticks ticks0 n => exact ⟨_, releaseTicks_movesTo ha, ht.symm, rfl⟩
      | other c =>
          cases ha
          exact ⟨_, rfl, ht.symm, rfl⟩
  -- the wakeup of `clockintr` begins at the first process of the others
  | clockTick pt =>
      cases ha
      refine ⟨_, rfl, ?_, rfl⟩
      rw [ht]
      generalize k.others h = others
      cases others <;> rfl
  | clockWake todo pt =>
      cases todo with
      | nil =>
          cases ha
          exact ⟨_, rfl, ht.symm, rfl⟩
      | cons q todo => exact ⟨_, acquireProc_movesTo ha, ht.symm, rfl⟩
  | clockVisit q todo pt =>
      refine ⟨_, setProc_releaseProc_movesTo ha, ?_, rfl⟩
      rw [ht]
      cases todo <;> rfl
  | clockRelease pt =>
      obtain he | he := afterTimer_eq k h pt
      all_goals
        simp only [next, he] at ha
        exact ⟨_, releaseTicks_movesTo ha, ht.symm, rfl⟩
  | zombie => cases ha

/-! ## The cycle -/

/-- A hart that visits is in `clockintr`, so it is not in `sched`. -/
theorem Hart.inSched_of_visits {x : Hart N} (h : x.visits = some p) : x.inSched = none := by
  obtain ⟨o, pc⟩ := x
  cases pc <;> first | rfl | cases h

/-- **One step of a hart.** From a state without a cycle, a step of a hart leads to one without
exactly when it keeps the order. -/
theorem Discipline.run_iff (hd : Discipline k) (hn : ¬ k.LockCycle)
    (ha : Sched.next k h (k.harts h).pc = some k') :
    ¬ k'.LockCycle ↔ k.KeepsOrder (.run h) := by
  obtain ⟨x, hx, hv, hs⟩ := next_movesTo rfl ha
  rw [hd.lockCycle_iff_visits] at hn
  rw [(hd.next rfl ha).lockCycle_iff_visits]
  constructor
  -- a cycle would need the order that this step keeps
  · intro hno
    refine ⟨fun henter p hp f hf => hno ?_, fun q hq g hg => hno ?_⟩
    -- a hart that enters `sched` does not wait for the lock of a process
    · have hfh : f ≠ h := by
        rintro rfl
        unfold Hart.visits at hf
        split at hf
        · next hpc =>
            rw [hpc] at henter
            cases henter
        · cases hf
      exact ⟨f, h, p, by rw [hx.of_ne hfh, hf], by rw [hx.eq, hs, if_pos henter, hp]⟩
    · have hgh : g ≠ h := by
        rintro rfl
        unfold Hart.inSched at hg
        split at hg
        · next hpc =>
            rw [State.turnsTo, hpc] at hq
            cases hq
        · cases hg
      exact ⟨h, g, q, by rw [hx.eq, hv, hq], by rw [hx.of_ne hgh, hg]⟩
  · rintro ⟨henter, hturn⟩ ⟨f, g, p, hf, hg⟩
    -- the step can close a cycle at either end: by a visit, or by entering `sched`
    by_cases hfh : f = h
    · subst hfh
      rw [hx.eq, hv] at hf
      by_cases hgf : g = f
      · subst hgf
        rw [hx.eq, Hart.inSched_of_visits (p := p) (by rw [hv, hf])] at hg
        cases hg
      · rw [hx.of_ne hgf] at hg
        exact hturn p hf g hg
    · rw [hx.of_ne hfh] at hf
      by_cases hgh : g = h
      · subst hgh
        rw [hx.eq, hs] at hg
        split at hg
        · next hpc => exact henter hpc p hg f hf
        · cases hg
      · rw [hx.of_ne hgh] at hg
        exact hn ⟨f, g, p, hf, hg⟩

/-- A step that puts a hart at a place outside `clockintr`'s `wakeup` and `sched` makes no cycle. -/
theorem not_cycle_of_goto (hd : Discipline k) (hd' : Discipline k') (hn : ¬ k.LockCycle) {x : Hart N}
    (hx : MovesTo k k' h x) (hv : x.visits = none) (hs : x.inSched = none) : ¬ k'.LockCycle := by
  rw [hd.lockCycle_iff_visits] at hn
  rw [hd'.lockCycle_iff_visits]
  rintro ⟨f, g, p, hf, hg⟩
  have hfh : f ≠ h := by
    rintro rfl
    rw [hx.eq, hv] at hf
    cases hf
  have hgh : g ≠ h := by
    rintro rfl
    rw [hx.eq, hs] at hg
    cases hg
  rw [hx.of_ne hfh] at hf
  rw [hx.of_ne hgh] at hg
  exact hn ⟨f, g, p, hf, hg⟩

/-- **One step.** From a state without a cycle, a step leads to one without exactly when it keeps the
order. -/
theorem Discipline.step_iff (hd : Discipline k) (hn : ¬ k.LockCycle) {a : Action H N}
    {new : List Empty} (hs : Sched.step k a = some (k', new)) :
    ¬ k'.LockCycle ↔ k.KeepsOrder a := by
  have hd' := hd.step hs
  cases a with
  | run h =>
      obtain ⟨k₁, hk₁, he⟩ := Option.map_eq_some_iff.mp hs
      cases he
      exact hd.run_iff hn hk₁
  | call h c =>
      -- a call only moves the hart, and takes no lock
      refine iff_of_true ?_ trivial
      simp only [Sched.step] at hs
      split at hs
      · cases hs
        cases c <;> exact not_cycle_of_goto hd hd' hn rfl rfl rfl
      · cases hs
  | timer h =>
      refine iff_of_true ?_ trivial
      simp only [Sched.step] at hs
      split at hs
      · next pt hpc =>
          cases hs
          unfold interrupt at hd' ⊢
          split at hd'
          · next hz =>
              rw [if_pos hz]
              exact not_cycle_of_goto hd hd' hn rfl rfl rfl
          · next hz =>
              rw [if_neg hz]
              obtain he | he := afterTimer_eq k h pt <;> rw [he] at hd' ⊢
              all_goals exact not_cycle_of_goto hd hd' hn rfl rfl rfl
      · cases hs
  | kill p =>
      refine iff_of_true ?_ trivial
      simp only [Sched.step] at hs
      split at hs
      · cases hs
        rw [hd.lockCycle_iff_visits] at hn
        rw [hd'.lockCycle_iff_visits]
        exact hn
      · cases hs

/-! ## Runs -/

/-- At boot no hart waits for a lock that is held. -/
theorem Booted.not_lockCycle (hb : Booted k) : ¬ k.LockCycle := by
  rw [hb.discipline.lockCycle_iff_visits]
  rintro ⟨f, g, p, hf, -⟩
  obtain ⟨-, q, hpc⟩ := hb.idle f
  rw [Hart.visits, hpc] at hf
  cases hf

/-- **No lock cycle, exactly in the runs that keep the order.** From boot, a run goes through no state
with a cycle of harts that hold and wait for `tickslock` and process locks, exactly when no process
enters `sched` while `clockintr` waits for its lock, and `clockintr` never turns to the lock of a
process that waits in `sched` for `tickslock`. -/
theorem always_not_lockCycle_iff {k₀ : State H N} (hb : Booted k₀) {as : List (Action H N)}
    {evs : List Empty} (h : exec step [] k₀ as = some (evs, k)) :
    Always step (fun k => ¬ k.LockCycle) k₀ as ↔
      Meets step (fun _ k a => k.KeepsOrder a) [] k₀ as :=
  always_iff_meets (I := Discipline) (C := State.KeepsOrder) (fun _ _ _ _ hd hs => hd.step hs)
    (fun _ _ _ _ hd hn hs => hd.step_iff hn hs) hb.discipline hb.not_lockCycle h

/-- Two harts at boot, and one RUNNABLE process. -/
def twoHarts : State 2 1 where
  ticks := 0
  tickslock := none
  plock _ := none
  procs _ := ⟨.runnable, none, false, 0, 0, .fork⟩
  harts _ := ⟨none, .at (.scan 0)⟩

/-- The first of two harts. -/
def hart0 : Fin 2 := ⟨0, Nat.two_pos⟩

/-- The second of two harts. -/
def hart1 : Fin 2 := ⟨1, Nat.one_lt_two⟩

/-- Nothing is in progress in `twoHarts`. -/
theorem booted_twoHarts : Booted twoHarts :=
  ⟨rfl, fun _ => rfl, fun _ => ⟨rfl, 0, rfl⟩⟩

/-- Hart 1 runs the process and takes it through a `yield`; after that hart 0 gets a timer interrupt. -/
def yieldThenTick : List (Action 2 1) :=
  List.replicate 3 (.run hart1) ++ .timer hart1 :: List.replicate 7 (.run hart1) ++ .timer hart0 ::
    List.replicate 6 (.run hart0)

/-- The run of `yieldThenTick` keeps the order. -/
theorem always_not_lockCycle_yieldThenTick : ∃ r, exec step [] twoHarts yieldThenTick = some r ∧
    r.2.ticks = 1 ∧ r.2.tickslock = none ∧
    Meets step (fun _ k a => k.KeepsOrder a) [] twoHarts yieldThenTick ∧
    (Always step (fun k => ¬ k.LockCycle) twoHarts yieldThenTick ↔
      Meets step (fun _ k a => k.KeepsOrder a) [] twoHarts yieldThenTick) := by
  have hrun : ∃ r, exec step [] twoHarts yieldThenTick = some r ∧ r.2.ticks = 1 ∧
      r.2.tickslock = none := by
    decide +kernel
  obtain ⟨⟨evs, k⟩, h, hticks, hlock⟩ := hrun
  exact ⟨(evs, k), h, hticks, hlock, by decide +kernel, always_not_lockCycle_iff booted_twoHarts h⟩

/-- Hart 1 runs the process, which has just changed its state in `yield` when hart 0 takes `tickslock`
in `clockintr` and turns to the lock of the process. -/
def tickDuringYield : List (Action 2 1) :=
  List.replicate 3 (.run hart1) ++ .timer hart1 :: .run hart1 :: .timer hart0 ::
    List.replicate 2 (.run hart0) ++ [.run hart1]

/-- **Hart 0 and hart 1 wait for each other.** After the run of `tickDuringYield`, hart 0 holds
`tickslock` and waits for the lock of the process, and hart 1 holds that lock and waits for
`tickslock`. -/
theorem not_forall_not_lockCycle : ¬ ∀ (H N : Nat) (k₀ k : State H N) (as : List (Action H N))
    (evs : List Empty), Booted k₀ → exec step [] k₀ as = some (evs, k) → ¬ k.LockCycle := by
  intro hall
  have hrun : ∃ r, exec step [] twoHarts tickDuringYield = some r ∧
      r.2.tickslock = some 0 ∧ (r.2.harts 0).wants = some (.proc 0) ∧ r.2.plock 0 = some 1 ∧
      (r.2.harts 1).wants = some .ticks := by
    decide +kernel
  obtain ⟨⟨evs, k⟩, h, htick, hwant, hlock, hwant'⟩ := hrun
  exact hall 2 1 twoHarts k tickDuringYield evs booted_twoHarts h
    (WaitFor.deadlocked_of_pair ⟨.proc 0, hwant, hlock⟩ ⟨.ticks, hwant', htick⟩)

end Sched

end OsLabs
