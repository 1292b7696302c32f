import OsLabs.Sched.Harts

/-! # Who holds the locks

Which locks a hart holds can be read off its program counter (`Discipline`). A hart that waits for
`tickslock` does not hold it, and a hart that waits for the lock of a process holds none of another
process, so a cycle of waiting harts is one hart that holds `tickslock` and waits for `p->lock`, and a
second one that holds `p->lock` and waits for `tickslock` (`Discipline.exists_pair`). -/

namespace OsLabs

namespace Sched

variable {H N : Nat} {k k' : State H N} {g h : Fin H} {p q : Fin N}

/-! ## Locks by program counter -/

/-- The code that is executed with `tickslock` held. -/
def Pc.holdsTicks : Pc N → Bool
  | .sched .read _ | .sched .release _ | .napStart _ | .napLoop _ _ | .killedAcquire _ _
  | .killedRelease _ _ | .napRelease | .sleepAcquire (.ticks _ _) | .sleepUnlock (.ticks _ _)
  | .clockTick _ | .clockWake _ _ | .clockVisit _ _ _ | .clockRelease _ => true
  | _ => false

/-- The process whose lock a hart holds. -/
def Hart.holdsProc (x : Hart N) : Option (Fin N) :=
  match x.pc with
  | .scanTest p | .scanRelease p => some p
  | .clockVisit q _ _ | .wakeVisit _ q _ => some q
  | .yieldSet _ | .yieldRelease _ | .sched _ _ | .killedRelease _ _ | .sleepUnlock _ | .sleepSet _
  | .sleepTidy _ | .exitSet | .forkret | .zombie => x.proc
  | _ => none

/-- The code of a process that has given up its CPU, or is about to. -/
def Pc.offCpu : Pc N → Bool
  | .sched _ _ | .zombie => true
  | _ => false

/-- The locks are held by the harts that are inside their sections; a process runs on one hart at
most, and is RUNNING while it does. -/
structure Discipline (k : State H N) : Prop where
  ticks : ∀ h, k.tickslock = some h ↔ (k.harts h).pc.holdsTicks = true
  proc : ∀ p h, k.plock p = some h ↔ (k.harts h).holdsProc = some p
  once : ∀ g h p, (k.harts g).proc = some p → (k.harts h).proc = some p → g = h
  running : ∀ h p, (k.harts h).proc = some p → (k.harts h).pc.offCpu = false →
    (k.procs p).state = .running

/-- The discipline holds at boot. -/
theorem Booted.discipline (hb : Booted k) : Discipline k where
  ticks h := by
    obtain ⟨-, p, hpc⟩ := hb.idle h
    rw [hb.tickslock, hpc]
    exact ⟨nofun, nofun⟩
  proc p h := by
    obtain ⟨-, q, hpc⟩ := hb.idle h
    rw [hb.plock p, Hart.holdsProc, hpc]
    exact ⟨nofun, nofun⟩
  once g h p hg := by
    rw [(hb.idle g).1] at hg
    cases hg
  running h p hh := by
    rw [(hb.idle h).1] at hh
    cases hh

/-! ## The shape of a cycle -/

/-- A hart that waits for `tickslock` does not hold it. -/
theorem Hart.not_holdsTicks {x : Hart N} (h : x.wants = some .ticks) : x.pc.holdsTicks = false := by
  obtain ⟨o, pc⟩ := x
  cases pc with
  | clockWake todo pt => cases todo <;> cases h
  | sched stage r => cases stage <;> first | rfl | cases h
  | yieldAcquire | killedAcquire | sleepAcquire | exitAcquire => cases o <;> cases h
  | _ => first | rfl | cases h

/-- A hart that waits for the lock of a process holds no process lock. -/
theorem Hart.holdsProc_eq_none {x : Hart N} (h : x.wants = some (.proc p)) : x.holdsProc = none := by
  obtain ⟨o, pc⟩ := x
  cases pc with
  | sched stage r => cases stage <;> cases h
  | _ => first | rfl | cases h

/-- A hart that waits for `tickslock` with a process lock held is in `sched`. -/
theorem Hart.sched_of_wants {x : Hart N} (h : x.wants = some .ticks) (hp : x.holdsProc = some p) :
    (∃ r, x.pc = .sched .acquire r) ∧ x.proc = some p := by
  obtain ⟨o, pc⟩ := x
  cases pc with
  | sched stage r => cases stage <;> first | exact ⟨⟨r, rfl⟩, hp⟩ | cases h
  | clockAcquire => cases hp
  | _ => first | cases h | cases hp

/-- A hart that waits for a process lock with `tickslock` held is in the `wakeup` of `clockintr`, or
waits for the lock of its own process. -/
theorem Hart.clockWake_of_wants {x : Hart N} (h : x.wants = some (.proc p))
    (ht : x.pc.holdsTicks = true) :
    (∃ todo pt, x.pc = .clockWake (p :: todo) pt) ∨ x.proc = some p := by
  obtain ⟨o, pc⟩ := x
  cases pc with
  | clockWake todo pt =>
      cases todo with
      | nil => cases h
      | cons q todo =>
          cases h
          exact Or.inl ⟨todo, pt, rfl⟩
  | killedAcquire | sleepAcquire =>
      obtain ⟨q, hq, hqp⟩ := Option.map_eq_some_iff.mp h
      cases hqp
      exact Or.inr hq
  | «at» pt => cases ht
  | sched stage r => cases stage <;> cases h
  | _ => first | cases h | cases ht

/-- The two harts of a cycle: `f` holds `tickslock` and waits for the lock of `p`, which `g` holds;
`g` waits for `tickslock`. -/
structure Jam (k : State H N) (f g : Fin H) (p : Fin N) : Prop where
  ticks : k.tickslock = some f
  waits : (k.harts f).wants = some (.proc p)
  holds : k.plock p = some g
  waits' : (k.harts g).wants = some .ticks

/-- **A cycle is between two harts.** -/
theorem Discipline.lockCycle_iff (hd : Discipline k) : k.LockCycle ↔ ∃ f g p, Jam k f g p := by
  constructor
  · intro hc
    obtain ⟨f, g, l, hl, hf, hfl, hlg, hg⟩ := WaitFor.exists_pair_of_deadlocked (a := Lock.ticks)
      (fun h hw hh => by
        have := (hd.ticks h).mp hh
        rw [Hart.not_holdsTicks hw] at this
        cases this)
      (fun h l m hw hl hm => by
        cases l with
        | ticks => exact absurd rfl hl
        | proc p =>
            cases m with
            | ticks => rfl
            | proc q =>
                have := (hd.proc q h).mp hm
                rw [Hart.holdsProc_eq_none hw] at this
                cases this)
      hc
    cases l with
    | ticks => exact absurd rfl hl
    | proc p => exact ⟨f, g, p, hf, hfl, hlg, hg⟩
  · rintro ⟨f, g, p, hj⟩
    exact WaitFor.deadlocked_of_pair ⟨.proc p, hj.waits, hj.holds⟩ ⟨.ticks, hj.waits', hj.ticks⟩

/-- The hart of a jam that holds `tickslock` is in the `wakeup` of `clockintr`, and the other one in
`sched`, before its `acquire(&tickslock)`. -/
theorem Discipline.jam_iff (hd : Discipline k) :
    (∃ f g p, Jam k f g p) ↔ ∃ f g p todo pt r, (k.harts f).pc = .clockWake (p :: todo) pt ∧
      (k.harts g).pc = .sched .acquire r ∧ (k.harts g).proc = some p := by
  constructor
  · rintro ⟨f, g, p, hj⟩
    obtain ⟨⟨r, hg⟩, hgp⟩ := Hart.sched_of_wants hj.waits' ((hd.proc p g).mp hj.holds)
    obtain ⟨todo, pt, hf⟩ | hfp := Hart.clockWake_of_wants hj.waits ((hd.ticks f).mp hj.ticks)
    · exact ⟨f, g, p, todo, pt, r, hf, hg, hgp⟩
    · -- a process runs on one hart only
      obtain rfl := hd.once f g p hfp hgp
      have hw := hj.waits
      rw [hj.waits'] at hw
      cases hw
  · rintro ⟨f, g, p, todo, pt, r, hf, hg, hp⟩
    refine ⟨f, g, p, (hd.ticks f).mpr ?_, ?_, (hd.proc p g).mpr ?_, ?_⟩
    · rw [hf]
      rfl
    · rw [Hart.wants, hf]
    · rw [Hart.holdsProc, hg]
      exact hp
    · rw [Hart.wants, hg]

/-! ## Preservation -/

/-- What a step of hart `h` may do to a lock: leave it as it is, take it while it is free, or give it
back. `before` and `after` say whether the code of `h` is inside a section of the lock. -/
inductive LockMove (h : Fin H) : Option (Fin H) → Option (Fin H) → Prop → Prop → Prop
  | keep {o : Option (Fin H)} {before after : Prop} (hsame : after ↔ before) :
      LockMove h o o before after
  | take {before after : Prop} (ha : after) : LockMove h none (some h) before after
  | give {before after : Prop} (ha : ¬ after) : LockMove h (some h) none before after

/-- A lock move keeps the holder the hart inside the section. -/
theorem LockMove.holder {o o' : Option (Fin H)} {before after : Prop}
    (hm : LockMove h o o' before after) (hself : o = some h ↔ before) :
    o' = some h ↔ after := by
  cases hm with
  | keep hsame => rw [hself, hsame]
  | take ha => exact ⟨fun _ => ha, fun _ => rfl⟩
  | give ha => exact ⟨nofun, fun hafter => absurd hafter ha⟩

/-- A lock move of a hart does not make another hart the holder, nor take a lock from it. -/
theorem LockMove.other {o o' : Option (Fin H)} {before after : Prop}
    (hm : LockMove h o o' before after) (hg : g ≠ h) : o' = some g ↔ o = some g := by
  cases hm with
  | keep => exact Iff.rfl
  | take => exact ⟨fun he => absurd (Option.some.inj he).symm hg, nofun⟩
  | give => exact ⟨nofun, fun he => absurd (Option.some.inj he).symm hg⟩

/-- A step that replaces the record of hart `h`. -/
theorem Discipline.update (hd : Discipline k) {x : Hart N}
    (hharts : k'.harts = Function.update k.harts h x)
    (hticks : LockMove h k.tickslock k'.tickslock ((k.harts h).pc.holdsTicks = true)
      (x.pc.holdsTicks = true))
    (hproc : ∀ p, LockMove h (k.plock p) (k'.plock p) ((k.harts h).holdsProc = some p)
      (x.holdsProc = some p))
    (honce : ∀ p, x.proc = some p → ∀ g, g ≠ h → (k.harts g).proc ≠ some p)
    (hself : ∀ p, x.proc = some p → x.pc.offCpu = false → (k'.procs p).state = .running)
    (hothers : ∀ g p, g ≠ h → (k.harts g).proc = some p → (k.procs p).state = .running →
      (k'.procs p).state = .running) :
    Discipline k' := by
  -- each part of the discipline at the hart that moved, and at the others
  have hx : k'.harts h = x := by rw [hharts, Function.update_self]
  have hne : ∀ g, g ≠ h → k'.harts g = k.harts g := fun g hg => by
    rw [hharts, Function.update_of_ne hg]
  refine ⟨fun g => ?_, fun p g => ?_, fun g f p hg hf => ?_, fun g p hg hoff => ?_⟩
  · by_cases hg : g = h
    · subst hg
      rw [hx]
      exact hticks.holder (hd.ticks g)
    · rw [hne g hg, hticks.other hg]
      exact hd.ticks g
  · by_cases hg : g = h
    · subst hg
      rw [hx]
      exact (hproc p).holder (hd.proc p g)
    · rw [hne g hg, (hproc p).other hg]
      exact hd.proc p g
  -- a process is on one hart: the one that moved has it only if no other had it
  · by_cases hgh : g = h <;> by_cases hfh : f = h
    · rw [hgh, hfh]
    · rw [hgh, hx] at hg
      rw [hne f hfh] at hf
      exact absurd hf (honce p hg f hfh)
    · rw [hfh, hx] at hf
      rw [hne g hgh] at hg
      exact absurd hg (honce p hf g hgh)
    · rw [hne g hgh] at hg
      rw [hne f hfh] at hf
      exact hd.once g f p hg hf
  · by_cases hgh : g = h
    · subst hgh
      rw [hx] at hg hoff
      exact hself p hg hoff
    · rw [hne g hgh] at hg hoff
      exact hothers g p hgh hg (hd.running g p hg hoff)

/-- Replacing the record of a process that is RUNNING on no hart, or stays RUNNING. -/
theorem Discipline.setProc (hd : Discipline k) {x : Proc N}
    (hx : ∀ g, (k.harts g).proc = some p → (k.harts g).pc.offCpu = false → x.state = .running) :
    Discipline (k.setProc p x) := by
  refine ⟨hd.ticks, hd.proc, hd.once, fun g q hg hoff => ?_⟩
  show (Function.update k.procs p x q).state = .running
  by_cases hq : q = p
  · subst hq
    rw [Function.update_self]
    exact hx g hg hoff
  · rw [Function.update_of_ne hq]
    exact hd.running g q hg hoff

/-- A RUNNING process is still RUNNING when a record is replaced by one that is RUNNING if it was. -/
theorem setProc_running {x : Proc N} (hx : (k.procs p).state = .running → x.state = .running)
    (hq : (k.procs q).state = .running) : ((k.setProc p x).procs q).state = .running := by
  show (Function.update k.procs p x q).state = .running
  by_cases hqp : q = p
  · subst hqp
    rw [Function.update_self]
    exact hx hq
  · rwa [Function.update_of_ne hqp]

/-- Replacing the record of a process by one that is RUNNING if it was. -/
theorem Discipline.keepProc (hd : Discipline k) {x : Proc N}
    (hx : (k.procs p).state = .running → x.state = .running) : Discipline (k.setProc p x) :=
  hd.setProc fun g hg hoff => hx (hd.running g p hg hoff)

/-- The tick counter is under no discipline. -/
theorem Discipline.tick (hd : Discipline k) (t : BitVec 32) : Discipline { k with ticks := t } :=
  ⟨hd.ticks, hd.proc, hd.once, hd.running⟩

/-- A step of hart `h` that moves its program counter, and may take or give back locks. -/
theorem Discipline.move (hd : Discipline k) {pc : Pc N} {tickslock : Option (Fin H)}
    {plock : Fin N → Option (Fin H)}
    (hticks : LockMove h k.tickslock tickslock ((k.harts h).pc.holdsTicks = true)
      (pc.holdsTicks = true))
    (hproc : ∀ p, LockMove h (k.plock p) (plock p) ((k.harts h).holdsProc = some p)
      (Hart.holdsProc ⟨(k.harts h).proc, pc⟩ = some p))
    (hoff : pc.offCpu = false → (k.harts h).pc.offCpu = false) :
    Discipline (State.goto { k with tickslock := tickslock, plock := plock } h pc) :=
  hd.update (h := h) rfl hticks hproc (fun p hp g hg hgp => hg (hd.once g h p hgp hp))
    (fun p hp hpc => hd.running h p hp (hoff hpc)) (fun _ _ _ _ => id)

/-- A move between two places with the same locks. -/
theorem Discipline.goto (hd : Discipline k) {pc : Pc N}
    (hticks : pc.holdsTicks = (k.harts h).pc.holdsTicks)
    (hproc : Hart.holdsProc ⟨(k.harts h).proc, pc⟩ = (k.harts h).holdsProc)
    (hoff : pc.offCpu = false → (k.harts h).pc.offCpu = false) : Discipline (k.goto h pc) :=
  hd.move (.keep (by rw [hticks])) (fun p => .keep (by rw [hproc])) hoff

/-- `acquire(&tickslock)`. -/
theorem Discipline.acquireTicks (hd : Discipline k) {pc : Pc N}
    (ha : acquireTicks k h pc = some k') (hticks : pc.holdsTicks = true)
    (hproc : Hart.holdsProc ⟨(k.harts h).proc, pc⟩ = (k.harts h).holdsProc)
    (hoff : pc.offCpu = false → (k.harts h).pc.offCpu = false) : Discipline k' := by
  unfold Sched.acquireTicks at ha
  split at ha
  · next ho =>
      cases ha
      exact hd.move (by rw [ho]; exact .take hticks) (fun p => .keep (by rw [hproc])) hoff
  · cases ha

/-- `release(&tickslock)`. -/
theorem Discipline.releaseTicks (hd : Discipline k) {pc : Pc N}
    (ha : releaseTicks k h pc = some k') (hticks : pc.holdsTicks = false)
    (hproc : Hart.holdsProc ⟨(k.harts h).proc, pc⟩ = (k.harts h).holdsProc)
    (hoff : pc.offCpu = false → (k.harts h).pc.offCpu = false) : Discipline k' := by
  unfold Sched.releaseTicks at ha
  split at ha
  · next ho =>
      cases ha
      refine hd.move ?_ (fun p => .keep (by rw [hproc])) hoff
      rw [ho]
      exact .give (by rw [hticks]; nofun)
  · cases ha

/-- `acquire(&p->lock)`. -/
theorem Discipline.acquireProc (hd : Discipline k) {pc : Pc N}
    (ha : acquireProc k h p pc = some k') (hticks : pc.holdsTicks = (k.harts h).pc.holdsTicks)
    (hbefore : (k.harts h).holdsProc = none)
    (hproc : Hart.holdsProc ⟨(k.harts h).proc, pc⟩ = some p)
    (hoff : pc.offCpu = false → (k.harts h).pc.offCpu = false) : Discipline k' := by
  unfold Sched.acquireProc at ha
  split at ha
  · next ho =>
      cases ha
      refine hd.move (.keep (by rw [hticks])) (fun q => ?_) hoff
      by_cases hq : q = p
      · subst hq
        rw [Function.update_self, ho]
        exact .take hproc
      · rw [Function.update_of_ne hq, hbefore, hproc]
        exact .keep ⟨fun he => absurd (Option.some.inj he).symm hq, nofun⟩
  · cases ha

/-- `release(&p->lock)`. -/
theorem Discipline.releaseProc (hd : Discipline k) {pc : Pc N}
    (ha : releaseProc k h p pc = some k') (hticks : pc.holdsTicks = (k.harts h).pc.holdsTicks)
    (hproc : Hart.holdsProc ⟨(k.harts h).proc, pc⟩ = none)
    (hoff : pc.offCpu = false → (k.harts h).pc.offCpu = false) : Discipline k' := by
  unfold Sched.releaseProc at ha
  split at ha
  · next ho =>
      cases ha
      have hbefore : (k.harts h).holdsProc = some p := (hd.proc p h).mp ho
      refine hd.move (.keep (by rw [hticks])) (fun q => ?_) hoff
      by_cases hq : q = p
      · subst hq
        rw [Function.update_self, ho]
        exact .give (by rw [hproc]; nofun)
      · rw [Function.update_of_ne hq, hbefore, hproc]
        exact .keep ⟨nofun, fun he => absurd (Option.some.inj he).symm hq⟩
  · cases ha

/-- A step of the process on the hart. -/
theorem withProc_eq_some {f : Fin N → Option (State H N)} (ha : k.withProc h f = some k') :
    ∃ p, (k.harts h).proc = some p ∧ f p = some k' := by
  unfold State.withProc at ha
  split at ha
  · cases ha
  · next p hp => exact ⟨p, hp, ha⟩

/-- `wakeup` leaves a RUNNING process as it is. -/
theorem wake_running {c : Chan} {x : Proc N} (h : x.state = .running) :
    (wake c x).state = .running := by
  rw [wake, if_neg (fun hs => by rw [h] at hs; cases hs.1)]
  exact h

/-- `kill` leaves a RUNNING process RUNNING. -/
theorem markKilled_running {x : Proc N} (h : x.state = .running) :
    (markKilled x).state = .running := by
  simp only [markKilled, h, reduceCtorEq, if_false]

/-- The own process of a hart whose code has left `pc.offCpu` false runs on no other hart. -/
theorem Discipline.only_off (hd : Discipline k) (hp : (k.harts h).proc = some p)
    (hoff : (k.harts h).pc.offCpu = true) {x : Proc N} (g : Fin H)
    (hg : (k.harts g).proc = some p) (hgoff : (k.harts g).pc.offCpu = false) :
    x.state = .running := by
  obtain rfl := hd.once g h p hg hp
  rw [hoff] at hgoff
  cases hgoff

/-- A step of a hart at a point without locks. -/
theorem Discipline.nextAt (hd : Discipline k) {pt : Point N} (hpc : (k.harts h).pc = .at pt)
    (ha : nextAt k h pt = some k') : Discipline k' := by
  have hl : (k.harts h).pc.holdsTicks = false := by rw [hpc]; rfl
  have hp : (k.harts h).holdsProc = none := by rw [Hart.holdsProc, hpc]
  have hoff : (k.harts h).pc.offCpu = false := by rw [hpc]; rfl
  cases pt with
  | user => cases ha
  | scan p => exact hd.acquireProc ha hl.symm hp rfl (fun _ => hoff)
  | napAcquire n => exact hd.acquireTicks ha rfl hp.symm (fun _ => hoff)
  | relock s =>
      cases s with
      | ticks ticks0 n => exact hd.acquireTicks ha rfl hp.symm (fun _ => hoff)
      | other c =>
          cases ha
          exact hd.goto hl.symm hp.symm (fun _ => hoff)
  | wake c todo =>
      cases todo with
      | nil =>
          cases ha
          exact hd.goto hl.symm hp.symm (fun _ => hoff)
      | cons q todo => exact hd.acquireProc ha hl.symm hp rfl (fun _ => hoff)

/-- A step of a hart in `sched`. -/
theorem Discipline.nextSched (hd : Discipline k) {stage : Stage} {r : Resume N}
    (hpc : (k.harts h).pc = .sched stage r) (ha : nextSched k h r stage = some k') :
    Discipline k' := by
  have hl : (k.harts h).pc.holdsTicks = (Pc.sched stage r).holdsTicks := by rw [hpc]
  have hp : (k.harts h).holdsProc = (k.harts h).proc := by rw [Hart.holdsProc, hpc]
  cases stage with
  | acquire => exact hd.acquireTicks ha rfl hp.symm nofun
  | read =>
      obtain ⟨p, hproc, ha⟩ := withProc_eq_some ha
      cases ha
      exact (hd.keepProc (p := p) (x := { k.procs p with lastExecuted := k.ticks }) id).goto hl.symm
        hp.symm nofun
  | release => exact hd.releaseTicks ha rfl hp.symm nofun
  | swtch =>
      obtain ⟨p, hproc, ha⟩ := withProc_eq_some ha
      cases ha
      refine hd.update (h := h) rfl (.keep (by rw [hl]; rfl)) (fun q => .keep ?_) nofun nofun
        (fun _ _ _ _ => setProc_running (p := p) id)
      rw [hp, hproc]
      rfl

/-- What follows the handler of a timer interrupt. -/
theorem afterTimer_eq (k : State H N) (h : Fin H) (pt : Point N) :
    afterTimer k h pt = .at pt ∨ afterTimer k h pt = .yieldAcquire pt := by
  unfold afterTimer
  split
  · exact Or.inl rfl
  · split
    · exact Or.inr rfl
    · exact Or.inl rfl

/-- A RUNNABLE process whose lock a hart holds runs on no other hart. -/
theorem Discipline.not_running (hd : Discipline k) (hst : (k.procs p).state = .runnable)
    (hp : (k.harts h).holdsProc = some p) (hg : g ≠ h) : (k.harts g).proc ≠ some p := by
  intro hgp
  cases hoff : (k.harts g).pc.offCpu with
  | false =>
      have hrun := hd.running g p hgp hoff
      rw [hst] at hrun
      cases hrun
  | true =>
      have hgl : (k.harts g).holdsProc = some p := by
        rw [← hgp, Hart.holdsProc]
        generalize (k.harts g).pc = pc at hoff
        cases pc <;> first | rfl | cases hoff
      exact hg (Option.some.inj (((hd.proc p g).mpr hgl).symm.trans ((hd.proc p h).mpr hp)))

/-- The scheduler switches to a RUNNABLE process. -/
theorem Discipline.switchIn (hd : Discipline k) (hpc : (k.harts h).pc = .scanTest p)
    (hst : (k.procs p).state = .runnable) {x : Proc N} (hx : x.state = .running) :
    Discipline { k.setProc p x with
      harts := Function.update k.harts h ⟨some p, (k.procs p).context.pc⟩ } := by
  have hp : (k.harts h).holdsProc = some p := by rw [Hart.holdsProc, hpc]
  refine hd.update (h := h) rfl (.keep ?_) (fun q => .keep ?_) ?_ ?_
    (fun _ _ _ _ => setProc_running fun _ => hx)
  · rw [hpc]
    cases (k.procs p).context <;> exact ⟨nofun, nofun⟩
  · rw [hp]
    cases (k.procs p).context <;> exact Iff.rfl
  · rintro q hq g hg
    obtain rfl := Option.some.inj hq
    exact hd.not_running hst hp hg
  · rintro q hq -
    obtain rfl := Option.some.inj hq
    show (Function.update k.procs p x p).state = .running
    rw [Function.update_self, hx]

/-- **A step of a hart preserves the discipline.** -/
theorem Discipline.next (hd : Discipline k) {pc : Pc N} (hpc : (k.harts h).pc = pc)
    (ha : next k h pc = some k') : Discipline k' := by
  have hl : (k.harts h).pc.holdsTicks = pc.holdsTicks := by rw [hpc]
  have hp : (k.harts h).holdsProc = Hart.holdsProc ⟨(k.harts h).proc, pc⟩ := by rw [← hpc]
  have hoff : (k.harts h).pc.offCpu = pc.offCpu := by rw [hpc]
  -- steps that do not enter `sched`
  have hon : pc.offCpu = false → ∀ pc' : Pc N, pc'.offCpu = false → (k.harts h).pc.offCpu = false :=
    fun he _ _ => hoff.trans he
  -- the own process leaves the RUNNING state at the entry to `sched`
  have henter : ∀ (p : Fin N) (x : Proc N) (r : Resume N), (k.harts h).proc = some p →
      Discipline (k.goto h (.sched .acquire r)) →
      Discipline ((k.setProc p x).goto h (.sched .acquire r)) := by
    intro p x r hproc hgo
    refine hgo.setProc (p := p) (x := x) (hgo.only_off (h := h) ?_ ?_)
    · show (Function.update k.harts h _ h).proc = some p
      rw [Function.update_self, hproc]
    · show (Function.update k.harts h _ h).pc.offCpu = true
      rw [Function.update_self]
      rfl
  cases pc with
  | «at» pt => exact hd.nextAt hpc ha
  | scanTest p =>
      simp only [Sched.next] at ha
      split at ha
      · next hst =>
          cases ha
          exact hd.switchIn hpc hst rfl
      · cases ha
        exact hd.goto hl.symm hp.symm (hon rfl _)
  | scanRelease p => exact hd.releaseProc ha hl.symm rfl (hon rfl _)
  | yieldAcquire pt =>
      obtain ⟨p, hproc, ha⟩ := withProc_eq_some ha
      exact hd.acquireProc ha hl.symm hp hproc (hon rfl _)
  | yieldSet pt =>
      obtain ⟨p, hproc, ha⟩ := withProc_eq_some ha
      cases ha
      exact henter p _ _ hproc (hd.goto hl.symm hp.symm nofun)
  | yieldRelease pt =>
      obtain ⟨p, hproc, ha⟩ := withProc_eq_some ha
      exact hd.releaseProc ha hl.symm rfl (hon rfl _)
  | sched stage r => exact hd.nextSched hpc ha
  | napStart n =>
      cases ha
      exact hd.goto hl.symm hp.symm (hon rfl _)
  | napLoop ticks0 n =>
      simp only [Sched.next] at ha
      split at ha
      all_goals
        cases ha
        exact hd.goto hl.symm hp.symm (hon rfl _)
  | killedAcquire ticks0 n =>
      obtain ⟨p, hproc, ha⟩ := withProc_eq_some ha
      exact hd.acquireProc ha hl.symm hp hproc (hon rfl _)
  | killedRelease ticks0 n =>
      obtain ⟨p, hproc, ha⟩ := withProc_eq_some ha
      split at ha
      all_goals exact hd.releaseProc ha hl.symm rfl (hon rfl _)
  | napRelease => exact hd.releaseTicks ha rfl hp.symm (hon rfl _)
  | sleepAcquire s =>
      obtain ⟨p, hproc, ha⟩ := withProc_eq_some ha
      refine hd.acquireProc ha ?_ hp hproc (hon rfl _)
      cases s <;> exact hl.symm
  | sleepUnlock s =>
      cases s with
      | ticks ticks0 n => exact hd.releaseTicks ha rfl hp.symm (hon rfl _)
      | other c =>
          cases ha
          exact hd.goto hl.symm hp.symm (hon rfl _)
  | sleepSet s =>
      obtain ⟨p, hproc, ha⟩ := withProc_eq_some ha
      cases ha
      exact henter p _ _ hproc (hd.goto hl.symm hp.symm nofun)
  | sleepTidy s =>
      obtain ⟨p, hproc, ha⟩ := withProc_eq_some ha
      exact (hd.keepProc (p := p) (x := { k.procs p with chan := none }) id).releaseProc ha hl.symm rfl
        (hon rfl _)
  | exitAcquire =>
      obtain ⟨p, hproc, ha⟩ := withProc_eq_some ha
      exact hd.acquireProc ha hl.symm hp hproc (hon rfl _)
  | exitSet =>
      obtain ⟨p, hproc, ha⟩ := withProc_eq_some ha
      cases ha
      exact henter p _ _ hproc (hd.goto hl.symm hp.symm nofun)
  | clockAcquire pt => exact hd.acquireTicks ha rfl hp.symm (hon rfl _)
  | clockTick pt =>
      cases ha
      exact (hd.tick (k.ticks + 1)).goto hl.symm hp.symm (hon rfl _)
  | clockWake todo pt =>
      cases todo with
      | nil =>
          cases ha
          exact hd.goto hl.symm hp.symm (hon rfl _)
      | cons q todo => exact hd.acquireProc ha hl.symm hp rfl (hon rfl _)
  | clockVisit q todo pt =>
      exact (hd.keepProc (p := q) wake_running).releaseProc ha hl.symm rfl (hon rfl _)
  | clockRelease pt =>
      obtain he | he := afterTimer_eq k h pt
      all_goals
        simp only [Sched.next, he] at ha
        exact hd.releaseTicks ha rfl hp.symm (hon rfl _)
  | wakeVisit c q todo =>
      exact (hd.keepProc (p := q) wake_running).releaseProc ha hl.symm rfl (hon rfl _)
  | forkret =>
      obtain ⟨p, hproc, ha⟩ := withProc_eq_some ha
      exact hd.releaseProc ha hl.symm rfl (hon rfl _)
  | zombie => cases ha

/-- **A step of the system preserves the discipline.** -/
theorem Discipline.step (hd : Discipline k) {a : Action H N} {new : List Empty}
    (hs : step k a = some (k', new)) : Discipline k' := by
  cases a with
  | run h =>
      obtain ⟨k₁, hk₁, he⟩ := Option.map_eq_some_iff.mp hs
      cases he
      exact hd.next rfl hk₁
  | call h c =>
      simp only [Sched.step] at hs
      split at hs
      · next hc =>
          cases hs
          -- outside the kernel a hart holds no lock, and it is not on its way off
          have hl : (k.harts h).pc.holdsTicks = false := by rw [hc.1]; rfl
          have hp : (k.harts h).holdsProc = none := by rw [Hart.holdsProc, hc.1]
          have hoff : (k.harts h).pc.offCpu = false := by rw [hc.1]; rfl
          cases c <;> exact hd.goto hl.symm hp.symm fun _ => hoff
      · cases hs
  | timer h =>
      simp only [Sched.step] at hs
      split at hs
      · next pt hpc =>
          cases hs
          have hl : (k.harts h).pc.holdsTicks = false := by rw [hpc]; rfl
          have hp : (k.harts h).holdsProc = none := by rw [Hart.holdsProc, hpc]
          have hoff : (k.harts h).pc.offCpu = false := by rw [hpc]; rfl
          unfold interrupt
          split
          · exact hd.goto hl.symm hp.symm fun _ => hoff
          · obtain he | he := afterTimer_eq k h pt <;> rw [he]
            all_goals exact hd.goto hl.symm hp.symm fun _ => hoff
      · cases hs
  | kill p =>
      simp only [Sched.step] at hs
      split at hs
      · cases hs
        exact hd.keepProc markKilled_running
      · cases hs

end Sched

end OsLabs
