import OsLabs.Sched.Statistics

/-! # Parents and children

`fork` makes its caller the parent of the new process, `exit` hands the children of the process to
`initproc`, and `wait` frees the slot of a child that has exited. An event of a run is a child that was made,
an exit, or a child whose status `wait` returned; all three carry pids. `step_kinship` lists once what a step
can do to the families.

`families_rooted`: in every run, the parents of a process lead to `initproc`, no parent has exited, and nobody
sleeps in `wait` while a child of his is a zombie. -/

namespace OsLabs

namespace Procs

open Transition

/-! ## Events -/

/-- What happens in the life of a process. -/
inductive Life
  | forked (parent child : CInt)
  | exited (pid status : CInt)
  | reaped (parent child status : CInt)
  deriving DecidableEq, Repr

/-- The child whose slot `wait` frees. -/
def zombieChild (s : State) (p : Slot) : Option Slot :=
  ((List.finRange nproc).filter fun pp => (s.proc pp).parent = some p).find? fun pp =>
    (s.proc pp).state = .zombie

/-- The events of an action of the process in a slot. -/
def livesOf (s : State) (p : Slot) : Action → List Life
  | .fork _ true true => (firstUnused s).toList.map fun _ => .forked (s.proc p).pid s.nextpid
  | .exit _ status => [.exited (s.proc p).pid status]
  | .wait _ true =>
      (zombieChild s p).toList.map fun pp => .reaped (s.proc p).pid (s.proc pp).pid (s.proc pp).xstate
  | _ => []

/-- The events of an action. -/
def lives (s : State) : Action → List Life
  | .fork c memory copied => (s.myproc c).elim [] fun p => livesOf s p (.fork c memory copied)
  | .exit c status => (s.myproc c).elim [] fun p => livesOf s p (.exit c status)
  | .wait c copyout => (s.myproc c).elim [] fun p => livesOf s p (.wait c copyout)
  | _ => []

/-- A step of the kernel, with its events in the lives of the processes. -/
def lifeStep (s : State) (a : Action) : Option (State × List Life) :=
  (step s a).map fun r => (r.1, lives s a)

/-- Only `wait` sleeps on a process. -/
def SleepsElsewhere : Action → Prop
  | .sleep _ (.proc _) => False
  | _ => True

instance (a : Action) : Decidable (SleepsElsewhere a) := by
  unfold SleepsElsewhere
  split <;> infer_instance

/-- A `fork` does not take `nextpid` past the largest `int`. -/
def PidsLeft (s : State) : Action → Prop
  | .fork _ _ _ => s.nextpid.toInt < intMax
  | _ => True

instance (s : State) (a : Action) : Decidable (PidsLeft s a) := by
  unfold PidsLeft
  split <;> infer_instance

/-! ## Families -/

/-- The process in the slot has not exited. -/
def Alive (s : State) (p : Slot) : Prop := (s.proc p).state ≠ .unused ∧ (s.proc p).state ≠ .zombie

/-- The process in the slot sleeps in `wait`. -/
def InWait (s : State) (p : Slot) : Prop :=
  (s.proc p).state = .sleeping ∧ (s.proc p).chan = some (.proc p)

/-- The families of a table: the process in every slot but that of `initproc` has a parent that has not
exited and is older. -/
structure Families (s : State) (i : Slot) : Prop where
  initproc : s.initproc = some i
  alive : Alive s i
  top : (s.proc i).parent = none
  unused : ∀ p, (s.proc p).state = .unused → (s.proc p).parent = none
  parent : ∀ p, (s.proc p).state ≠ .unused → p ≠ i → ∃ q, (s.proc p).parent = some q ∧ Alive s q ∧
    (s.proc q).pid.toInt < (s.proc p).pid.toInt
  first : ∀ p, (s.proc p).state ≠ .unused → p ≠ i → (s.proc i).pid.toInt < (s.proc p).pid.toInt

/-- The pids of the processes are positive and apart, and `nextpid` is larger. -/
structure PidsOrdered (s : State) : Prop where
  pos : ∀ p, (s.proc p).state ≠ .unused → 0 < (s.proc p).pid.toInt
  lt : ∀ p, (s.proc p).state ≠ .unused → (s.proc p).pid.toInt < s.nextpid.toInt
  inj : ∀ p q, (s.proc p).state ≠ .unused → (s.proc q).state ≠ .unused →
    (s.proc p).pid = (s.proc q).pid → p = q

/-- Nobody sleeps in `wait` while a child of his is a zombie. -/
def WaitsWoken (s : State) : Prop :=
  ∀ p q, (s.proc p).state = .zombie → (s.proc p).parent = some q → ¬ InWait s q

/-- The slot keeps its place in the families. -/
structure Proc.Kin (x y : Proc) : Prop where
  parent : y.parent = x.parent
  unused : y.state = .unused ↔ x.state = .unused
  zombie : y.state = .zombie ↔ x.state = .zombie
  pid : x.state ≠ .unused → y.pid = x.pid
  xstate : x.state ≠ .unused → y.xstate = x.xstate

/-- A slot keeps its place when nothing changes. -/
theorem Proc.Kin.refl (x : Proc) : Proc.Kin x x := ⟨rfl, Iff.rfl, Iff.rfl, fun _ => rfl, fun _ => rfl⟩

/-- What a step can do to the families, with its events. -/
inductive Kinship (s : State) : State → List Life → Prop
  /-- All slots keep their places; who falls asleep in `wait` has no child to collect. -/
  | kept {s' : State} (hkin : ∀ p, Proc.Kin (s.proc p) (s'.proc p)) (hinit : s'.initproc = s.initproc)
      (hwait : ∀ q, InWait s' q → InWait s q ∨
        ∀ p, (s.proc p).parent = some q → (s.proc p).state ≠ .zombie) : Kinship s s' []
  /-- A running process makes a child. -/
  | forked {p np : Slot} {x : Proc} (hp : (s.proc p).state = .running)
      (hunused : (s.proc np).state = .unused) (hparent : x.parent = some p) (hstate : x.state = .runnable)
      (hpid : x.pid = s.nextpid) : Kinship s (s.take np x) [.forked (s.proc p).pid s.nextpid]
  /-- A running process exits: its children go to `initproc`, and whoever waits for one of them or for the
  process itself is woken. -/
  | exited {p : Slot} {status : CInt} {s' : State} (hp : (s.proc p).state = .running)
      (hne : s.initproc ≠ some p) (hinit : s'.initproc = s.initproc)
      (hstate : (s'.proc p).state = .zombie) (hpid : (s'.proc p).pid = (s.proc p).pid)
      (hstatus : (s'.proc p).xstate = status)
      (hparent : ∀ q, (s'.proc q).parent =
        if (s.proc q).parent = some p then s.initproc else (s.proc q).parent)
      (hothers : ∀ q, q ≠ p → (s'.proc q).pid = (s.proc q).pid ∧ (s'.proc q).xstate = (s.proc q).xstate ∧
        ((s'.proc q).state = .unused ↔ (s.proc q).state = .unused) ∧
        ((s'.proc q).state = .zombie ↔ (s.proc q).state = .zombie))
      (hwait : ∀ q, InWait s' q → InWait s q ∧ (s.proc p).parent ≠ some q ∧
        (s.initproc = some q → ∀ r, (s.proc r).parent ≠ some p)) :
      Kinship s s' [.exited (s.proc p).pid status]
  /-- A parent collects a child. -/
  | reaped {p q : Slot} {x : Proc} (hq : (s.proc q).state = .running) (hzombie : (s.proc p).state = .zombie)
      (hparent : (s.proc p).parent = some q) (hstate : x.state = .unused) (hnone : x.parent = none) :
      Kinship s (s.setProc p x) [.reaped (s.proc q).pid (s.proc p).pid (s.proc p).xstate]

/-! ## What a step can do -/

section Step

variable {s s' : State} {a : Action} {c : Fin ncpu} {p q : Slot} {x : Proc} {new : List Event}

/-- The child that `wait` finds is a zombie of the caller. -/
theorem zombieChild_eq_some (h : zombieChild s p = some q) :
    (s.proc q).parent = some p ∧ (s.proc q).state = .zombie := by
  have hmem := List.mem_of_find?_eq_some h
  have hstate := List.find?_some h
  rw [List.mem_filter, decide_eq_true_eq] at hmem
  exact ⟨hmem.2, by simpa using hstate⟩

/-- A caller that finds no zombie has none among its children. -/
theorem zombieChild_eq_none (h : zombieChild s p = none) (hq : (s.proc q).parent = some p) :
    (s.proc q).state ≠ .zombie := by
  have hmem : q ∈ (List.finRange nproc).filter fun pp => (s.proc pp).parent = some p := by simp [hq]
  simpa using List.find?_eq_none.mp h q hmem

/-- One slot changes within the families. -/
theorem kinship_setProc (hkin : Proc.Kin (s.proc p) x)
    (hwait : x.state = .sleeping → x.chan = some (.proc p) →
      InWait s p ∨ ∀ r, (s.proc r).parent = some p → (s.proc r).state ≠ .zombie) :
    Kinship s (s.setProc p x) [] := by
  refine .kept (fun q => ?_) rfl fun q hq => ?_
  · by_cases hne : q = p
    · subst hne
      rwa [setProc_proc_self]
    · rw [setProc_proc_ne hne]
      exact .refl _
  · unfold InWait at hq
    by_cases hne : q = p
    · subst hne
      rw [setProc_proc_self] at hq
      exact hwait hq.1 hq.2
    · rw [setProc_proc_ne hne] at hq
      exact .inl hq

/-- The harts, the ticks and the next pid are no part of the families. -/
theorem Kinship.congr {lives : List Life} {s'' : State} (h : Kinship s s' []) (hproc : s''.proc = s'.proc)
    (hinit : s''.initproc = s'.initproc) (hlives : lives = []) : Kinship s s'' lives := by
  subst hlives
  cases h with
  | kept hkin hinit' hwait =>
      refine .kept (fun p => hproc ▸ hkin p) (hinit.trans hinit') fun q hq => hwait q ?_
      rwa [InWait, hproc] at hq

/-- `sched` of a process whose state was just changed. -/
theorem kinship_sched (hx : Proc.Kin (s.proc p) x)
    (hwait : x.state = .sleeping → x.chan = some (.proc p) →
      ∀ r, (s.proc r).parent = some p → (s.proc r).state ≠ .zombie) :
    Kinship s (sched (s.setProc p x) c p).1 [] := by
  have hset : (s.setProc p x).setProc p { (s.setProc p x).proc p with lastExecuted := (s.setProc p x).ticks } =
      s.setProc p { x with lastExecuted := s.ticks } := by
    simp [State.setProc]
  unfold sched
  rw [hset]
  exact (kinship_setProc (x := { x with lastExecuted := s.ticks })
    ⟨hx.parent, hx.unused, hx.zombie, hx.pid, hx.xstate⟩ fun h h' => .inr (hwait h h')).congr rfl rfl rfl

/-- Woken processes keep their places. -/
theorem kinship_wakeup (s : State) (c : Fin ncpu) (chan : Option Chan) : Kinship s (wakeup s c chan) [] := by
  refine .kept (fun p => ?_) rfl fun q hq => .inl ?_
  · unfold wakeup
    dsimp only
    split_ifs with h
    · exact ⟨rfl, by simp [h.2.1], by simp [h.2.1], fun _ => rfl, fun _ => rfl⟩
    · exact .refl _
  · unfold InWait wakeup at hq
    dsimp only at hq
    split_ifs at hq with h
    · exact absurd hq.1 (by simp)
    · exact hq

/-- `kill` changes no family. -/
theorem kinship_kill (s : State) (pid : CInt) : Kinship s (kill s pid) [] := by
  unfold kill
  split
  · exact .kept (fun p => .refl _) rfl fun q hq => .inl hq
  · next p _ =>
      refine kinship_setProc ?_ ?_
      · refine ⟨rfl, ?_, ?_, fun _ => rfl, fun _ => rfl⟩
        · dsimp only
          split_ifs with h <;> simp [h]
        · dsimp only
          split_ifs with h <;> simp [h]
      · dsimp only
        intro hstate hchan
        split_ifs at hstate with h
        exact absurd hstate h

/-- A visit of the scheduler changes no family. -/
theorem kinship_visit (s : State) (c : Fin ncpu) : Kinship s (visit s c).1 [] := by
  unfold visit
  dsimp only
  split_ifs with h
  · refine (kinship_setProc ?_ ?_).congr rfl rfl rfl
    · exact ⟨rfl, by simp [h], by simp [h], fun _ => rfl, fun _ => rfl⟩
    · intro hstate
      cases hstate
  · exact Kinship.congr (.kept (fun p => .refl _) rfl fun q hq => .inl hq) rfl rfl rfl

/-- A fork that fails leaves a free slot free. -/
theorem kinship_fork_failed (hunused : (s.proc p).state = .unused) (hnone : (s.proc p).parent = none)
    (x : Proc) : Kinship s (freeproc (s.take p x) p) [] := by
  rw [freeproc, setProc_take]
  refine (kinship_setProc (s := s) (p := p) ?_ ?_).congr rfl rfl rfl
  · refine ⟨hnone.symm, by simp [hunused], by simp [hunused], ?_, ?_⟩
    · exact fun h => absurd hunused h
    · exact fun h => absurd hunused h
  · intro hstate
    cases hstate

/-- `fork` gives the caller a child, or none. -/
theorem kinship_fork {memory copied : Bool} (hp : (s.proc p).state = .running)
    (hfree : ∀ q, (s.proc q).state = .unused → (s.proc q).parent = none) :
    Kinship s (fork s p memory copied) (livesOf s p (.fork c memory copied)) := by
  unfold fork allocproc
  cases hfirst : firstUnused s with
  | none =>
      have hkept : Kinship s s [] := .kept (fun p => .refl _) rfl fun q hq => .inl hq
      cases memory <;> cases copied <;> first | exact hkept | simpa [livesOf, hfirst] using hkept
  | some np =>
      have hunused := firstUnused_state hfirst
      have hnone := hfree np hunused
      cases memory with
      | false => exact kinship_fork_failed hunused hnone _
      | true =>
          cases copied with
          | false => exact kinship_fork_failed hunused hnone _
          | true =>
              simp only [livesOf, hfirst, Option.toList_some, List.map_cons, List.map_nil]
              show Kinship s ((s.take np _).setProc np _) _
              rw [setProc_take, take_proc_self]
              exact .forked hp hunused rfl rfl rfl

/-- `wait` reaps a zombie of the caller, or puts the caller to sleep when it has none. -/
theorem kinship_wait (copyout : Bool) (hp : (s.proc p).state = .running) :
    Kinship s (wait s c p copyout).1 (livesOf s p (.wait c copyout)) := by
  unfold wait
  dsimp only
  split
  · next q hfind =>
      obtain ⟨hparent, hzombie⟩ := zombieChild_eq_some (s := s) hfind
      cases copyout with
      | true =>
          have hlives : livesOf s p (.wait c true) =
              [.reaped (s.proc p).pid (s.proc q).pid (s.proc q).xstate] := by
            simp [livesOf, zombieChild, hfind]
          rw [hlives]
          exact .reaped hp hzombie hparent rfl rfl
      | false => exact .kept (fun p => .refl _) rfl fun q hq => .inl hq
  · next hfind =>
      have hlives : livesOf s p (.wait c copyout) = [] := by
        cases copyout with
        | true => simp [livesOf, zombieChild, hfind]
        | false => rfl
      rw [hlives]
      split_ifs
      · exact .kept (fun p => .refl _) rfl fun q hq => .inl hq
      · refine kinship_sched ?_ fun _ _ r hr => zombieChild_eq_none hfind hr
        exact ⟨rfl, by simp [hp], by simp [hp], fun _ => rfl, fun _ => rfl⟩

/-- The slot was woken or left alone, up to its parent. -/
structure Proc.Roused (x y : Proc) : Prop where
  pid : y.pid = x.pid
  xstate : y.xstate = x.xstate
  chan : y.chan = x.chan
  state : y.state = x.state ∨ x.state = .sleeping ∧ y.state = .runnable

namespace Proc.Roused

variable {x y z : Proc}

/-- A slot left alone was not woken. -/
theorem refl (x : Proc) : Roused x x := ⟨rfl, rfl, rfl, .inl rfl⟩

/-- A slot woken twice was woken. -/
theorem trans (h : Roused x y) (h' : Roused y z) : Roused x z where
  pid := h'.pid.trans h.pid
  xstate := h'.xstate.trans h.xstate
  chan := h'.chan.trans h.chan
  state := by
    rcases h.state with hxy | ⟨hx, hy⟩
    · rcases h'.state with hyz | ⟨hy, hz⟩
      · exact .inl (hyz.trans hxy)
      · exact .inr ⟨hxy.symm.trans hy, hz⟩
    · rcases h'.state with hyz | ⟨hy', -⟩
      · exact .inr ⟨hx, hyz.trans hy⟩
      · exact absurd (hy.symm.trans hy') (by simp)

/-- Waking neither takes a slot nor frees it. -/
theorem unused (h : Roused x y) : y.state = .unused ↔ x.state = .unused := by
  rcases h.state with hs | ⟨hx, hy⟩
  · rw [hs]
  · simp [hx, hy]

/-- Waking does not make a zombie. -/
theorem zombie (h : Roused x y) : y.state = .zombie ↔ x.state = .zombie := by
  rcases h.state with hs | ⟨hx, hy⟩
  · rw [hs]
  · simp [hx, hy]

/-- Who sleeps after the wakeups slept before. -/
theorem sleeping (h : Roused x y) (hy : y.state = .sleeping) : x.state = .sleeping := by
  rcases h.state with hs | ⟨hx, -⟩
  · exact hs.symm.trans hy
  · exact hx

end Proc.Roused

/-- `wakeup` wakes a slot or leaves it alone. -/
theorem roused_wakeup (s : State) (c : Fin ncpu) (chan : Option Chan) (p : Slot) :
    Proc.Roused (s.proc p) ((wakeup s c chan).proc p) := by
  unfold wakeup
  dsimp only
  split_ifs with h
  · exact ⟨rfl, rfl, rfl, .inr ⟨h.2.1, rfl⟩⟩
  · exact .refl _

/-- `wakeup` changes no parent. -/
@[simp] theorem wakeup_parent (s : State) (c : Fin ncpu) (chan : Option Chan) (p : Slot) :
    ((wakeup s c chan).proc p).parent = (s.proc p).parent := by
  unfold wakeup
  dsimp only
  split_ifs <;> rfl

/-- Who is woken does not sleep in `wait`. -/
theorem not_inWait_wakeup {chan : Option Chan} (hp : some p ≠ s.myproc c) (hwake : chan = some (.proc p)) :
    ¬ InWait (wakeup s c chan) p := by
  subst hwake
  rintro ⟨hstate, hchan⟩
  unfold wakeup at hstate hchan
  dsimp only at hstate hchan
  split_ifs at hstate hchan with h
  exact h ⟨hp, hstate, hchan⟩

/-- Who sleeps in `wait` after the wakeups slept there before. -/
theorem InWait.of_roused (h : Proc.Roused (s.proc p) (s'.proc p)) (hw : InWait s' p) : InWait s p :=
  ⟨h.sleeping hw.1, h.chan.symm.trans hw.2⟩

/-- What the loop of `reparent` has done after some slots. -/
structure Reparented (slots : List Slot) (c : Fin ncpu) (p : Slot) (s s' : State) : Prop where
  initproc : s'.initproc = s.initproc
  myproc : ∀ c', s'.myproc c' = s.myproc c'
  parent : ∀ q, (s'.proc q).parent =
    if q ∈ slots ∧ (s.proc q).parent = some p then s.initproc else (s.proc q).parent
  roused : ∀ q, Proc.Roused (s.proc q) (s'.proc q)
  woken : ∀ q r, s.initproc = some q → some q ≠ s.myproc c → r ∈ slots → (s.proc r).parent = some p →
    ¬ InWait s' q

/-- A slot that is not a child is passed over. -/
theorem Reparented.skip {slots : List Slot} (h : Reparented slots c p s s')
    (hq : (s.proc q).parent ≠ some p) : Reparented (q :: slots) c p s s' where
  initproc := h.initproc
  myproc := h.myproc
  parent r := by
    rw [h.parent r]
    by_cases hr : r = q
    · subst hr
      simp [hq]
    · simp [hr]
  roused := h.roused
  woken q' r hinit hq' hr hparent := by
    rcases List.mem_cons.mp hr with rfl | hr
    · exact absurd hparent hq
    · exact h.woken q' r hinit hq' hr hparent

/-- A child goes to `initproc`, which is woken. -/
theorem Reparented.pass {slots : List Slot} (hne : s.initproc ≠ some p) (hq : (s.proc q).parent = some p)
    (h : Reparented slots c p (wakeup (s.setProc q { s.proc q with parent := s.initproc }) c
      (s.initproc.map .proc)) s') : Reparented (q :: slots) c p s s' := by
  have hrouse : ∀ r, Proc.Roused (s.proc r)
      ((wakeup (s.setProc q { s.proc q with parent := s.initproc }) c (s.initproc.map .proc)).proc r) := by
    intro r
    refine Proc.Roused.trans ?_ (roused_wakeup _ c _ r)
    by_cases hr : r = q
    · subst hr
      rw [setProc_proc_self]
      exact ⟨rfl, rfl, rfl, .inl rfl⟩
    · rw [setProc_proc_ne hr]
      exact .refl _
  refine ⟨h.initproc, h.myproc, fun r => ?_, fun r => (hrouse r).trans (h.roused r), ?_⟩
  · rw [h.parent r, wakeup_parent]
    by_cases hr : r = q
    · subst hr
      rw [setProc_proc_self]
      simp [hq, hne]
    · rw [setProc_proc_ne hr]
      simp only [List.mem_cons, hr, false_or]
      rfl
  · intro q' r hinit hq' _ _ hwait
    have hchan : s.initproc.map Chan.proc = some (.proc q') := by rw [hinit, Option.map_some]
    refine not_inWait_wakeup ?_ hchan (hwait.of_roused (h.roused q'))
    exact hq'

/-- The loop of `reparent`. -/
theorem reparent_reparented (hne : s.initproc ≠ some p) :
    Reparented (List.finRange nproc) c p s (reparent s c p) := by
  unfold reparent
  generalize List.finRange nproc = slots
  induction slots generalizing s with
  | nil =>
      exact ⟨rfl, fun _ => rfl, fun q => by simp, fun q => .refl _, fun q r _ _ hr => by cases hr⟩
  | cons q slots ih =>
      rw [List.foldl_cons]
      split_ifs with hq
      · exact .pass hne hq (ih hne)
      · exact .skip (ih hne) hq

/-- `exit` hands the children to `init` and makes a zombie of the caller. -/
theorem kinship_exit {status : CInt} (hp : (s.proc p).state = .running) (hmy : s.myproc c = some p)
    (h : exit s c p status = some (s', new)) : Kinship s s' [.exited (s.proc p).pid status] := by
  unfold exit at h
  split_ifs at h with hinit
  have hne : s.initproc ≠ some p := fun heq => hinit heq.symm
  -- the children go to `init`, and `init` is woken
  have hrep := reparent_reparented (c := c) hne
  generalize reparent s c p = s₁ at h hrep
  dsimp only at h
  have hrouse : ∀ q, Proc.Roused (s.proc q) ((wakeup s₁ c ((s₁.proc p).parent.map .proc)).proc q) :=
    fun q => (hrep.roused q).trans (roused_wakeup s₁ c _ q)
  have hparents : ∀ q, ((wakeup s₁ c ((s₁.proc p).parent.map .proc)).proc q).parent =
      if (s.proc q).parent = some p then s.initproc else (s.proc q).parent := by
    intro q
    rw [wakeup_parent, hrep.parent q]
    simp
  -- whoever still sleeps in `wait` now is not the parent that was woken
  have hwoken : ∀ q, q ≠ p → InWait (wakeup s₁ c ((s₁.proc p).parent.map .proc)) q →
      InWait s₁ q ∧ (s₁.proc p).parent ≠ some q := by
    intro q hq hwait
    refine ⟨hwait.of_roused (roused_wakeup s₁ c _ q), fun heq => ?_⟩
    have hchan : (s₁.proc p).parent.map Chan.proc = some (.proc q) := by rw [heq, Option.map_some]
    refine not_inWait_wakeup ?_ hchan hwait
    rw [hrep.myproc, hmy]
    exact fun h => hq (Option.some.inj h)
  have hinit₂ : (wakeup s₁ c ((s₁.proc p).parent.map .proc)).initproc = s.initproc := hrep.initproc
  generalize wakeup s₁ c ((s₁.proc p).parent.map .proc) = s₂ at h hrouse hparents hwoken hinit₂
  -- `sched` stamps the zombie, and leaves the others alone
  have hself : s'.proc p = { s₂.proc p with xstate := status, state := .zombie, lastExecuted := s₂.ticks } := by
    rw [← (Prod.mk.inj (Option.some.inj h)).1]
    simp
  have hother : ∀ q, q ≠ p → s'.proc q = s₂.proc q := by
    intro q hq
    rw [← (Prod.mk.inj (Option.some.inj h)).1]
    simp [hq]
  have hinit' : s'.initproc = s.initproc := by
    rw [← (Prod.mk.inj (Option.some.inj h)).1]
    exact hinit₂
  refine .exited hp hne hinit' ?_ ?_ ?_ (fun q => ?_) (fun q hq => ?_) fun q hq => ?_
  · rw [hself]
  · rw [hself]
    exact (hrouse p).pid
  · rw [hself]
  · rw [← hparents q]
    by_cases hq : q = p
    · subst hq
      rw [hself]
    · rw [hother q hq]
  · rw [hother q hq]
    exact ⟨(hrouse q).pid, (hrouse q).xstate, (hrouse q).unused, (hrouse q).zombie⟩
  -- the caller is a zombie now, so it does not sleep
  · have hqp : q ≠ p := by
      rintro rfl
      rw [InWait, hself] at hq
      exact absurd hq.1 (by simp)
    rw [InWait, hother q hqp] at hq
    obtain ⟨hwait₁, hparent⟩ := hwoken q hqp hq
    refine ⟨hwait₁.of_roused (hrep.roused q), fun heq => hparent ?_, fun hq' r hr => ?_⟩
    · rw [hrep.parent p, heq, if_neg]
      exact fun h => hqp (Option.some.inj h.2)
    · refine hrep.woken q r hq' ?_ (List.mem_finRange r) hr hwait₁
      rw [hmy]
      exact fun h => hqp (Option.some.inj h)

/-- Every step is one of these. -/
theorem step_kinship (hharts : OnHarts s) (hfree : ∀ q, (s.proc q).state = .unused → (s.proc q).parent = none)
    (hsleep : SleepsElsewhere a) (h : step s a = some (s', new)) : Kinship s s' (lives s a) := by
  cases a with
  | visit c =>
      rw [step] at h
      split_ifs at h
      have hkin := kinship_visit s c
      rw [Option.some.inj h] at hkin
      exact hkin
  | yield c =>
      obtain ⟨p, hmy, heq⟩ := Option.map_eq_some_iff.mp h
      have hp := hharts.running c p hmy
      cases heq
      exact kinship_sched ⟨rfl, by simp [hp], by simp [hp], fun _ => rfl, fun _ => rfl⟩ (by simp)
  | sleep c chan =>
      obtain ⟨p, hmy, heq⟩ := Option.map_eq_some_iff.mp h
      have hp := hharts.running c p hmy
      cases heq
      refine kinship_sched ⟨rfl, by simp [hp], by simp [hp], fun _ => rfl, fun _ => rfl⟩ fun _ hchan => ?_
      cases Option.some.inj hchan
      -- the step condition: no process but the sleeper itself is its channel
      exact hsleep.elim
  | wakeup c chan =>
      cases h
      exact kinship_wakeup s c _
  | kill c pid =>
      obtain ⟨p, -, heq⟩ := Option.map_eq_some_iff.mp h
      cases heq
      exact kinship_kill s pid
  | fork c memory copied =>
      obtain ⟨p, hmy, heq⟩ := Option.map_eq_some_iff.mp h
      cases heq
      simp only [lives, hmy, Option.elim_some]
      exact kinship_fork (hharts.running c p hmy) hfree
  | exit c status =>
      obtain ⟨p, hmy, heq⟩ := Option.bind_eq_some_iff.mp h
      simp only [lives, hmy, Option.elim_some]
      exact kinship_exit (hharts.running c p hmy) hmy heq
  | wait c copyout =>
      obtain ⟨p, hmy, heq⟩ := Option.map_eq_some_iff.mp h
      have hkin := kinship_wait (c := c) copyout (hharts.running c p hmy)
      rw [heq] at hkin
      simp only [lives, hmy, Option.elim_some]
      exact hkin
  | clockintr c =>
      cases h
      exact (kinship_wakeup s c (some .ticks)).congr rfl rfl rfl

end Step

/-! ## Invariants -/

section Invariants

variable {s s' : State} {a : Action} {i : Slot} {evs new : List Life}

/-- `nextpid` grows with the forks. -/
theorem nextpid_le_step {evs : List Event} (h : Procs.step s a = some (s', evs)) (hleft : PidsLeft s a) :
    s.nextpid.toInt ≤ s'.nextpid.toInt := by
  have hsame (heq : s'.nextpid = s.nextpid) : s.nextpid.toInt ≤ s'.nextpid.toInt := by rw [heq]
  cases a with
  | visit c =>
      rw [Procs.step] at h
      split_ifs at h
      have hvisit : (visit s c).1.nextpid = s.nextpid := by
        unfold visit
        dsimp only
        split_ifs <;> rfl
      rw [Option.some.inj h] at hvisit
      exact hsame hvisit
  | yield c =>
      obtain ⟨p, -, heq⟩ := Option.map_eq_some_iff.mp h
      cases heq
      exact le_refl _
  | sleep c chan =>
      obtain ⟨p, -, heq⟩ := Option.map_eq_some_iff.mp h
      cases heq
      exact le_refl _
  | wakeup c chan =>
      cases h
      exact le_refl _
  | kill c pid =>
      obtain ⟨p, -, heq⟩ := Option.map_eq_some_iff.mp h
      cases heq
      exact hsame (Quiet.kill s pid).nextpid
  -- only `fork` spends a pid
  | fork c memory copied =>
      obtain ⟨p, -, heq⟩ := Option.map_eq_some_iff.mp h
      cases heq
      have hadd : s.nextpid.toInt ≤ (s.nextpid + 1).toInt := by
        rw [toInt_add_one hleft]
        omega
      unfold fork allocproc
      cases firstUnused s with
      | none => exact le_refl _
      | some np => cases memory <;> cases copied <;> exact hadd
  | exit c status =>
      obtain ⟨p, -, heq⟩ := Option.bind_eq_some_iff.mp h
      unfold exit at heq
      split_ifs at heq
      refine hsame ?_
      rw [← (Prod.mk.inj (Option.some.inj heq)).1, ← (Quiet.reparent s c p).nextpid]
      generalize reparent s c p = s₁
      rfl
  | wait c copyout =>
      obtain ⟨p, -, heq⟩ := Option.map_eq_some_iff.mp h
      have hwait : (wait s c p copyout).1.nextpid = s.nextpid := by
        unfold wait
        dsimp only
        split
        · split_ifs <;> rfl
        · split_ifs <;> rfl
      rw [heq] at hwait
      exact hsame hwait
  | clockintr c =>
      cases h
      exact le_refl _

/-- The processes are some of those of before. -/
theorem PidsOrdered.congr (h : PidsOrdered s) (hnext : s.nextpid.toInt ≤ s'.nextpid.toInt)
    (hold : ∀ p, (s'.proc p).state ≠ .unused →
      (s.proc p).state ≠ .unused ∧ (s'.proc p).pid = (s.proc p).pid) : PidsOrdered s' where
  pos p hp := by
    rw [(hold p hp).2]
    exact h.pos p (hold p hp).1
  lt p hp := by
    rw [(hold p hp).2]
    exact lt_of_lt_of_le (h.lt p (hold p hp).1) hnext
  inj p q hp hq heq := by
    rw [(hold p hp).2, (hold q hq).2] at heq
    exact h.inj p q (hold p hp).1 (hold q hq).1 heq

/-- A step keeps the pids in order. -/
theorem PidsOrdered.step (h : PidsOrdered s) (hnext : s.nextpid.toInt ≤ s'.nextpid.toInt)
    (hk : Kinship s s' new) : PidsOrdered s' := by
  cases hk with
  | kept hkin _ _ =>
      refine h.congr hnext fun p hp => ?_
      have hlive := mt (hkin p).unused.mpr hp
      exact ⟨hlive, (hkin p).pid hlive⟩
  | @forked p np x hp hunused hparent hstate hpid =>
      have hlt : s.nextpid.toInt < (s.take np x).nextpid.toInt := by
        refine lt_of_le_of_ne hnext fun heq => ?_
        have hself : s.nextpid = s.nextpid + 1 := BitVec.toInt_inj.mp heq
        simp at hself
      -- pids in use are below the one that is spent
      have hfresh : ∀ q, (s.proc q).state ≠ .unused → (s.proc q).pid ≠ s.nextpid := by
        intro q hq heq
        have := h.lt q hq
        rw [heq] at this
        exact lt_irrefl _ this
      have hplive : (s.proc p).state ≠ .unused := by simp [hp]
      refine ⟨fun q hq => ?_, fun q hq => ?_, fun q r hq hr heq => ?_⟩
      · by_cases hqn : q = np
        · subst hqn
          rw [take_proc_self, hpid]
          exact lt_trans (h.pos p hplive) (h.lt p hplive)
        · rw [take_proc_ne hqn] at hq ⊢
          exact h.pos q hq
      · by_cases hqn : q = np
        · subst hqn
          rwa [take_proc_self, hpid]
        · rw [take_proc_ne hqn] at hq ⊢
          exact lt_of_lt_of_le (h.lt q hq) hnext
      -- two processes with one pid: neither of them is the new one, or both are
      · by_cases hqn : q = np <;> by_cases hrn : r = np
        · rw [hqn, hrn]
        · subst hqn
          rw [take_proc_ne hrn] at hr heq
          rw [take_proc_self, hpid] at heq
          exact absurd heq.symm (hfresh r hr)
        · subst hrn
          rw [take_proc_ne hqn] at hq heq
          rw [take_proc_self, hpid] at heq
          exact absurd heq (hfresh q hq)
        · rw [take_proc_ne hqn] at hq heq
          rw [take_proc_ne hrn] at hr heq
          exact h.inj q r hq hr heq
  | @exited p status s' hp _ _ _ hpid _ _ hothers _ =>
      refine h.congr hnext fun q hq => ?_
      by_cases hqp : q = p
      · subst hqp
        exact ⟨by simp [hp], hpid⟩
      · exact ⟨mt (hothers q hqp).2.2.1.mpr hq, (hothers q hqp).1⟩
  | @reaped p q x _ _ _ hstate _ =>
      refine h.congr hnext fun r hr => ?_
      have hrp : r ≠ p := by
        rintro rfl
        rw [setProc_proc_self] at hr
        exact hr hstate
      rw [setProc_proc_ne hrp] at hr ⊢
      exact ⟨hr, rfl⟩

/-- A parent has not exited. -/
theorem Families.parent_alive {p q : Slot} (h : Families s i) (hp : (s.proc p).state ≠ .unused)
    (hq : (s.proc p).parent = some q) : Alive s q := by
  have hpi : p ≠ i := by
    rintro rfl
    rw [h.top] at hq
    cases hq
  obtain ⟨q', hq', halive, -⟩ := h.parent p hp hpi
  rw [hq] at hq'
  cases hq'
  exact halive

/-- A step keeps the families. -/
theorem Families.step (h : Families s i) (hpids : PidsOrdered s) (hk : Kinship s s' new) : Families s' i := by
  cases hk with
  | kept hkin hinit _ =>
      have halive : ∀ q, Alive s q → Alive s' q := fun q hq =>
        ⟨mt (hkin q).unused.mp hq.1, mt (hkin q).zombie.mp hq.2⟩
      refine ⟨hinit.trans h.initproc, halive i h.alive, ?_, fun p hp => ?_, fun p hp hpi => ?_, fun p hp hpi => ?_⟩
      · rw [(hkin i).parent, h.top]
      · rw [(hkin p).parent, h.unused p ((hkin p).unused.mp hp)]
      · have hlive := mt (hkin p).unused.mpr hp
        obtain ⟨q, hq, hqa, hlt⟩ := h.parent p hlive hpi
        refine ⟨q, (hkin p).parent.trans hq, halive q hqa, ?_⟩
        rw [(hkin q).pid hqa.1, (hkin p).pid hlive]
        exact hlt
      · have hlive := mt (hkin p).unused.mpr hp
        rw [(hkin i).pid h.alive.1, (hkin p).pid hlive]
        exact h.first p hlive hpi
  | @forked p np x hp hunused hparent hstate hpid =>
      have hne : ∀ q, Alive s q → q ≠ np := by
        rintro q hq rfl
        exact hq.1 hunused
      have hrun : Alive s p := ⟨by simp [hp], by simp [hp]⟩
      have halive : ∀ q, Alive s q → Alive (s.take np x) q := fun q hq => by
        rwa [Alive, take_proc_ne (hne q hq)]
      refine ⟨h.initproc, halive i h.alive, ?_, fun q hq => ?_, fun q hq hqi => ?_, fun q hq hqi => ?_⟩
      · rw [take_proc_ne (hne i h.alive), h.top]
      · by_cases hqn : q = np
        · subst hqn
          rw [take_proc_self, hstate] at hq
          cases hq
        · rw [take_proc_ne hqn] at hq ⊢
          exact h.unused q hq
      · by_cases hqn : q = np
        · subst hqn
          refine ⟨p, by rw [take_proc_self, hparent], halive p hrun, ?_⟩
          rw [take_proc_self, take_proc_ne (hne p hrun), hpid]
          exact hpids.lt p hrun.1
        · rw [take_proc_ne hqn] at hq ⊢
          obtain ⟨r, hr, hra, hlt⟩ := h.parent q hq hqi
          refine ⟨r, hr, halive r hra, ?_⟩
          rwa [take_proc_ne (hne r hra)]
      · rw [take_proc_ne (hne i h.alive)]
        by_cases hqn : q = np
        · subst hqn
          rw [take_proc_self, hpid]
          exact hpids.lt i h.alive.1
        · rw [take_proc_ne hqn] at hq ⊢
          exact h.first q hq hqi
  | @exited p status s' hp hne hinit hstate hpid _ hparent hothers _ =>
      have hpi : i ≠ p := fun heq => hne (heq ▸ h.initproc)
      have hpids' : ∀ q, (s'.proc q).pid = (s.proc q).pid := fun q => by
        by_cases hq : q = p
        · rw [hq, hpid]
        · exact (hothers q hq).1
      have hlive : ∀ q, (s'.proc q).state ≠ .unused → (s.proc q).state ≠ .unused := fun q hq => by
        by_cases hqp : q = p
        · rw [hqp, hp]
          simp
        · exact mt (hothers q hqp).2.2.1.mpr hq
      have halive : ∀ q, q ≠ p → Alive s q → Alive s' q := fun q hqp hq =>
        ⟨mt (hothers q hqp).2.2.1.mp hq.1, mt (hothers q hqp).2.2.2.mp hq.2⟩
      refine ⟨hinit.trans h.initproc, halive i hpi h.alive, ?_, fun q hq => ?_, fun q hq hqi => ?_,
        fun q hq hqi => ?_⟩
      · rw [hparent i, h.top, if_neg (by simp)]
      · have hqp : q ≠ p := by
          rintro rfl
          rw [hstate] at hq
          cases hq
        rw [hparent q, h.unused q ((hothers q hqp).2.2.1.mp hq), if_neg (by simp)]
      · obtain ⟨r, hr, hra, hlt⟩ := h.parent q (hlive q hq) hqi
        by_cases hrp : r = p
        · -- a child of the process that exits
          refine ⟨i, by rw [hparent q, hr, hrp, if_pos rfl, h.initproc], halive i hpi h.alive, ?_⟩
          rw [hpids' i, hpids' q]
          exact h.first q (hlive q hq) hqi
        · refine ⟨r, ?_, halive r hrp hra, ?_⟩
          · rw [hparent q, hr, if_neg fun heq => hrp (Option.some.inj heq)]
          · rw [hpids' r, hpids' q]
            exact hlt
      · rw [hpids' i, hpids' q]
        exact h.first q (hlive q hq) hqi
  | @reaped p q x hq hzombie hparent hstate hnone =>
      have hne : ∀ r, Alive s r → r ≠ p := by
        rintro r hr rfl
        exact hr.2 hzombie
      have hlive : ∀ r, ((s.setProc p x).proc r).state ≠ .unused → r ≠ p := by
        rintro r hr rfl
        rw [setProc_proc_self] at hr
        exact hr hstate
      have halive : ∀ r, Alive s r → Alive (s.setProc p x) r := fun r hr => by
        rwa [Alive, setProc_proc_ne (hne r hr)]
      refine ⟨h.initproc, halive i h.alive, ?_, fun r hr => ?_, fun r hr hri => ?_, fun r hr hri => ?_⟩
      · rw [setProc_proc_ne (hne i h.alive), h.top]
      · by_cases hrp : r = p
        · subst hrp
          rw [setProc_proc_self, hnone]
        · rw [setProc_proc_ne hrp] at hr ⊢
          exact h.unused r hr
      · have hrp := hlive r hr
        rw [setProc_proc_ne hrp] at hr ⊢
        obtain ⟨t, ht, hta, hlt⟩ := h.parent r hr hri
        refine ⟨t, ht, halive t hta, ?_⟩
        rwa [setProc_proc_ne (hne t hta)]
      · have hrp := hlive r hr
        rw [setProc_proc_ne hrp] at hr ⊢
        rw [setProc_proc_ne (hne i h.alive)]
        exact h.first r hr hri

/-- A step wakes whoever waits for a process that exits. -/
theorem WaitsWoken.step (h : WaitsWoken s) (hk : Kinship s s' new) : WaitsWoken s' := by
  intro r q hr hq hwait
  cases hk with
  | kept hkin _ hwaits =>
      have hr' := (hkin r).zombie.mp hr
      have hq' := (hkin r).parent.symm.trans hq
      rcases hwaits q hwait with hw | hnone
      · exact h r q hr' hq' hw
      · exact hnone r hq' hr'
  -- the new process is runnable, so it is neither the zombie nor the sleeper
  | @forked p np x _ _ _ hstate _ =>
      have hne : ∀ t, ((s.take np x).proc t).state ≠ .runnable → t ≠ np := by
        rintro t ht rfl
        rw [take_proc_self] at ht
        exact ht hstate
      have hrn := hne r (by simp [hr])
      have hqn := hne q (by simp [hwait.1])
      rw [take_proc_ne hrn] at hr hq
      rw [InWait, take_proc_ne hqn] at hwait
      exact h r q hr hq hwait
  -- the exit has woken its parent, and `init` for the children handed over
  | @exited p status s' _ _ _ _ _ _ hparent hothers hwaits =>
      obtain ⟨hw, hpq, hinit⟩ := hwaits q hwait
      rw [hparent r] at hq
      split_ifs at hq with hrp
      · exact hinit hq r hrp
      · by_cases hr' : r = p
        · exact hpq (hr' ▸ hq)
        · exact h r q ((hothers r hr').2.2.2.mp hr) hq hw
  -- the slot that is freed is neither the zombie nor the sleeper
  | @reaped p q' x _ _ _ hstate _ =>
      have hne : ∀ t, ((s.setProc p x).proc t).state ≠ .unused → t ≠ p := by
        rintro t ht rfl
        rw [setProc_proc_self] at ht
        exact ht hstate
      have hrp := hne r (by simp [hr])
      have hqp := hne q (by simp [hwait.1])
      rw [setProc_proc_ne hrp] at hr hq
      rw [InWait, setProc_proc_ne hqp] at hwait
      exact h r q hr hq hwait

end Invariants

/-! ## Runs -/

section Runs

variable {s t : State} {as : List Action}

/-- What the steps of a run keep. -/
structure Kept (s : State) (i : Slot) : Prop where
  pids : PidsOrdered s
  harts : OnHarts s
  families : Families s i
  woken : WaitsWoken s

/-- A step keeps all this, and changes the families as `Kinship` says. -/
theorem Kept.step {a : Action} {i : Slot} {new : List Event} (h : Kept s i)
    (ha : PidsLeft s a ∧ SleepsElsewhere a) (hs : Procs.step s a = some (t, new)) :
    Kept t i ∧ Kinship s t (lives s a) := by
  have hk := step_kinship h.harts h.families.unused ha.2 hs
  exact ⟨⟨h.pids.step (nextpid_le_step hs ha.1) hk, h.harts.change (step_change hs),
    h.families.step h.pids hk, h.woken.step hk⟩, hk⟩

/-- At boot `init` is the only process. -/
theorem kept_boot : Kept boot 0 := by
  have hone : ∀ p, (boot.proc p).state ≠ .unused → p = 0 := by
    intro p hp
    by_contra hne
    rw [boot_eq] at hp
    change ((procinit.take 0 _).proc p).state ≠ .unused at hp
    rw [take_proc_ne hne] at hp
    exact hp rfl
  have hself : boot.proc 0 = { procinit.proc 0 with pid := 1, state := .runnable } := by
    rw [boot_eq]
    exact take_proc_self procinit 0 _
  refine ⟨⟨pids_boot.pos, pids_boot.lt, pids_boot.inj⟩, onHarts_boot,
    ⟨by rw [boot_eq], ?_, ?_, fun p hp => ?_, fun p hp hp0 => ?_,
    fun p hp hp0 => ?_⟩, fun p q hp => ?_⟩
  · rw [Alive, hself]
    exact ⟨by simp, by simp⟩
  · rw [hself]
    rfl
  · have hne : p ≠ 0 := by
      rintro rfl
      rw [hself] at hp
      cases hp
    rw [boot_eq]
    change ((procinit.take 0 _).proc p).parent = none
    rw [take_proc_ne hne]
    rfl
  · exact absurd (hone p hp) hp0
  · exact absurd (hone p hp) hp0
  · have h0 := hone p (by simp [hp])
    rw [h0, hself] at hp
    cases hp

/-- The parents of a process lead to `initproc`. -/
theorem Families.reaches {i : Slot} (h : Families s i) (hpids : PidsOrdered s) {p : Slot}
    (hp : (s.proc p).state ≠ .unused) :
    Relation.ReflTransGen (fun a b => (s.proc a).parent = some b) p i := by
  -- a parent has a smaller pid
  induction hn : (s.proc p).pid.toInt.toNat using Nat.strong_induction_on generalizing p with
  | _ n ih =>
      by_cases hpi : p = i
      · rw [hpi]
      · obtain ⟨q, hq, hqa, hlt⟩ := h.parent p hp hpi
        have hpos := hpids.pos q hqa.1
        exact .head hq (ih _ (by omega) hqa.1 rfl)

/-- **Families.** In every state of a run that does not run out of pids and in which only `wait` sleeps on a process,
the parents of every process lead to `initproc`, a parent has not exited, and the parent of a zombie does not
sleep in `wait`. -/
theorem families_rooted {evs : List Event}
    (hC : Meets step (fun _ s a => PidsLeft s a ∧ SleepsElsewhere a) [] boot as)
    (hrun : exec step [] boot as = some (evs, t)) :
    ∃ i, t.initproc = some i ∧ Alive t i ∧ ∀ p, (t.proc p).state ≠ .unused →
      Relation.ReflTransGen (fun a b => (t.proc a).parent = some b) p i ∧
      ∀ q, (t.proc p).parent = some q → Alive t q ∧ ((t.proc p).state = .zombie → ¬ InWait t q) := by
  have hkept : Kept t 0 := by
    refine exec_invariant (I := fun _ s => Kept s 0) ?_ kept_boot hC hrun
    intro evs s a u new hI ha hs
    exact (hI.step ha hs).1
  have hfam := hkept.families
  refine ⟨0, hfam.initproc, hfam.alive, fun p hp => ⟨hfam.reaches hkept.pids hp, fun q hq => ?_⟩⟩
  exact ⟨hfam.parent_alive hp hq, fun hzombie => hkept.woken p q hzombie hq⟩

/-- There is a hart. -/
theorem ncpu_pos : 0 < ncpu := by decide

/-- There is a second hart. -/
theorem one_lt_ncpu : 1 < ncpu := by decide

/-- The first hart. -/
def cpu0 : Fin ncpu := ⟨0, ncpu_pos⟩

/-- The second one. -/
def cpu1 : Fin ncpu := ⟨1, one_lt_ncpu⟩

/-- A child of `init` exits while `init` sleeps in `wait`. -/
def zombieRun : List Action :=
  [.visit cpu0, .fork cpu0 true true, .wait cpu0 true, .visit cpu1, .visit cpu1, .exit cpu1 7]

/-- A run in which a child of `init` exits: the zombie hangs below `init`, which no longer sleeps in
`wait`. -/
theorem families_rooted_zombieRun : ∃ evs t, exec step [] boot zombieRun = some (evs, t) ∧
    ∃ i, t.initproc = some i ∧ Alive t i ∧ ∀ p, (t.proc p).state ≠ .unused →
      Relation.ReflTransGen (fun a b => (t.proc a).parent = some b) p i ∧
      ∀ q, (t.proc p).parent = some q → Alive t q ∧ ((t.proc p).state = .zombie → ¬ InWait t q) := by
  have hsome : (exec step [] boot zombieRun).isSome = true := by decide +kernel
  obtain ⟨⟨evs, t⟩, hrun⟩ := Option.isSome_iff_exists.mp hsome
  refine ⟨evs, t, hrun, families_rooted ?_ hrun⟩
  decide +kernel

end Runs

end Procs

end OsLabs
