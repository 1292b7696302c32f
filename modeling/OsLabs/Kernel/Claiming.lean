import OsLabs.Kernel.Steps

/-! # Who opens and who closes a semaphore

`sem_open` tests `s->open`, and in a later step sets it without a lock; `sem_close` tests it before it
takes the lock and does not test it again. Two callers may therefore pass the test before either of
them assigns, and both return 1.

`ClaimedOnce` is what is expected of a history: opens and closes alternate, and a page is given to
`kfree` no more often than `sem_open` has named the lock with it. It holds of exactly the runs in
which each assignment of `sem_open` finds the flag still 0, and each locked section of `sem_close`
finds it still 1 (`claimedOnce_iff`). -/

namespace OsLabs

namespace Kernel

open Transition

variable {n : Nat} {k k' : State n} {evs new : List (Event n)} {a : Action n}

/-! ## What is expected -/

/-- `sem_open` has opened the slot with this page for the name. -/
def Event.isOpenedWith (page : Nat) : Event n → Bool
  | .opened _ p => p == page
  | _ => false

/-- `sem_close` has given this page to `kfree`. -/
def Event.isClosedWith (page : Nat) : Event n → Bool
  | .closed _ p _ => p == page
  | _ => false

/-- No page has been given to `kfree` more often than the slot has been opened with it. -/
def PagesFreedOnce (evs : List (Event n)) : Prop :=
  ∀ pre, pre <+: evs → ∀ page,
    pre.countP (Event.isClosedWith page) ≤ pre.countP (Event.isOpenedWith page)

/-- Between two closes the slot is opened at most once, between two opens it is closed at most once,
and each open is followed by at most one `kfree` of its page. -/
structure ClaimedOnce (evs : List (Event n)) : Prop where
  opens : Once Event.isOpened Event.isClosed evs
  closes : Once Event.isClosed Event.isOpened evs
  pages : PagesFreedOnce evs

/-! ## The step condition -/

/-- The assignments of `sem_open`. -/
def Pc.assigns : Pc n → Bool
  | .openAssign _ _ => true
  | _ => false

/-- The assignments of `sem_open` are made while the flag is 0, and the locked section of `sem_close`
while it is 1: the value that the caller tested. -/
def FlagAsTested (k : State n) : Action n → Prop
  | .run i =>
      ((k.procs i).pc.assigns = true → k.isOpen = false) ∧
        ((k.procs i).pc = .closeFree → k.isOpen = true)
  | _ => True

instance (k : State n) : (a : Action n) → Decidable (FlagAsTested k a)
  | .run _ => inferInstanceAs (Decidable (_ ∧ _))
  | .call _ _ | .dispatch _ | .yield _ => isTrue trivial

/-! ## Counting pages -/

/-- An open is no close. -/
theorem not_closed_of_opened (e : Event n) (h : e.isOpened = true) : e.isClosed = false := by
  cases e <;> first | rfl | cases h

/-- A close is no open. -/
theorem not_opened_of_closed (e : Event n) (h : e.isClosed = true) : e.isOpened = false := by
  cases e <;> first | rfl | cases h

/-- Earlier histories. -/
theorem ClaimedOnce.of_append (h : ClaimedOnce (evs ++ new)) : ClaimedOnce evs :=
  ⟨h.opens.of_append, h.closes.of_append,
    fun pre hpre => h.pages pre (hpre.trans (List.prefix_append evs new))⟩

/-- One more event, after which the counts still agree. -/
theorem PagesFreedOnce.concat (h : PagesFreedOnce evs) {e : Event n}
    (he : ∀ page, (evs ++ [e]).countP (Event.isClosedWith page) ≤
      (evs ++ [e]).countP (Event.isOpenedWith page)) : PagesFreedOnce (evs ++ [e]) := by
  intro pre hpre
  obtain rfl | hpre := List.prefix_concat_iff.mp hpre
  · exact he
  · exact h pre hpre

/-- Events other than opens and closes count for no page. -/
theorem countP_append_of_none (evs new : List (Event n))
    (hnew : ∀ e ∈ new, e.isOpened = false ∧ e.isClosed = false) (page : Nat) :
    (evs ++ new).countP (Event.isClosedWith page) = evs.countP (Event.isClosedWith page) ∧
      (evs ++ new).countP (Event.isOpenedWith page) = evs.countP (Event.isOpenedWith page) := by
  have hclosed : new.countP (Event.isClosedWith page) = 0 := List.countP_eq_zero.mpr fun e he hc => by
    have := (hnew e he).2
    cases e <;> first | cases hc | cases this
  have hopened : new.countP (Event.isOpenedWith page) = 0 := List.countP_eq_zero.mpr fun e he hc => by
    have := (hnew e he).1
    cases e <;> first | cases hc | cases this
  rw [List.countP_append, List.countP_append, hclosed, hopened]
  exact ⟨rfl, rfl⟩

/-- Events other than opens and closes. -/
theorem PagesFreedOnce.append (h : PagesFreedOnce evs)
    (hnew : ∀ e ∈ new, e.isOpened = false ∧ e.isClosed = false) : PagesFreedOnce (evs ++ new) := by
  induction new generalizing evs with
  | nil => rwa [List.append_nil]
  | cons e new ih =>
      have hcat : PagesFreedOnce (evs ++ [e]) := h.concat fun page => by
        obtain ⟨hc, ho⟩ := countP_append_of_none evs [e]
          (fun x hx => hnew x (by rw [List.mem_singleton.mp hx]; exact List.mem_cons_self)) page
        rw [hc, ho]
        exact h evs List.prefix_rfl page
      rw [← List.singleton_append, ← List.append_assoc]
      exact ih hcat fun x hx => hnew x (List.mem_cons_of_mem e hx)

/-- Events other than opens and closes keep what is expected. -/
theorem ClaimedOnce.append (h : ClaimedOnce evs)
    (hnew : ∀ e ∈ new, e.isOpened = false ∧ e.isClosed = false) : ClaimedOnce (evs ++ new) :=
  ⟨h.opens.append fun e he => (hnew e he).1, h.closes.append fun e he => (hnew e he).2,
    h.pages.append hnew⟩

/-! ## The invariant -/

/-- Process code of `sem_close` after the test of the flag and before the locked section. -/
def Pc.closing : Pc n → Bool
  | .closeAcquire | .closeFree => true
  | _ => false

/-- What holds in a run whose steps meet the condition: the flag says which of an open and a close
was last; while it is set, the page of the slot has been opened with once more than it has been freed;
and a process that passed the test of `sem_close` finds the slot open, or closed since. -/
structure Claiming (evs : List (Event n)) (k : State n) : Prop where
  once : ClaimedOnce evs
  flag : since Event.isOpened Event.isClosed evs = k.isOpen
  page : k.isOpen = true → ∃ page, k.name = some page ∧
    evs.countP (Event.isClosedWith page) < evs.countP (Event.isOpenedWith page)
  closers : ∀ j, (k.procs j).pc.closing = true →
    k.name ≠ none ∧ (k.isOpen = true ∨ since Event.isClosed Event.isOpened evs = true)

/-- The invariant holds at the start. -/
theorem Idle.claiming (h : Idle k) (hopen : k.isOpen = false) : Claiming [] k where
  once := ⟨once_nil _ _, once_nil _ _, fun pre hpre page => by rw [List.prefix_nil.mp hpre]; rfl⟩
  flag := hopen.symm
  page ho := by rw [hopen] at ho; cases ho
  closers j hj := by rw [h.user j] at hj; cases hj

/-- Only the test of an open slot leads a process to the locked section of `sem_close`. -/
theorem closing_step (hs : Step k a k' new) :
    ∀ j, (k'.procs j).pc.closing = true → (k.procs j).pc.closing = true ∨ k.isOpen = true := by
  have hsame : ∀ j, (k.procs j).pc.closing = true →
      (k.procs j).pc.closing = true ∨ k.isOpen = true := fun j => Or.inl
  cases hs with
  | enter hr hpc =>
      rename_i i c
      refine State.forall_setProc (Q := fun j p => p.pc.closing = true → _ ∨ _) hsame ?_
      cases c <;> nofun
  | yield | resumeOther =>
      exact State.forall_setProc (Q := fun j p => p.pc.closing = true → _ ∨ _) hsame (hsame _)
  | panic => exact hsame
  | move hr hm hevs =>
      rename_i i pc
      refine State.forall_setProc (Q := fun j p => p.pc.closing = true → _ ∨ _) hsame ?_
      generalize (k.procs i).pc = pc₀ at hm
      cases hm
      -- the test of `sem_close` reads the flag
      case closeOpen ho => exact fun _ => Or.inr ho
      all_goals nofun
  | acquire hr ha ho =>
      rename_i i pc
      refine State.forall_setProc (Q := fun j p => p.pc.closing = true → _ ∨ _) hsame ?_
      generalize (k.procs i).pc = pc₀ at ha
      cases ha
      case close => exact fun _ => Or.inl rfl
      all_goals nofun
  | release hr ha ho hevs =>
      rename_i i pc
      refine State.forall_setProc (Q := fun j p => p.pc.closing = true → _ ∨ _) hsame ?_
      generalize (k.procs i).pc = pc₀ at ha
      cases ha <;> nofun
  | resumeSleeper | alloc | giveBack | assign | free | add | take | lockOwn | setSleeping | switchOut
  | tidy =>
      exact State.forall_setProc (Q := fun j p => p.pc.closing = true → _ ∨ _) hsame nofun
  | closeWake hr hpc hne hl =>
      exact forall_visit (Q := fun j p => p.pc.closing = true → _ ∨ _) hsame
        (by simpa only [wake_pc] using hsame _) hr (fun he => absurd he.symm hne) (fun _ _ => nofun)
  | upWake hr hpc hne hl =>
      exact forall_visit (Q := fun j p => p.pc.closing = true → _ ∨ _) hsame
        (by simpa only [wake_pc] using hsame _) hr (fun he => absurd he.symm hne) (fun _ _ => nofun)
  | kill hr hpc hl =>
      refine forall_visit (Q := fun j p => p.pc.closing = true → _ ∨ _) hsame
        (by simpa only [markKilled_pc] using hsame _) hr ?_ (fun _ _ => nofun)
      rintro rfl
      simp only [markKilled, hr, reduceCtorEq, if_false]

/-- **A step that meets the condition preserves the invariant.** -/
theorem Claiming.step (h : Claiming evs k) (hc : FlagAsTested k a) (hs : Step k a k' new) :
    Claiming (evs ++ new) k' := by
  -- steps that emit neither an open nor a close leave the flag and the page alone
  have hrest : k'.isOpen = k.isOpen → k'.name = k.name →
      (∀ e ∈ new, e.isOpened = false ∧ e.isClosed = false) → Claiming (evs ++ new) k' := by
    intro hopen hname hnew
    have hsince : ∀ p q : Event n → Bool, (∀ e ∈ new, p e = false ∧ q e = false) →
        since p q (evs ++ new) = since p q evs := fun p q => since_append_of_none
    refine ⟨h.once.append hnew, ?_, fun ho => ?_, fun j hj => ?_⟩
    · rw [hsince _ _ hnew, h.flag, hopen]
    · obtain ⟨page, hpage, hlt⟩ := h.page (hopen ▸ ho)
      obtain ⟨hcc, hco⟩ := countP_append_of_none evs new hnew page
      exact ⟨page, hname.trans hpage, by rw [hcc, hco]; exact hlt⟩
    · rw [hname, hopen, hsince _ _ fun e he => (hnew e he).symm]
      obtain hj | hj := closing_step hs j hj
      · exact h.closers j hj
      · obtain ⟨page, hpage, -⟩ := h.page hj
        exact ⟨by rw [hpage]; nofun, Or.inl hj⟩
  cases emits hs with
  | none hopen hname => exact hrest hopen hname nofun
  | plain hopen hname he =>
      rename_i e
      refine hrest hopen hname fun x hx => ?_
      obtain rfl := List.mem_singleton.mp hx
      cases x <;> first | exact ⟨rfl, rfl⟩ | cases he
  | slept hpc hopen hname => exact hrest hopen hname (by simp [Event.isOpened, Event.isClosed])
  | killed hk hopen hname => exact hrest hopen hname (by simp [Event.isOpened, Event.isClosed])
  | opened hpc hopen hname =>
      rename_i i v page
      have hfree : k.isOpen = false := hc.1 (by rw [hpc]; rfl)
      have hle : ∀ pg, evs.countP (Event.isClosedWith pg) ≤ evs.countP (Event.isOpenedWith pg) :=
        h.once.pages evs List.prefix_rfl
      have hone : ClaimedOnce (evs ++ [.opened i page]) :=
        ⟨h.once.opens.concat fun _ => by rw [h.flag, hfree],
          h.once.closes.append (by simp [Event.isClosed]),
          h.once.pages.concat fun pg => by
            simp only [List.countP_append]
            have := hle pg
            have hz : List.countP (Event.isClosedWith pg) [Event.opened i page] = 0 := rfl
            omega⟩
      have hret : ∀ e ∈ [Event.returned i], e.isOpened = false ∧ e.isClosed = false := by
        simp [Event.isOpened, Event.isClosed]
      rw [show evs ++ [Event.opened i page, .returned i] =
        (evs ++ [.opened i page]) ++ [.returned i] by simp]
      refine ⟨hone.append hret, ?_, fun _ => ⟨page, hname, ?_⟩, fun j hj => ?_⟩
      · rw [since_append_of_none hret, since_concat, hopen]
        rfl
      · obtain ⟨hcc, hco⟩ := countP_append_of_none (evs ++ [.opened i page]) _ hret page
        rw [hcc, hco, List.countP_append, List.countP_append]
        have hz : List.countP (Event.isClosedWith page) [Event.opened i page] = 0 := rfl
        have ho : List.countP (Event.isOpenedWith page) [Event.opened i page] = 1 := by
          simp [Event.isOpenedWith]
        have := hle page
        omega
      · exact ⟨by rw [hname]; nofun, Or.inl hopen⟩
  | closed hpc hpage hopen hname =>
      rename_i i page
      have hset : k.isOpen = true := hc.2 hpc
      obtain ⟨pg, hpg, hlt⟩ := h.page hset
      obtain rfl : page = pg := Option.some.inj (hpage.symm.trans hpg)
      have hle : ∀ pg, evs.countP (Event.isClosedWith pg) ≤ evs.countP (Event.isOpenedWith pg) :=
        h.once.pages evs List.prefix_rfl
      have hnot : since Event.isClosed Event.isOpened evs = false :=
        since_exclusive not_closed_of_opened (h.flag.trans hset)
      have hone : ClaimedOnce (evs ++ [.closed i page k.sleepers]) :=
        ⟨h.once.opens.append (by simp [Event.isOpened]), h.once.closes.concat fun _ => hnot,
          h.once.pages.concat fun pg => by
            simp only [List.countP_append]
            have := hle pg
            have hz : List.countP (Event.isOpenedWith pg) [Event.closed i page k.sleepers] = 0 := rfl
            by_cases he : page = pg
            · subst he
              have ho : List.countP (Event.isClosedWith page) [Event.closed i page k.sleepers] = 1 := by
                simp [Event.isClosedWith]
              omega
            · have ho : List.countP (Event.isClosedWith pg) [Event.closed i page k.sleepers] = 0 := by
                simp [Event.isClosedWith, he]
              omega⟩
      refine ⟨hone, ?_, fun ho => ?_, fun j hj => ?_⟩
      · rw [since_concat, hopen]
        simp [Event.isOpened, Event.isClosed]
      · rw [hopen] at ho
        cases ho
      · refine ⟨by rw [hname, hpage]; nofun, Or.inr ?_⟩
        rw [since_concat]
        rfl

/-! ## Steps that break the condition -/

/-- The assignments of `sem_open` open the slot, whatever its flag is. -/
theorem assign_emits {i : Fin n} (hs : Kernel.step k (.run i) = some (k', new))
    (hpc : (k.procs i).pc.assigns = true) : ∃ page, new = [.opened i page, .returned i] := by
  simp only [Kernel.step] at hs
  split at hs
  · generalize hp : (k.procs i).pc = pc at hs hpc
    cases pc <;> cases hpc
    rename_i v page
    cases hs
    exact ⟨page, rfl⟩
  · cases hs

/-- The locked section of `sem_close` closes the slot, whatever its flag is, once it has a name. -/
theorem free_emits {i : Fin n} (hs : Kernel.step k (.run i) = some (k', new))
    (hpc : (k.procs i).pc = .closeFree) (hname : k.name ≠ none) :
    ∃ page, new = [.closed i page k.sleepers] := by
  obtain ⟨page, hpage⟩ := Option.ne_none_iff_exists'.mp hname
  simp only [Kernel.step] at hs
  split at hs
  · rw [hpc] at hs
    simp only [next, closeFree, hpage] at hs
    cases hs
    exact ⟨page, rfl⟩
  · cases hs

/-- A step after which the history is still as expected meets the condition. -/
theorem Claiming.flagAsTested (h : Claiming evs k) (hs : Kernel.step k a = some (k', new))
    (hP : ClaimedOnce (evs ++ new)) : FlagAsTested k a := by
  cases a with
  | call | dispatch | yield => trivial
  | run i =>
      refine ⟨fun hpc => ?_, fun hpc => ?_⟩
      · obtain ⟨page, rfl⟩ := assign_emits hs hpc
        have hone : Once Event.isOpened Event.isClosed (evs ++ [.opened i page]) := by
          have := hP.opens
          rw [show evs ++ [Event.opened i page, .returned i] =
            (evs ++ [.opened i page]) ++ [.returned i] by simp] at this
          exact this.of_append
        rw [← h.flag]
        exact hone.since_eq_false not_closed_of_opened rfl
      · have hclosing : (k.procs i).pc.closing = true := by rw [hpc]; rfl
        obtain ⟨hname, hflag⟩ := h.closers i hclosing
        obtain ⟨page, rfl⟩ := free_emits hs hpc hname
        refine hflag.resolve_right fun hsince => ?_
        rw [hP.closes.since_eq_false not_opened_of_closed rfl] at hsince
        cases hsince

/-! ## Runs -/

/-- **Opening and closing are claimed by one caller, exactly in the runs that find the flag as
tested.** From a closed slot with nothing in progress, a history has opens and closes alternate and
each page freed once exactly when every assignment of `sem_open` is made while the flag is 0 and every
locked section of `sem_close` is entered while it is 1. -/
theorem claimedOnce_iff {k₀ : State n} (h₀ : Idle k₀) (hclosed : k₀.isOpen = false)
    {as : List (Action n)} {evs : List (Event n)} (h : exec [] k₀ as = some (evs, k)) :
    ClaimedOnce evs ↔ Meets step (fun _ k a => FlagAsTested k a) [] k₀ as := by
  have hstep : ∀ (evs : List (Event n)) k a k' new, Claiming evs k → FlagAsTested k a →
      step k a = some (k', new) → Claiming (evs ++ new) k' :=
    fun evs k a k' new hi hc hs => hi.step hc (step_inv hs)
  constructor
  · exact meets_of_prefixClosed (C := fun _ k a => FlagAsTested k a) (P := ClaimedOnce)
      (fun _ _ => ClaimedOnce.of_append) hstep (fun _ _ _ _ _ hi hs hP => hi.flagAsTested hs hP)
      (h₀.claiming hclosed) h
  · intro hm
    exact (exec_invariant hstep (h₀.claiming hclosed) hm h).once

/-- Process 0 opens the slot, and closes it; then process 1 opens it. -/
def openCloseOpen : List (Action 2) :=
  .call proc0 (.semOpen 1) :: List.replicate 3 (.run proc0) ++ .call proc0 .semClose ::
    List.replicate 7 (.run proc0) ++ .call proc1 (.semOpen 1) :: List.replicate 3 (.run proc1)

/-- The run of `openCloseOpen` finds the flag as tested. -/
theorem claimedOnce_openCloseOpen : ∃ r, exec [] (boot 2 [4096]) openCloseOpen = some r ∧
    r.1.countP Event.isOpened = 2 ∧
    (ClaimedOnce r.1 ↔
      Meets step (fun _ k a => FlagAsTested k a) [] (boot 2 [4096]) openCloseOpen) := by
  have hrun : ∃ r, exec [] (boot 2 [4096]) openCloseOpen = some r ∧
      r.1.countP Event.isOpened = 2 := by
    decide +kernel
  obtain ⟨⟨evs, k⟩, h, hcount⟩ := hrun
  exact ⟨(evs, k), h, hcount, claimedOnce_iff (idle_boot 2 [4096]) rfl h⟩

/-- After an open and a close, process 0 and process 1 call `sem_open` and both test the flag before
either of them sets it; process 0 closes the slot in the end. -/
def bothOpen : List (Action 2) :=
  .call 0 (.semOpen 1) :: List.replicate 3 (.run 0) ++ .call 0 .semClose :: List.replicate 7 (.run 0) ++
    [.call 0 (.semOpen 1), .run 0, .run 0, .call 1 (.semOpen 1), .run 1, .run 1, .run 0, .run 1] ++
    .call 0 .semClose :: List.replicate 7 (.run 0)

/-- **Two callers open the slot between two closes.** In the run of `bothOpen` each of the two calls of
`sem_open` in between returns 1. -/
theorem not_forall_claimedOnce : ¬ ∀ (n : Nat) (k₀ k : State n) (as : List (Action n))
    (evs : List (Event n)), Idle k₀ → k₀.isOpen = false → exec [] k₀ as = some (evs, k) →
    ClaimedOnce evs := by
  intro hall
  have hrun : ∃ r, exec [] (boot 2 [4096, 8192]) bothOpen = some r ∧
      r.1 = [.opened 0 4096, .returned 0, .closed 0 4096 [], .returned 0] ++
        [.opened 0 4096, .returned 0, .opened 1 8192, .returned 1] ++
        [.closed 0 8192 [], .returned 0] := by
    decide +kernel
  obtain ⟨⟨evs, k⟩, h, hevs⟩ := hrun
  have hone := (hall 2 _ k bothOpen evs (idle_boot 2 [4096, 8192]) rfl h).opens
    [.opened 0 4096, .returned 0, .opened 1 8192, .returned 1] ⟨_, _, hevs.symm⟩ (by decide)
  exact absurd hone (by decide)

end Kernel

end OsLabs
