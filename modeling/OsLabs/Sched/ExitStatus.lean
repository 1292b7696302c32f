import OsLabs.Sched.Families

/-! # Exit statuses

`exit` leaves its status in the slot of the process, and `wait` collects it. `Delivered` relates the events of a
run to the table; `exits_delivered` reads from it that a status stays in the table until `wait` returns it,
which happens once at most, and to the process that made the child, or to `initproc` if that one has
exited. -/

namespace OsLabs

namespace Procs

open Transition

/-! ## Exit statuses -/

/-- The pid of an exit. -/
def Life.exited? : Life → Option CInt
  | .exited pid _ => some pid
  | _ => none

/-- The pid of a child whose status was collected. -/
def Life.reaped? : Life → Option CInt
  | .reaped _ child _ => some child
  | _ => none

/-- The first process made the second one, or is `initproc`, which has the pid `1`, and the process that made
the second one has exited. -/
def ParentIn (evs : List Life) (parent child : CInt) : Prop :=
  .forked parent child ∈ evs ∨ parent = 1 ∧ ∃ p status, .forked p child ∈ evs ∧ .exited p status ∈ evs

/-- The exit statuses of a history and of a table. -/
structure Delivered (evs : List Life) (s : State) (i : Slot) : Prop where
  top : (s.proc i).pid = 1
  old : ∀ pid status, .exited pid status ∈ evs → pid.toInt < s.nextpid.toInt
  made : ∀ p q, (s.proc p).state ≠ .unused → (s.proc p).parent = some q →
    ParentIn evs (s.proc q).pid (s.proc p).pid
  alive : ∀ p status, Alive s p → .exited (s.proc p).pid status ∉ evs
  zombie : ∀ p, (s.proc p).state = .zombie → .exited (s.proc p).pid (s.proc p).xstate ∈ evs
  kept : ∀ pid status, .exited pid status ∈ evs → (∃ parent, .reaped parent pid status ∈ evs) ∨
    ∃ p, (s.proc p).state = .zombie ∧ (s.proc p).pid = pid ∧ (s.proc p).xstate = status
  gone : ∀ parent pid status, .reaped parent pid status ∈ evs →
    ∀ p, (s.proc p).state ≠ .unused → (s.proc p).pid ≠ pid
  exitedOnce : (evs.filterMap Life.exited?).Nodup
  reapedOnce : (evs.filterMap Life.reaped?).Nodup
  inOrder : ∀ before after parent pid status, evs = before ++ .reaped parent pid status :: after →
    .exited pid status ∈ before ∧ ParentIn before parent pid

/-- One more event stands behind all others. -/
theorem concat_eq_append_cons {α : Type} {l before after : List α} {x y : α}
    (h : l ++ [y] = before ++ x :: after) :
    (l = before ∧ y = x) ∨ ∃ rest, l = before ++ x :: rest := by
  rcases List.eq_nil_or_concat after with rfl | ⟨rest, z, rfl⟩
  · obtain ⟨hl, hy⟩ := List.append_inj' h rfl
    exact .inl ⟨hl, (List.cons.inj hy).1⟩
  · rw [List.concat_eq_append, ← List.cons_append, ← List.append_assoc] at h
    exact .inr ⟨rest, (List.append_inj' h rfl).1⟩

section Delivered

variable {s s' : State} {i p q np : Slot} {x : Proc} {evs new : List Life} {parent child : CInt}

/-- A parent stays the parent behind another event. -/
theorem ParentIn.concat (h : ParentIn evs parent child) (e : Life) : ParentIn (evs ++ [e]) parent child := by
  rcases h with h | ⟨hone, p, status, hforked, hexited⟩
  · exact .inl (List.mem_append_left _ h)
  · exact .inr ⟨hone, p, status, List.mem_append_left _ hforked, List.mem_append_left _ hexited⟩

/-- An event of a longer history is the last one or one before it. -/
theorem mem_concat {e e' : Life} (h : e ∈ evs ++ [e']) : e ∈ evs ∨ e = e' := by
  rwa [List.mem_append, List.mem_singleton] at h

/-- An event that a list does not pick. -/
theorem filterMap_concat_none {f : Life → Option CInt} {e : Life} (he : f e = none) :
    (evs ++ [e]).filterMap f = evs.filterMap f := by
  rw [List.filterMap_append, List.filterMap_cons_none he, List.filterMap_nil, List.append_nil]

/-- A pid among the exits is that of an exit. -/
theorem mem_exited {pid : CInt} (h : pid ∈ evs.filterMap Life.exited?) : ∃ status, .exited pid status ∈ evs := by
  obtain ⟨e, he, hpid⟩ := List.mem_filterMap.mp h
  cases e with
  | exited q status =>
      cases Option.some.inj hpid
      exact ⟨status, he⟩
  | forked => cases hpid
  | reaped => cases hpid

/-- A pid among the reaped is that of a wait. -/
theorem mem_reaped {pid : CInt} (h : pid ∈ evs.filterMap Life.reaped?) :
    ∃ parent status, .reaped parent pid status ∈ evs := by
  obtain ⟨e, he, hpid⟩ := List.mem_filterMap.mp h
  cases e with
  | reaped parent q status =>
      cases Option.some.inj hpid
      exact ⟨parent, status, he⟩
  | forked => cases hpid
  | exited => cases hpid

/-- A status that was collected is that of an exit. -/
theorem Delivered.exited_of_reaped (h : Delivered evs s i) {pid status : CInt}
    (hmem : .reaped parent pid status ∈ evs) : .exited pid status ∈ evs := by
  obtain ⟨before, after, heq⟩ := List.append_of_mem hmem
  rw [heq]
  exact List.mem_append_left _ (h.inOrder before after parent pid status heq).1

/-- A history stays in order under an event that collects nothing. -/
theorem Delivered.inOrder_concat (h : Delivered evs s i) {e : Life} (he : e.reaped? = none)
    (before after : List Life) (parent pid status : CInt)
    (heq : evs ++ [e] = before ++ .reaped parent pid status :: after) :
    .exited pid status ∈ before ∧ ParentIn before parent pid := by
  obtain ⟨-, rfl⟩ | ⟨rest, hrest⟩ := concat_eq_append_cons heq
  · cases he
  · exact h.inOrder before rest parent pid status hrest

/-- The slots keep their places. -/
theorem Delivered.keep (h : Delivered evs s i) (hfam : Families s i)
    (hnext : s.nextpid.toInt ≤ s'.nextpid.toInt) (hkin : ∀ p, Proc.Kin (s.proc p) (s'.proc p)) :
    Delivered evs s' i := by
  have hold : ∀ pid status, .exited pid status ∈ evs → pid.toInt < s'.nextpid.toInt :=
    fun pid status he => lt_of_lt_of_le (h.old pid status he) hnext
  have hlive : ∀ p, (s'.proc p).state ≠ .unused → (s.proc p).state ≠ .unused :=
    fun p => mt (hkin p).unused.mpr
  have hzombie : ∀ p, (s.proc p).state = .zombie → (s.proc p).state ≠ .unused := by
    intro p hp
    simp [hp]
  refine ⟨((hkin i).pid hfam.alive.1).trans h.top, hold, fun p q hp hq => ?_, fun p status hp => ?_,
    fun p hp => ?_, fun pid status he => ?_, fun parent pid status he p hp => ?_, h.exitedOnce, h.reapedOnce,
    h.inOrder⟩
  · have hp' := hlive p hp
    have hq' := (hkin p).parent.symm.trans hq
    rw [(hkin q).pid (hfam.parent_alive hp' hq').1, (hkin p).pid hp']
    exact h.made p q hp' hq'
  · have hp' := hlive p hp.1
    rw [(hkin p).pid hp']
    exact h.alive p status ⟨hp', mt (hkin p).zombie.mpr hp.2⟩
  · have hp' := (hkin p).zombie.mp hp
    rw [(hkin p).pid (hzombie p hp'), (hkin p).xstate (hzombie p hp')]
    exact h.zombie p hp'
  · refine (h.kept pid status he).imp id ?_
    rintro ⟨p, hp, hpid, hstatus⟩
    refine ⟨p, (hkin p).zombie.mpr hp, ?_, ?_⟩
    · rw [(hkin p).pid (hzombie p hp), hpid]
    · rw [(hkin p).xstate (hzombie p hp), hstatus]
  · rw [(hkin p).pid (hlive p hp)]
    exact h.gone parent pid status he p (hlive p hp)

/-- A new child has the next pid, with which nothing happened. -/
theorem Delivered.fork (h : Delivered evs s i) (hfam : Families s i)
    (hnext : s.nextpid.toInt ≤ (s.take np x).nextpid.toInt) (hp : (s.proc p).state = .running)
    (hunused : (s.proc np).state = .unused) (hparent : x.parent = some p) (hstate : x.state = .runnable)
    (hpid : x.pid = s.nextpid) :
    Delivered (evs ++ [.forked (s.proc p).pid s.nextpid]) (s.take np x) i := by
  -- the new process is told apart from the others by its slot, and its pid is new
  have hne : ∀ q, (s.proc q).state ≠ .unused → q ≠ np := by
    rintro q hq rfl
    exact hq hunused
  have hmem : ∀ {pid status : CInt}, .exited pid status ∈ evs ++ [.forked (s.proc p).pid s.nextpid] →
      .exited pid status ∈ evs := by
    intro pid status he
    exact (mem_concat he).resolve_right (by simp)
  refine ⟨?_, fun pid status he => lt_of_lt_of_le (h.old pid status (hmem he)) hnext, fun q r hq hr => ?_,
    fun q status hq he => ?_, fun q hq => ?_, fun pid status he => ?_, fun parent pid status he q hq => ?_, ?_, ?_,
    h.inOrder_concat rfl⟩
  · rw [take_proc_ne (hne i hfam.alive.1), h.top]
  · by_cases hqn : q = np
    · subst hqn
      rw [take_proc_self, hparent] at hr
      cases hr
      rw [take_proc_self, take_proc_ne (hne p (by simp [hp])), hpid]
      exact .inl (List.mem_append_right _ (List.mem_singleton.mpr rfl))
    · rw [take_proc_ne hqn] at hq hr ⊢
      rw [take_proc_ne (hne r (hfam.parent_alive hq hr).1)]
      exact (h.made q r hq hr).concat _
  · have he' := hmem he
    by_cases hqn : q = np
    · subst hqn
      rw [take_proc_self, hpid] at he'
      exact lt_irrefl _ (h.old _ _ he')
    · rw [Alive, take_proc_ne hqn] at hq
      rw [take_proc_ne hqn] at he'
      -- in the order of the fields: alive, zombie, kept, gone, and the two that count
      exact h.alive q status hq he'
  · by_cases hqn : q = np
    · subst hqn
      rw [take_proc_self, hstate] at hq
      cases hq
    · rw [take_proc_ne hqn] at hq ⊢
      exact List.mem_append_left _ (h.zombie q hq)
  · refine (h.kept pid status (hmem he)).imp (Exists.imp fun _ => List.mem_append_left _) ?_
    rintro ⟨q, hq, hqpid, hqstatus⟩
    refine ⟨q, ?_⟩
    rw [take_proc_ne (hne q (by simp [hq]))]
    exact ⟨hq, hqpid, hqstatus⟩
  · have he' := (mem_concat he).resolve_right (by simp)
    by_cases hqn : q = np
    · subst hqn
      rw [take_proc_self, hpid]
      rintro rfl
      exact lt_irrefl _ (h.old _ _ (h.exited_of_reaped he'))
    · rw [take_proc_ne hqn] at hq ⊢
      exact h.gone parent pid status he' q hq
  · rw [filterMap_concat_none rfl]
    exact h.exitedOnce
  · rw [filterMap_concat_none rfl]
    exact h.reapedOnce

/-- The status of an exit stands in the slot, and the children have a new parent. -/
theorem Delivered.exit {status : CInt} (h : Delivered evs s i) (hfam : Families s i) (hpids : PidsOrdered s)
    (hnext : s.nextpid.toInt ≤ s'.nextpid.toInt) (hp : (s.proc p).state = .running)
    (hne : s.initproc ≠ some p) (hstate : (s'.proc p).state = .zombie)
    (hpid : (s'.proc p).pid = (s.proc p).pid) (hstatus : (s'.proc p).xstate = status)
    (hparent : ∀ q, (s'.proc q).parent =
      if (s.proc q).parent = some p then s.initproc else (s.proc q).parent)
    (hothers : ∀ q, q ≠ p → (s'.proc q).pid = (s.proc q).pid ∧ (s'.proc q).xstate = (s.proc q).xstate ∧
      ((s'.proc q).state = .unused ↔ (s.proc q).state = .unused) ∧
      ((s'.proc q).state = .zombie ↔ (s.proc q).state = .zombie)) :
    Delivered (evs ++ [.exited (s.proc p).pid status]) s' i := by
  have hpi : p ≠ i := fun heq => hne (heq ▸ hfam.initproc)
  have hplive : (s.proc p).state ≠ .unused := by simp [hp]
  have hpids' : ∀ q, (s'.proc q).pid = (s.proc q).pid := fun q => by
    by_cases hq : q = p
    · rw [hq, hpid]
    · exact (hothers q hq).1
  have hlive : ∀ q, (s'.proc q).state ≠ .unused → (s.proc q).state ≠ .unused := fun q hq => by
    by_cases hqp : q = p
    · rwa [hqp]
    · exact mt (hothers q hqp).2.2.1.mpr hq
  have hmem : ∀ {pid st : CInt}, .exited pid st ∈ evs ++ [.exited (s.proc p).pid status] →
      .exited pid st ∈ evs ∨ pid = (s.proc p).pid ∧ st = status := by
    intro pid st he
    exact (mem_concat he).imp id fun heq => Life.exited.inj heq
  refine ⟨(hpids' i).trans h.top, fun pid st he => ?_, fun q r hq hr => ?_, fun q st hq he => ?_,
    fun q hq => ?_, fun pid st he => ?_, fun parent pid st he q hq => ?_, ?_, ?_, h.inOrder_concat rfl⟩
  · rcases hmem he with he' | ⟨rfl, -⟩
    · exact lt_of_lt_of_le (h.old pid st he') hnext
    · exact lt_of_lt_of_le (hpids.lt p hplive) hnext
  · rw [hpids' r, hpids' q]
    rw [hparent q] at hr
    split_ifs at hr with hqp
    · -- the child goes to `initproc`
      have hri : r = i := Option.some.inj (hr.symm.trans hfam.initproc)
      have hfirst := hfam.first p hplive hpi
      have hmade := h.made q p (hlive q hq) hqp
      rcases hmade with hforked | ⟨hone, -⟩
      · exact .inr ⟨by rw [hri, h.top], _, status, List.mem_append_left _ hforked,
          List.mem_append_right _ (List.mem_singleton.mpr rfl)⟩
      · rw [h.top, hone] at hfirst
        exact absurd hfirst (lt_irrefl _)
    · exact (h.made q r (hlive q hq) hr).concat _
  · have hqp : q ≠ p := by
      rintro rfl
      exact hq.2 hstate
    rw [hpids' q] at he
    have hq' : Alive s q := ⟨hlive q hq.1, mt (hothers q hqp).2.2.2.mpr hq.2⟩
    rcases hmem he with he' | ⟨heq, -⟩
    · exact h.alive q st hq' he'
    · exact hqp (hpids.inj q p hq'.1 hplive heq)
  · by_cases hqp : q = p
    · rw [hqp, hpid, hstatus]
      exact List.mem_append_right _ (List.mem_singleton.mpr rfl)
    · rw [(hothers q hqp).1, (hothers q hqp).2.1]
      exact List.mem_append_left _ (h.zombie q ((hothers q hqp).2.2.2.mp hq))
  · rcases hmem he with he' | ⟨rfl, rfl⟩
    · refine (h.kept pid st he').imp (fun ⟨parent, hreaped⟩ =>
        ⟨parent, List.mem_append_left _ hreaped⟩) ?_
      rintro ⟨q, hq, hqpid, hqstatus⟩
      have hqp : q ≠ p := by
        rintro rfl
        rw [hp] at hq
        cases hq
      exact ⟨q, (hothers q hqp).2.2.2.mpr hq, (hothers q hqp).1.trans hqpid, (hothers q hqp).2.1.trans hqstatus⟩
    · exact .inr ⟨p, hstate, hpid, hstatus⟩
  · rw [hpids' q]
    exact h.gone parent pid st ((mem_concat he).resolve_right (by simp)) q (hlive q hq)
  · rw [List.filterMap_append]
    refine List.nodup_append.mpr ⟨h.exitedOnce, List.nodup_singleton _, fun a ha b hb heq => ?_⟩
    obtain rfl := List.mem_singleton.mp hb
    obtain ⟨st, hst⟩ := mem_exited ha
    rw [heq] at hst
    exact h.alive p st ⟨hplive, by simp [hp]⟩ hst
  · rw [filterMap_concat_none rfl]
    exact h.reapedOnce

/-- The status of a child is collected, and nobody else has its pid. -/
theorem Delivered.reap (h : Delivered evs s i) (hfam : Families s i) (hpids : PidsOrdered s)
    (hzombie : (s.proc p).state = .zombie) (hparent : (s.proc p).parent = some q)
    (hstate : x.state = .unused) :
    Delivered (evs ++ [.reaped (s.proc q).pid (s.proc p).pid (s.proc p).xstate]) (s.setProc p x) i := by
  have hplive : (s.proc p).state ≠ .unused := by simp [hzombie]
  -- the slot that is freed was the zombie's
  have hne : ∀ r, ((s.setProc p x).proc r).state ≠ .unused → r ≠ p := by
    rintro r hr rfl
    rw [setProc_proc_self] at hr
    exact hr hstate
  have hnp : ∀ r, Alive s r → r ≠ p := by
    rintro r hr rfl
    exact hr.2 hzombie
  have hmem : ∀ {pid st : CInt},
      .exited pid st ∈ evs ++ [.reaped (s.proc q).pid (s.proc p).pid (s.proc p).xstate] →
        .exited pid st ∈ evs := by
    intro pid st he
    exact (mem_concat he).resolve_right (by simp)
  refine ⟨?_, fun pid st he => h.old pid st (hmem he), fun r t hr ht => ?_, fun r st hr he => ?_,
    fun r hr => ?_, fun pid st he => ?_, fun parent pid st he r hr => ?_, ?_, ?_, ?_⟩
  · rw [setProc_proc_ne (hnp i hfam.alive), h.top]
  · have hrp := hne r hr
    rw [setProc_proc_ne hrp] at hr ht ⊢
    rw [setProc_proc_ne (hnp t (hfam.parent_alive hr ht))]
    exact (h.made r t hr ht).concat _
  · have hrp := hne r hr.1
    rw [Alive, setProc_proc_ne hrp] at hr
    rw [setProc_proc_ne hrp] at he
    exact h.alive r st hr (hmem he)
  · have hrp := hne r (by simp [hr])
    rw [setProc_proc_ne hrp] at hr ⊢
    exact List.mem_append_left _ (h.zombie r hr)
  -- the status that was kept is the one that is reaped now, or stays
  · rcases h.kept pid st (hmem he) with ⟨parent, hreaped⟩ | ⟨r, hr, hrpid, hrstatus⟩
    · exact .inl ⟨parent, List.mem_append_left _ hreaped⟩
    · by_cases hrp : r = p
      · subst hrp hrpid hrstatus
        exact .inl ⟨_, List.mem_append_right _ (List.mem_singleton.mpr rfl)⟩
      · refine .inr ⟨r, ?_⟩
        rw [setProc_proc_ne hrp]
        exact ⟨hr, hrpid, hrstatus⟩
  · have hrp := hne r hr
    rw [setProc_proc_ne hrp] at hr ⊢
    rcases mem_concat he with he' | heq
    · exact h.gone parent pid st he' r hr
    · rw [(Life.reaped.inj heq).2.1]
      exact fun heq' => hrp (hpids.inj r p hr hplive heq')
  · rw [filterMap_concat_none rfl]
    exact h.exitedOnce
  · rw [List.filterMap_append]
    refine List.nodup_append.mpr ⟨h.reapedOnce, List.nodup_singleton _, fun a ha b hb heq => ?_⟩
    obtain rfl := List.mem_singleton.mp hb
    -- a pid is not reaped twice: the one reaped before is gone
    obtain ⟨parent, st, hst⟩ := mem_reaped ha
    exact h.gone parent a st hst p hplive heq.symm
  · intro before after parent pid st heq
    obtain ⟨rfl, heq'⟩ | ⟨rest, hrest⟩ := concat_eq_append_cons heq
    · obtain ⟨rfl, rfl, rfl⟩ := Life.reaped.inj heq'
      exact ⟨h.zombie p hzombie, h.made p q hplive hparent⟩
    · exact h.inOrder before rest parent pid st hrest

/-- A step loses no status. -/
theorem Delivered.step (h : Delivered evs s i) (hfam : Families s i) (hpids : PidsOrdered s)
    (hnext : s.nextpid.toInt ≤ s'.nextpid.toInt) (hk : Kinship s s' new) : Delivered (evs ++ new) s' i := by
  cases hk with
  | kept hkin _ _ =>
      rw [List.append_nil]
      exact h.keep hfam hnext hkin
  | forked hp hunused hparent hstate hpid => exact h.fork hfam hnext hp hunused hparent hstate hpid
  | exited hp hne _ hstate hpid hstatus hparent hothers _ =>
      exact h.exit hfam hpids hnext hp hne hstate hpid hstatus hparent hothers
  | reaped _ hzombie hparent hstate _ => exact h.reap hfam hpids hzombie hparent hstate

end Delivered

/-! ## Runs -/

section Runs

variable {t : State} {as : List Action}

/-- What the steps of a run keep of the exit statuses. -/
theorem exec_delivered {evs : List Life}
    (hC : Meets lifeStep (fun _ s a => PidsLeft s a ∧ SleepsElsewhere a) [] boot as)
    (hrun : exec lifeStep [] boot as = some (evs, t)) : Delivered evs t 0 := by
  -- at boot `init` is there alone, and nothing has happened
  have hboot : Delivered [] boot 0 := by
    have hkept := kept_boot
    have hlive : ∀ p, (boot.proc p).state ≠ .unused → p = 0 := by
      intro p hp
      by_contra hne
      have hlt := hkept.families.first p hp hne
      have hpid := hkept.pids.lt p hp
      have hpos := hkept.pids.pos 0 hkept.families.alive.1
      have hnext : boot.nextpid.toInt = 2 := by
        rw [boot_eq]
        rfl
      omega
    have htop : (boot.proc 0).pid = 1 := by
      rw [boot_eq]
      exact congrArg Proc.pid (take_proc_self procinit 0 _)
    refine ⟨htop, fun _ _ he => (List.not_mem_nil he).elim, fun p q hp hq => ?_, fun _ _ _ => List.not_mem_nil,
      fun p hp => ?_, fun _ _ he => (List.not_mem_nil he).elim, fun _ _ _ he => (List.not_mem_nil he).elim,
      List.nodup_nil, List.nodup_nil, fun before after _ _ _ heq => ?_⟩
    · rw [hlive p hp, hkept.families.top] at hq
      cases hq
    · have h0 := hlive p (by simp [hp])
      rw [h0] at hp
      exact absurd hp hkept.families.alive.2
    · exact absurd heq (by simp)
  have hinv : Kept t 0 ∧ Delivered evs t 0 := by
    refine exec_invariant (I := fun evs s => Kept s 0 ∧ Delivered evs s 0) ?_ ⟨kept_boot, hboot⟩ hC hrun
    rintro evs s a u new ⟨hkept, hdel⟩ ha hs
    obtain ⟨⟨u', events⟩, hs', heq⟩ := Option.map_eq_some_iff.mp hs
    cases heq
    obtain ⟨hkept', hk⟩ := hkept.step ha hs'
    exact ⟨hkept', hdel.step hkept.families hkept.pids (nextpid_le_step hs' ha.1) hk⟩
  exact hinv.2

/-- **Exit statuses are delivered.** In a run that does not run out of pids and in which only `wait` sleeps on a
process, every process exits once at most and is collected once at most. What `wait` returns is a child that
has exited, with the status it exited with, and the caller made this child or is `initproc` and the process
that made it has exited. A status that was not collected stands in the slot of a zombie. -/
theorem exits_delivered {evs : List Life}
    (hC : Meets lifeStep (fun _ s a => PidsLeft s a ∧ SleepsElsewhere a) [] boot as)
    (hrun : exec lifeStep [] boot as = some (evs, t)) :
    (evs.filterMap Life.exited?).Nodup ∧ (evs.filterMap Life.reaped?).Nodup ∧
    (∀ before after parent pid status, evs = before ++ .reaped parent pid status :: after →
      .exited pid status ∈ before ∧ ParentIn before parent pid) ∧
    ∀ pid status, .exited pid status ∈ evs → (∃ parent, .reaped parent pid status ∈ evs) ∨
      ∃ p, (t.proc p).state = .zombie ∧ (t.proc p).pid = pid ∧ (t.proc p).xstate = status := by
  have hdel := exec_delivered hC hrun
  exact ⟨hdel.exitedOnce, hdel.reapedOnce, hdel.inOrder, hdel.kept⟩

/-- A child of `init` makes a child and exits, and `init` collects both. -/
def orphanRun : List Action :=
  [.visit cpu0, .fork cpu0 true true, .visit cpu1, .visit cpu1, .fork cpu1 true true, .exit cpu1 7,
    .wait cpu0 true, .visit cpu1, .exit cpu1 8, .wait cpu0 true]

/-- A child exits before its own child: both statuses are reaped by `init`, once each. -/
theorem exits_delivered_orphanRun : ∃ evs t, exec lifeStep [] boot orphanRun = some (evs, t) ∧
    evs = [.forked 1 2, .forked 2 3, .exited 2 7, .reaped 1 2 7, .exited 3 8, .reaped 1 3 8] ∧
    (evs.filterMap Life.exited?).Nodup ∧ (evs.filterMap Life.reaped?).Nodup ∧
    (∀ before after parent pid status, evs = before ++ .reaped parent pid status :: after →
      .exited pid status ∈ before ∧ ParentIn before parent pid) ∧
    ∀ pid status, .exited pid status ∈ evs → (∃ parent, .reaped parent pid status ∈ evs) ∨
      ∃ p, (t.proc p).state = .zombie ∧ (t.proc p).pid = pid ∧ (t.proc p).xstate = status := by
  have hevents : (exec lifeStep [] boot orphanRun).map Prod.fst =
      some [.forked 1 2, .forked 2 3, .exited 2 7, .reaped 1 2 7, .exited 3 8, .reaped 1 3 8] := by
    decide +kernel
  obtain ⟨⟨evs, t⟩, hrun, heq⟩ := Option.map_eq_some_iff.mp hevents
  refine ⟨evs, t, hrun, heq, exits_delivered ?_ hrun⟩
  decide +kernel

end Runs

end Procs

end OsLabs
