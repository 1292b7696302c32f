import OsLabs.Sched.ProcTable

/-! # What `pstat` prints

`pstat` reports on a process if `ch_counter` of its slot is the number of switches to its pid, and
`last_executed` the tick at which the pid last went through `sched`. `freeproc` and `allocproc` leave both
counters of a slot as they are, so a process starts with those of the processes that had the slot before:
`pstat_reports_iff` says that the reports of a run are right exactly when every `fork` takes a slot without
a past. -/

namespace OsLabs

namespace Procs

/-! ## The statistics of a history -/

/-- The pid of an event. -/
def Event.pid : Event → CInt
  | .switched pid => pid
  | .sched pid _ => pid

/-- The tick of an event, if it is a way of the process through `sched`. -/
def Event.tick? (pid : CInt) : Event → Option Nat
  | .switched _ => none
  | .sched q tick => if q = pid then some tick.toNat else none

/-- How often the scheduler switched to the process. -/
def timesSwitched (evs : List Event) (pid : CInt) : Nat := evs.count (.switched pid)

/-- The tick at which the process last went through `sched`, and `0` if it never did. -/
def lastSched (evs : List Event) (pid : CInt) : Nat := (evs.filterMap (Event.tick? pid)).getLast?.getD 0

/-- The counters of the slot are the statistics of its process. -/
def Reported (evs : List Event) (x : Proc) : Prop :=
  x.chCounter.toInt = timesSwitched evs x.pid ∧ x.lastExecuted.toInt = lastSched evs x.pid

instance (evs : List Event) (x : Proc) : Decidable (Reported evs x) := inferInstanceAs (Decidable (_ ∧ _))

/-- `pstat` prints one line for each process of the table, with its statistics. -/
def Reports (evs : List Event) (s : State) : Prop :=
  ∀ p, (s.proc p).state ≠ .unused →
    Reported evs (s.proc p) ∧
      pstat s (s.proc p).pid =
        [⟨(s.proc p).pid, (s.proc p).prio, (s.proc p).chCounter, (s.proc p).lastExecuted⟩]

section History

variable {evs : List Event} {pid q : CInt} {tick : BitVec 32}

/-- A switch to a process counts for it. -/
@[simp] theorem timesSwitched_switched (evs : List Event) (pid : CInt) :
    timesSwitched (evs ++ [.switched pid]) pid = timesSwitched evs pid + 1 := by
  simp [timesSwitched]

/-- A switch is no visit to `sched`. -/
@[simp] theorem lastSched_switched (evs : List Event) (pid q : CInt) :
    lastSched (evs ++ [.switched q]) pid = lastSched evs pid := by
  simp [lastSched, Event.tick?]

/-- A visit to `sched` is no switch. -/
@[simp] theorem timesSwitched_sched (evs : List Event) (pid q : CInt) (tick : BitVec 32) :
    timesSwitched (evs ++ [.sched q tick]) pid = timesSwitched evs pid := by
  simp [timesSwitched]

/-- The last visit to `sched` is the one at the end. -/
@[simp] theorem lastSched_sched (evs : List Event) (pid : CInt) (tick : BitVec 32) :
    lastSched (evs ++ [.sched pid tick]) pid = tick.toNat := by
  simp [lastSched, Event.tick?]

/-- Events of other processes. -/
theorem timesSwitched_ne {e : Event} (h : e.pid ≠ pid) :
    timesSwitched (evs ++ [e]) pid = timesSwitched evs pid := by
  have hne : e ≠ .switched pid := by
    rintro rfl
    exact h rfl
  simp [timesSwitched, List.count_append, hne]

/-- A visit of another process does not count. -/
theorem lastSched_ne {e : Event} (h : e.pid ≠ pid) : lastSched (evs ++ [e]) pid = lastSched evs pid := by
  have hnone : e.tick? pid = none := by
    cases e with
    | switched q => rfl
    | sched q tick => exact if_neg h
  simp [lastSched, List.filterMap_append, hnone]

/-- A pid without events. -/
theorem timesSwitched_fresh (h : ∀ e ∈ evs, e.pid ≠ pid) : timesSwitched evs pid = 0 := by
  refine List.count_eq_zero.mpr fun hmem => ?_
  exact h _ hmem rfl

/-- A process without events was never in `sched`. -/
theorem lastSched_fresh (h : ∀ e ∈ evs, e.pid ≠ pid) : lastSched evs pid = 0 := by
  have hnil : evs.filterMap (Event.tick? pid) = [] := by
    rw [List.filterMap_eq_nil_iff]
    intro e he
    cases e with
    | switched q => rfl
    | sched q tick => exact if_neg (h _ he)
  simp [lastSched, hnil]

end History

/-! ## Pids and harts -/

/-- A process on a hart runs, and only there. -/
structure OnHarts (s : State) : Prop where
  running : ∀ c p, s.myproc c = some p → (s.proc p).state = .running
  apart : ∀ c c' p, s.myproc c = some p → s.myproc c' = some p → c = c'

/-- Pids are positive and given once, also over time, and a free slot has the pid `0`. -/
structure Pids (evs : List Event) (s : State) : Prop where
  nextpid : 0 < s.nextpid.toInt
  pos : ∀ p, (s.proc p).state ≠ .unused → 0 < (s.proc p).pid.toInt
  lt : ∀ p, (s.proc p).state ≠ .unused → (s.proc p).pid.toInt < s.nextpid.toInt
  unused : ∀ p, (s.proc p).state = .unused → (s.proc p).pid = 0
  inj : ∀ p q, (s.proc p).state ≠ .unused → (s.proc q).state ≠ .unused →
    (s.proc p).pid = (s.proc q).pid → p = q
  past : ∀ e ∈ evs, e.pid.toInt < s.nextpid.toInt

section Step

variable {evs new : List Event} {s s' : State} {a : Action} {c : Fin ncpu} {p q scan : Slot} {x : Proc}

/-- Below the largest `int` the counter goes up by one. -/
theorem toInt_add_one {v : CInt} (h : v.toInt < intMax) : (v + 1).toInt = v.toInt + 1 := by
  have hle := BitVec.le_toInt (x := v)
  have hone : (1 : BitVec 32).toInt = 1 := by decide
  unfold intMax at h
  rw [BitVec.toInt_add, hone, Int.bmod_eq_of_le] <;> omega

/-- Only 0 is read as 0. -/
theorem toInt_eq_zero {v : CInt} : v.toInt = 0 ↔ v = 0 := by
  have hzero : (0 : CInt).toInt = 0 := rfl
  rw [← BitVec.toInt_inj, hzero]

/-- A value that is not negative is read as it is. -/
theorem toInt_of_nonneg {v : CInt} (h : 0 ≤ v.toInt) : v.toInt = v.toNat := by
  rw [BitVec.toInt_eq_toNat_cond] at h ⊢
  split_ifs at h ⊢
  · rfl
  · omega

namespace OnHarts

/-- Quiet steps leave the processes on their harts. -/
theorem quiet (h : OnHarts s) (hq : Quiet s s') : OnHarts s' where
  running c p hp := (hq.alike p).running.mpr (h.running c p ((hq.myproc c).symm.trans hp))
  apart c c' p hp hp' :=
    h.apart c c' p ((hq.myproc c).symm.trans hp) ((hq.myproc c').symm.trans hp')

/-- Another slot than those of the running processes changes. -/
theorem setProc (h : OnHarts s) (hp : (s.proc p).state ≠ .running) : OnHarts (s.setProc p x) where
  running c q hq := by
    have hrun := h.running c q hq
    have hne : q ≠ p := by
      rintro rfl
      exact hp hrun
    rwa [setProc_proc_ne hne]
  apart := h.apart

/-- A hart without a process gets one that was not on a hart. -/
theorem switched (h : OnHarts s) (hp : (s.proc p).state ≠ .running) (hx : x.state = .running) :
    OnHarts ((s.setProc p x).setCpu c ⟨some p, scan⟩) where
  running c' q hq := by
    rw [setCpu_proc]
    by_cases hc : c' = c
    · subst hc
      rw [setCpu_myproc_self] at hq
      cases hq
      rwa [setProc_proc_self]
    · rw [setCpu_myproc_ne hc] at hq
      exact (h.setProc hp).running c' q hq
  apart c₁ c₂ q h₁ h₂ := by
    have hother : ∀ c', s.myproc c' ≠ some p := fun c' hc' => hp (h.running c' p hc')
    by_cases hc₁ : c₁ = c <;> by_cases hc₂ : c₂ = c
    · rw [hc₁, hc₂]
    · subst hc₁
      rw [setCpu_myproc_self] at h₁
      rw [setCpu_myproc_ne hc₂] at h₂
      cases h₁
      exact absurd h₂ (hother c₂)
    · subst hc₂
      rw [setCpu_myproc_self] at h₂
      rw [setCpu_myproc_ne hc₁] at h₁
      cases h₂
      exact absurd h₁ (hother c₁)
    · rw [setCpu_myproc_ne hc₁] at h₁
      rw [setCpu_myproc_ne hc₂] at h₂
      exact h.apart c₁ c₂ q h₁ h₂

/-- The process leaves its hart. -/
theorem left (h : OnHarts s) (hp : s.myproc c = some p) : OnHarts ((s.setProc p x).setCpu c ⟨none, scan⟩) := by
  have hkeep : ∀ c' q, ((s.setProc p x).setCpu c ⟨none, scan⟩).myproc c' = some q →
      c' ≠ c ∧ s.myproc c' = some q := by
    intro c' q hq
    by_cases hc : c' = c
    · subst hc
      rw [setCpu_myproc_self] at hq
      cases hq
    · rw [setCpu_myproc_ne hc] at hq
      exact ⟨hc, hq⟩
  refine ⟨fun c' q hq => ?_, fun c₁ c₂ q h₁ h₂ => h.apart c₁ c₂ q (hkeep c₁ q h₁).2 (hkeep c₂ q h₂).2⟩
  obtain ⟨hc, hq'⟩ := hkeep c' q hq
  have hne : q ≠ p := by
    rintro rfl
    exact hc (h.apart c' c q hq' hp)
  rw [setCpu_proc, setProc_proc_ne hne]
  exact h.running c' q hq'

/-- Every step leaves running processes on the harts that run them. -/
theorem change (h : OnHarts s) (hc : Change s a s' new) : OnHarts s' := by
  cases hc with
  | quiet _ hq => exact h.quiet hq
  | switched _ _ hrunnable _ _ hstate => exact h.switched (by simp [hrunnable]) hstate
  | left _ hproc hquiet => exact (h.quiet hquiet).left ((hquiet.myproc _).trans hproc)
  | @forked p x _ hunused =>
      have hset : OnHarts (s.setProc p x) := h.setProc (by simp [hunused])
      exact ⟨hset.running, hset.apart⟩
  | @spent p x _ hunused =>
      have hset : OnHarts (s.setProc p x) := h.setProc (by simp [hunused])
      exact ⟨hset.running, hset.apart⟩
  | freed _ hzombie => exact h.setProc (by simp [hzombie])

end OnHarts

namespace Pids

/-- Slots keep their pids, and no slot is taken or freed. -/
theorem congr (h : Pids evs s) (hpid : ∀ p, (s'.proc p).pid = (s.proc p).pid)
    (hunused : ∀ p, (s'.proc p).state = .unused ↔ (s.proc p).state = .unused)
    (hnext : s'.nextpid = s.nextpid) : Pids evs s' where
  nextpid := hnext ▸ h.nextpid
  pos p hp := hpid p ▸ h.pos p (mt (hunused p).mpr hp)
  lt p hp := by
    rw [hpid p, hnext]
    exact h.lt p (mt (hunused p).mpr hp)
  unused p hp := (hpid p).trans (h.unused p ((hunused p).mp hp))
  inj p q hp hq heq := by
    rw [hpid p, hpid q] at heq
    exact h.inj p q (mt (hunused p).mpr hp) (mt (hunused q).mpr hq) heq
  past := hnext ▸ h.past

/-- An event of a process. -/
theorem concat (h : Pids evs s) {e : Event} (hp : (s.proc p).state ≠ .unused) (he : e.pid = (s.proc p).pid) :
    Pids (evs ++ [e]) s :=
  { h with
    past := by
      intro e' he'
      rw [List.mem_append, List.mem_singleton] at he'
      rcases he' with he' | rfl
      · exact h.past e' he'
      · rw [he]
        exact h.lt p hp }

/-- Setting a hart does not touch the pids. -/
theorem setCpu (h : Pids evs s) (c : Fin ncpu) (y : Cpu) : Pids evs (s.setCpu c y) :=
  ⟨h.nextpid, h.pos, h.lt, h.unused, h.inj, h.past⟩

/-- Setting a slot does not touch the pids when the process keeps its own. -/
theorem setProc (h : Pids evs s) (hpid : x.pid = (s.proc p).pid)
    (hstate : x.state = .unused ↔ (s.proc p).state = .unused) : Pids evs (s.setProc p x) := by
  refine h.congr (fun q => ?_) (fun q => ?_) rfl
  · by_cases hq : q = p
    · subst hq
      rwa [setProc_proc_self]
    · rw [setProc_proc_ne hq]
  · by_cases hq : q = p
    · subst hq
      rwa [setProc_proc_self]
    · rw [setProc_proc_ne hq]

/-- A slot is freed. -/
theorem freed (h : Pids evs s) (hpid : x.pid = 0) (hstate : x.state = .unused) :
    Pids evs (s.setProc p x) := by
  have hlive : ∀ q, ((s.setProc p x).proc q).state ≠ .unused → q ≠ p := by
    rintro q hq rfl
    rw [setProc_proc_self] at hq
    exact hq hstate
  constructor
  · exact h.nextpid
  · intro q hq
    have hne := hlive q hq
    rw [setProc_proc_ne hne] at hq ⊢
    exact h.pos q hq
  · intro q hq
    have hne := hlive q hq
    rw [setProc_proc_ne hne] at hq ⊢
    exact h.lt q hq
  · intro q hq
    by_cases hne : q = p
    · subst hne
      rwa [setProc_proc_self]
    · rw [setProc_proc_ne hne] at hq ⊢
      exact h.unused q hq
  · intro q r hq hr heq
    have hneq := hlive q hq
    have hner := hlive r hr
    rw [setProc_proc_ne hneq] at hq heq
    rw [setProc_proc_ne hner] at hr heq
    exact h.inj q r hq hr heq
  · exact h.past

/-- A pid is not given again. -/
theorem next (h : Pids evs s) (hints : s.nextpid.toInt < intMax) :
    Pids evs { s with nextpid := s.nextpid + 1 } := by
  have hnext := toInt_add_one hints
  refine ⟨?_, h.pos, fun p hp => ?_, h.unused, h.inj, fun e he => ?_⟩
  · have := h.nextpid
    show 0 < (s.nextpid + 1).toInt
    omega
  · have := h.lt p hp
    show (s.proc p).pid.toInt < (s.nextpid + 1).toInt
    omega
  · have := h.past e he
    show e.pid.toInt < (s.nextpid + 1).toInt
    omega

/-- A free slot gets the next pid. -/
theorem forked (h : Pids evs s) (hints : s.nextpid.toInt < intMax) (hpid : x.pid = s.nextpid)
    (hstate : x.state ≠ .unused) : Pids evs (s.take p x) := by
  have hnext := toInt_add_one hints
  -- a pid in use is below `nextpid`, so the new one is nobody's
  have hnew : ∀ q, q ≠ p → (s.proc q).state ≠ .unused → (s.proc q).pid ≠ x.pid := by
    intro q _ hq heq
    have := h.lt q hq
    rw [heq, hpid] at this
    exact absurd this (lt_irrefl _)
  have hbelow : (s.take p x).nextpid.toInt = s.nextpid.toInt + 1 := hnext
  constructor
  · have := h.nextpid
    omega
  · intro q hq
    by_cases hne : q = p
    · subst hne
      rw [take_proc_self, hpid]
      exact h.nextpid
    · rw [take_proc_ne hne] at hq ⊢
      exact h.pos q hq
  · intro q hq
    rw [hbelow]
    by_cases hne : q = p
    · subst hne
      rw [take_proc_self, hpid]
      omega
    · rw [take_proc_ne hne] at hq ⊢
      have := h.lt q hq
      omega
  · intro q hq
    by_cases hne : q = p
    · subst hne
      rw [take_proc_self] at hq
      exact absurd hq hstate
    · rw [take_proc_ne hne] at hq ⊢
      exact h.unused q hq
  -- of two processes with one pid, neither is the new one, or both are
  · intro q r hq hr heq
    by_cases hqp : q = p <;> by_cases hrp : r = p
    · rw [hqp, hrp]
    · subst hqp
      rw [take_proc_ne hrp] at hr heq
      rw [take_proc_self] at heq
      exact absurd heq.symm (hnew r hrp hr)
    · subst hrp
      rw [take_proc_ne hqp] at hq heq
      rw [take_proc_self] at heq
      exact absurd heq (hnew q hqp hq)
    · rw [take_proc_ne hqp] at hq heq
      rw [take_proc_ne hrp] at hr heq
      exact h.inj q r hq hr heq
  · intro e he
    have := h.past e he
    omega

/-- Every step within the range of `int` keeps the pids in order. -/
theorem change (h : Pids evs s) (hharts : OnHarts s) (hints : WithinInts s a) (hc : Change s a s' new) :
    Pids (evs ++ new) s' := by
  cases hc with
  | quiet _ hq =>
      rw [List.append_nil]
      exact h.congr (fun p => (hq.alike p).pid) (fun p => (hq.alike p).unused) hq.nextpid
  | @switched c p x scan _ _ hrunnable _ hpid hstate =>
      have hlive : (s.proc p).state ≠ .unused := by simp [hrunnable]
      refine Pids.setCpu (Pids.setProc (h.concat hlive rfl) hpid ?_) c _
      simp [hstate, hrunnable]
  | @left c p x scan s₁ _ hproc hquiet _ hpid hstate =>
      have hrunning := hharts.running c p hproc
      have hlive : (s.proc p).state ≠ .unused := by simp [hrunning]
      have h₁ : Pids (evs ++ [.sched (s.proc p).pid s.ticks]) s₁ :=
        (h.concat hlive rfl).congr (fun p => (hquiet.alike p).pid) (fun p => (hquiet.alike p).unused)
          hquiet.nextpid
      refine Pids.setCpu (h₁.setProc (hpid.trans (hquiet.alike p).pid.symm) ?_) c _
      rw [(hquiet.alike p).unused]
      simp [hstate.1, hlive]
  | forked _ hunused hlt hpid hstate =>
      rw [List.append_nil]
      exact h.forked (hlt hints) hpid (by simp [hstate])
  | spent _ hunused hlt hpid hstate =>
      rw [List.append_nil]
      exact Pids.next (h.freed hpid hstate) (hlt hints)
  | freed _ hzombie hpid hstate =>
      rw [List.append_nil]
      exact h.freed hpid hstate

/-- `pstat` prints the line of the process. -/
theorem pstat_eq (h : Pids evs s) (hp : (s.proc p).state ≠ .unused) :
    pstat s (s.proc p).pid =
      [⟨(s.proc p).pid, (s.proc p).prio, (s.proc p).chCounter, (s.proc p).lastExecuted⟩] := by
  have hsame : ∀ q, (s.proc q).pid = (s.proc p).pid ↔ q = p := by
    intro q
    refine ⟨fun hpid => ?_, ?_⟩
    · -- a free slot has the pid `0`, which no process has
      by_cases hq : (s.proc q).state = .unused
      · have hpos := h.pos p hp
        rw [← hpid, h.unused q hq] at hpos
        exact absurd hpos (by decide)
      · exact h.inj q p hq hp hpid
    · rintro rfl
      rfl
  have hfilter : ((List.finRange nproc).filter fun q => (s.proc q).pid = (s.proc p).pid) = [p] := by
    have hnodup := (List.nodup_finRange nproc).filter fun q => (s.proc q).pid = (s.proc p).pid
    refine List.perm_singleton.mp ((List.perm_ext_iff_of_nodup hnodup (List.nodup_singleton p)).mpr ?_)
    intro q
    simp [hsame]
  unfold pstat
  rw [hfilter]
  rfl

end Pids

/-! ## The counters of a step -/

/-- The counters of every process are its statistics. -/
def Counted (evs : List Event) (s : State) : Prop :=
  ∀ p, (s.proc p).state ≠ .unused → Reported evs (s.proc p)

/-- `pstat` reports the history just if the counters count it. -/
theorem reports_iff (h : Pids evs s) : Reports evs s ↔ Counted evs s :=
  ⟨fun hr p hp => (hr p hp).1, fun hc p hp => ⟨hc p hp, h.pstat_eq hp⟩⟩

/-- The slot of the step had no process before. -/
def FreshSlot (s : State) (a : Action) : Prop :=
  ∀ p ∈ forkedSlot s a, (s.proc p).chCounter = 0 ∧ (s.proc p).lastExecuted = 0

instance (s : State) (a : Action) : Decidable (FreshSlot s a) :=
  inferInstanceAs (Decidable (∀ p ∈ forkedSlot s a, _))

/-- A step that forks nothing takes no slot. -/
theorem freshSlot_of_none (h : forkedSlot s a = none) : FreshSlot s a := by
  intro p hp
  rw [h] at hp
  cases hp

namespace Counted

/-- Slots keep their pids and counters, and no slot is taken or freed. -/
theorem congr (h : Counted evs s) (halike : ∀ p, Proc.Alike (s.proc p) (s'.proc p)) : Counted evs s' := by
  intro p hp
  have hcount := h p (mt (halike p).unused.mpr hp)
  unfold Reported at hcount ⊢
  rw [(halike p).pid, (halike p).chCounter, (halike p).lastExecuted]
  exact hcount

/-- One slot changes, with an event of its process. -/
theorem setProc (h : Counted evs s) (hpids : Pids evs s) {e : Event} (hp : (s.proc p).state ≠ .unused)
    (he : e.pid = (s.proc p).pid) (hx : Reported (evs ++ [e]) x) : Counted (evs ++ [e]) (s.setProc p x) := by
  intro q hq
  by_cases hne : q = p
  · subst hne
    rwa [setProc_proc_self]
  · rw [setProc_proc_ne hne] at hq ⊢
    have hother : e.pid ≠ (s.proc q).pid := by
      intro heq
      exact hne (hpids.inj q p hq hp (heq.symm.trans he))
    obtain ⟨hcount, hlast⟩ := h q hq
    exact ⟨by rw [timesSwitched_ne hother, hcount], by rw [lastSched_ne hother, hlast]⟩

/-- A slot is freed. -/
theorem freed (h : Counted evs s) (hstate : x.state = .unused) : Counted evs (s.setProc p x) := by
  intro q hq
  by_cases hne : q = p
  · subst hne
    rw [setProc_proc_self] at hq
    exact absurd hstate hq
  · rw [setProc_proc_ne hne] at hq ⊢
    exact h q hq

/-- A new process has no events, so its counters have to be zero. -/
theorem take_iff (h : Counted evs s) (hpids : Pids evs s) (hpid : x.pid = s.nextpid)
    (hstate : x.state ≠ .unused) :
    Counted evs (s.take p x) ↔ x.chCounter = 0 ∧ x.lastExecuted = 0 := by
  have hnone : ∀ e ∈ evs, e.pid ≠ x.pid := by
    intro e he heq
    have := hpids.past e he
    rw [heq, hpid] at this
    exact lt_irrefl _ this
  have hx : Reported evs x ↔ x.chCounter = 0 ∧ x.lastExecuted = 0 := by
    unfold Reported
    rw [timesSwitched_fresh hnone, lastSched_fresh hnone, Nat.cast_zero]
    exact and_congr toInt_eq_zero toInt_eq_zero
  rw [← hx]
  constructor
  · intro hc
    have := hc p
    rw [take_proc_self] at this
    exact this hstate
  · intro hrep q hq
    by_cases hne : q = p
    · subst hne
      rwa [take_proc_self]
    · rw [take_proc_ne hne] at hq ⊢
      exact h q hq

end Counted

/-- A step within the range of `int` keeps the counters right just when it takes no slot with a past. -/
theorem counted_step_iff (hpids : Pids evs s) (hharts : OnHarts s) (hints : WithinInts s a)
    (h : Counted evs s) (hc : Change s a s' new) : Counted (evs ++ new) s' ↔ FreshSlot s a := by
  cases hc with
  | quiet hfork hq =>
      rw [List.append_nil]
      exact iff_of_true (h.congr hq.alike) (freshSlot_of_none hfork)
  -- a switch is counted, and the tick of the last `sched` stays
  | @switched c p x scan hfork _ hrunnable hlt hpid hstate hcount hlast =>
      refine iff_of_true ?_ (freshSlot_of_none hfork)
      have hlive : (s.proc p).state ≠ .unused := by simp [hrunnable]
      obtain ⟨hcount', hlast'⟩ := h p hlive
      have hx : Reported (evs ++ [.switched (s.proc p).pid]) x := by
        refine ⟨?_, ?_⟩
        · rw [hcount, hpid, timesSwitched_switched, toInt_add_one (hlt hints), hcount']
          rfl
        · rw [hlast, hpid, lastSched_switched, hlast']
      exact h.setProc hpids hlive rfl hx
  -- `sched` stamps the tick and is no switch
  | @left c p x scan s₁ hfork hproc hquiet hticks hpid hstate hcount hlast =>
      refine iff_of_true ?_ (freshSlot_of_none hfork)
      have hrunning := hharts.running c p hproc
      have hlive : (s.proc p).state ≠ .unused := by simp [hrunning]
      obtain ⟨hcount', -⟩ := h p hlive
      have hx : Reported (evs ++ [.sched (s.proc p).pid s.ticks]) x := by
        refine ⟨?_, ?_⟩
        · rw [hcount, hpid, timesSwitched_sched, hcount']
        · rw [hlast, hpid, lastSched_sched]
          exact toInt_of_nonneg (hticks hints)
      have hlive₁ : (s₁.proc p).state ≠ .unused := mt (hquiet.alike p).unused.mp hlive
      have hpids₁ : Pids evs s₁ :=
        hpids.congr (fun p => (hquiet.alike p).pid) (fun p => (hquiet.alike p).unused) hquiet.nextpid
      exact (h.congr hquiet.alike).setProc hpids₁ hlive₁ (hquiet.alike p).pid.symm hx
  -- a slot that is taken keeps the counters of the process before it
  | @forked p x hfork hunused _ hpid hstate hcount hlast =>
      rw [List.append_nil, h.take_iff hpids hpid (by simp [hstate]), hcount, hlast]
      unfold FreshSlot
      rw [hfork]
      simp
  | @spent p x hfork _ _ _ hstate =>
      rw [List.append_nil]
      exact iff_of_true (h.freed (p := p) hstate) (freshSlot_of_none hfork)
  | freed hfork _ _ hstate =>
      rw [List.append_nil]
      exact iff_of_true (h.freed hstate) (freshSlot_of_none hfork)

end Step

/-! ## Runs -/

/-- The state at boot: `init` in slot 0, runnable. -/
theorem boot_eq : boot = { procinit.take 0 { procinit.proc 0 with pid := 1, state := .runnable } with
    initproc := some 0 } := by
  have hfirst : firstUnused procinit = some 0 := rfl
  have hset : ∀ x y : Proc, (procinit.take 0 x).setProc 0 y = procinit.take 0 y := setProc_take procinit 0
  unfold boot userinit allocproc
  rw [hfirst]
  simp only [if_true, hset, take_proc_self]
  rfl

/-- The pids at boot are in order. -/
theorem pids_boot : Pids [] boot := by
  have hinit : Pids [] procinit := by
    refine ⟨by decide, fun p hp => absurd rfl hp, fun p hp => absurd rfl hp, fun _ _ => rfl,
      fun p _ hp => absurd rfl hp, ?_⟩
    intro e he
    cases he
  have htake : Pids [] (procinit.take 0 { procinit.proc 0 with pid := 1, state := .runnable }) :=
    hinit.forked (by decide) rfl (by simp)
  rw [boot_eq]
  exact ⟨htake.nextpid, htake.pos, htake.lt, htake.unused, htake.inj, htake.past⟩

/-- At boot no hart runs a process. -/
theorem onHarts_boot : OnHarts boot := by
  have hnone : ∀ c p, boot.myproc c ≠ some p := by
    intro c p hp
    rw [boot_eq] at hp
    cases hp
  exact ⟨fun c p hp => absurd hp (hnone c p), fun c c' p hp => absurd hp (hnone c p)⟩

/-- At boot nothing has happened, and the counters are zero. -/
theorem counted_boot : Counted [] boot := by
  rw [boot_eq]
  intro p _
  by_cases hp : p = 0
  · subst hp
    exact ⟨rfl, rfl⟩
  · show Reported [] ((procinit.take 0 _).proc p)
    rw [take_proc_ne hp]
    exact ⟨rfl, rfl⟩

/-- `pstat` reports the statistics of the processes in every state of a run whose steps stay within the
range of `int` and take no slot with a past. In a run within that range these slots are the only mistake:
a process that gets one is reported with the counters of its predecessors. -/
theorem pstat_reports_iff {as : List Action} {evs : List Event} {s : State}
    (h : Transition.exec step [] boot as = some (evs, s)) :
    (Transition.Meets step (fun _ s a => WithinInts s a ∧ FreshSlot s a) [] boot as →
      Transition.Throughout step Reports [] boot as) ∧
    (Transition.Meets step (fun _ s a => WithinInts s a) [] boot as →
      Transition.Throughout step Reports [] boot as →
      Transition.Meets step (fun _ s a => FreshSlot s a) [] boot as) := by
  have hiff : Transition.Meets step (fun _ s a => WithinInts s a) [] boot as →
      (Transition.Throughout step Reports [] boot as ↔
        Transition.Meets step (fun _ s a => FreshSlot s a) [] boot as) := by
    intro hints
    refine Transition.throughout_iff_meets (I := fun evs s => Pids evs s ∧ OnHarts s)
      (N := fun _ s a => WithinInts s a) ?_ ?_ ⟨pids_boot, onHarts_boot⟩
      ((reports_iff pids_boot).mpr counted_boot) hints h
    · intro evs s a t new hI hN _ hs
      have hc := step_change hs
      exact ⟨hI.1.change hI.2 hN hc, hI.2.change hc⟩
    · intro evs s a t new hI hN hP hs
      have hc := step_change hs
      rw [reports_iff (hI.1.change hI.2 hN hc)]
      exact counted_step_iff hI.1 hI.2 hN ((reports_iff hI.1).mp hP) hc
  constructor
  · intro hgood
    exact (hiff (hgood.mono fun _ _ _ hc => hc.1)).mpr (hgood.mono fun _ _ _ hc => hc.2)
  · intro hints hreports
    exact (hiff hints).mp hreports

/-- A child of `init` runs on another hart, exits, and is waited for. -/
def childRun : List Action :=
  [.visit 0, .fork 0 true true, .visit 1, .visit 1, .exit 1 0, .wait 0 true]

/-- A run that takes the slot of no dead process reports right throughout. -/
theorem pstat_reports_iff_childRun : Transition.Throughout step Reports [] boot childRun := by
  have hsome : (Transition.exec step [] boot childRun).isSome = true := by decide +kernel
  obtain ⟨r, hrun⟩ := Option.isSome_iff_exists.mp hsome
  refine (pstat_reports_iff hrun).1 ?_
  decide +kernel

/-- The next child gets the slot, and is reported as chosen once before it ever ran. -/
theorem not_forall_reports :
    ¬ ∀ (as : List Action) (evs : List Event) (s : State),
      Transition.exec step [] boot as = some (evs, s) → Reports evs s := by
  intro h
  have hsome : (Transition.exec step [] boot (childRun ++ [.fork 0 true true])).isSome = true := by
    decide +kernel
  have hbad : ∀ r ∈ Transition.exec step [] boot (childRun ++ [.fork 0 true true]),
      (r.2.proc 1).state ≠ .unused ∧ ¬ Reported r.1 (r.2.proc 1) := by
    decide +kernel
  obtain ⟨r, hrun⟩ := Option.isSome_iff_exists.mp hsome
  obtain ⟨hlive, hnot⟩ := hbad r hrun
  exact hnot (h _ r.1 r.2 hrun 1 hlive).1

end Procs

end OsLabs
