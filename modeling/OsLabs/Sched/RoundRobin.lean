import OsLabs.Sched.Statistics

/-! # Waiting for a hart

The scheduler of each hart looks at the slots in a circle, and a process that leaves a hart sends it on behind
its own slot. While a process is `RUNNABLE`, a hart does not come past its slot, so it looks at every other
slot once at most (`runnable_overtaken_once`): in fewer than `NPROC` rounds of its loop the process runs, on
this hart or on another one. -/

namespace OsLabs

namespace Procs

open Transition

/-! ## Rounds -/

/-- A round of the loop of `scheduler`: the hart, and the slot it looks at. -/
structure Round where
  cpu : Fin ncpu
  slot : Slot
  deriving DecidableEq, Repr

/-- The rounds of an action. -/
def rounds (s : State) : Action → List Round
  | .visit c => [⟨c, (s.cpus c).scan⟩]
  | _ => []

/-- A step of the kernel, with the rounds of the schedulers. -/
def roundStep (s : State) (a : Action) : Option (State × List Round) :=
  (step s a).map fun r => (r.1, rounds s a)

/-- How many slots a scheduler at the slot `q` looks at before the slot `p`. -/
def ahead (p q : Slot) : Nat := (p - q).val

/-- The scheduler of the hart is past the slot `q` on its way to the slot `p`. -/
def Cpu.Past (x : Cpu) (p q : Slot) : Prop :=
  match x.proc with
  | none => ahead p x.scan < ahead p q
  | some r => ahead p r ≤ ahead p q

/-- What a step can do to the places of the schedulers. -/
inductive Turn (s : State) : State → List Round → Prop
  | stays {s' : State} (hcpus : s'.cpus = s.cpus) : Turn s s' []
  /-- The process on the hart goes through `sched`. -/
  | leaves {c : Fin ncpu} {p : Slot} {s' : State} (hproc : s.myproc c = some p)
      (hcpus : s'.cpus = Function.update s.cpus c ⟨none, p + 1⟩) : Turn s s' []
  /-- The slot is passed over. -/
  | passes {c : Fin ncpu} {s' : State} (hproc : s.myproc c = none)
      (hstate : (s.proc (s.cpus c).scan).state ≠ .runnable)
      (hcpus : s'.cpus = Function.update s.cpus c ⟨none, (s.cpus c).scan + 1⟩) :
      Turn s s' [⟨c, (s.cpus c).scan⟩]
  /-- The process in the slot is switched to. -/
  | switches {c : Fin ncpu} {s' : State} (hproc : s.myproc c = none)
      (hstate : (s'.proc (s.cpus c).scan).state = .running)
      (hcpus : s'.cpus = Function.update s.cpus c ⟨some (s.cpus c).scan, (s.cpus c).scan⟩) :
      Turn s s' [⟨c, (s.cpus c).scan⟩]

/-! ## What a step does -/

section Step

variable {s s' : State} {a : Action} {c : Fin ncpu} {p q r : Slot} {x : Cpu} {new : List Event}

/-- `sched` ends the turn of the process. -/
theorem turn_sched {y : Proc} (hcpus : s'.cpus = s.cpus) (hproc : s.myproc c = some p) :
    Turn s (sched (s'.setProc p y) c p).1 [] := by
  refine .leaves hproc ?_
  unfold sched
  rw [State.setCpu]
  exact congrArg (fun f => Function.update f c ⟨none, p + 1⟩) hcpus

/-- `reparent` moves no scheduler. -/
theorem cpus_reparent (s : State) (c : Fin ncpu) (p : Slot) : (reparent s c p).cpus = s.cpus := by
  unfold reparent
  generalize List.finRange nproc = slots
  induction slots generalizing s with
  | nil => rfl
  | cons pp slots ih =>
      rw [List.foldl_cons, ih]
      split_ifs <;> rfl

/-- `fork` moves no scheduler. -/
theorem cpus_fork {memory copied : Bool} : (fork s p memory copied).cpus = s.cpus := by
  unfold fork allocproc
  cases firstUnused s with
  | none => rfl
  | some np => cases memory <;> cases copied <;> rfl

/-- Every step is one of these. -/
theorem step_turn (h : step s a = some (s', new)) : Turn s s' (rounds s a) := by
  cases a with
  -- a visit looks at one slot, and the scan goes on behind it either way
  | visit c =>
      rw [step] at h
      split_ifs at h with hidle
      have hvisit : Turn s (visit s c).1 [⟨c, (s.cpus c).scan⟩] := by
        unfold visit
        dsimp only
        split_ifs with hrun
        · refine .switches hidle ?_ rfl
          rw [setCpu_proc, setProc_proc_self]
        · exact .passes hidle hrun rfl
      rw [Option.some.inj h] at hvisit
      exact hvisit
  | yield c =>
      obtain ⟨p, hproc, heq⟩ := Option.map_eq_some_iff.mp h
      cases heq
      exact turn_sched rfl hproc
  | sleep c chan =>
      obtain ⟨p, hproc, heq⟩ := Option.map_eq_some_iff.mp h
      cases heq
      exact turn_sched rfl hproc
  | wakeup c chan =>
      cases h
      exact .stays rfl
  | kill c pid =>
      obtain ⟨p, -, heq⟩ := Option.map_eq_some_iff.mp h
      cases heq
      refine .stays ?_
      unfold kill
      split <;> rfl
  | fork c memory copied =>
      obtain ⟨p, -, heq⟩ := Option.map_eq_some_iff.mp h
      cases heq
      exact .stays cpus_fork
  -- the wakeups of `exit` come before `sched` and move no scheduler
  | exit c status =>
      obtain ⟨p, hproc, heq⟩ := Option.bind_eq_some_iff.mp h
      unfold exit at heq
      split_ifs at heq
      have hcpus := cpus_reparent s c p
      generalize reparent s c p = s₁ at heq hcpus
      have hturn : Turn s (sched ((wakeup s₁ c ((s₁.proc p).parent.map .proc)).setProc p
          { (wakeup s₁ c ((s₁.proc p).parent.map .proc)).proc p with xstate := status, state := .zombie }) c p).1 [] :=
        turn_sched hcpus hproc
      rw [Option.some.inj heq] at hturn
      exact hturn
  | wait c copyout =>
      obtain ⟨p, hproc, heq⟩ := Option.map_eq_some_iff.mp h
      have hwait : Turn s (wait s c p copyout).1 [] := by
        unfold wait
        dsimp only
        split
        · split_ifs <;> exact .stays rfl
        · split_ifs
          · exact .stays rfl
          · exact turn_sched rfl hproc
      rw [heq] at hwait
      exact hwait
  | clockintr c =>
      cases h
      exact .stays rfl

/-- Another slot is some visits ahead. -/
theorem ahead_pos (h : q ≠ p) : 0 < ahead p q := by
  unfold ahead
  rw [Nat.pos_iff_ne_zero]
  intro hzero
  have hdiff : p - q = 0 := Fin.ext hzero
  exact h (sub_eq_zero.mp hdiff).symm

/-- Behind a slot it is one slot less. -/
theorem ahead_succ (h : q ≠ p) : ahead p (q + 1) < ahead p q := by
  have hpos := ahead_pos h
  unfold ahead at hpos ⊢
  simp only [nproc, Fin.sub_def, Fin.add_def, Fin.val_one'] at hpos ⊢
  have hp : p.val < 64 := p.isLt
  have hq : q.val < 64 := q.isLt
  omega

end Step

/-! ## Waiting -/

section Waiting

variable {s s' t : State} {c : Fin ncpu} {p q : Slot} {x : Cpu} {evs new : List Round}

/-- The schedulers are past all slots they have looked at on their way to the slot `p`. -/
structure OnTheWay (p : Slot) (evs : List Round) (s : State) : Prop where
  nodup : evs.Nodup
  ne : ∀ e ∈ evs, e.slot ≠ p
  past : ∀ e ∈ evs, (s.cpus e.cpu).Past p e.slot

/-- A hart goes on to a slot that is not farther. -/
theorem OnTheWay.moves (h : OnTheWay p evs s) (hcpus : s'.cpus = Function.update s.cpus c x)
    (hx : ∀ q, q ≠ p → (s.cpus c).Past p q → x.Past p q) : OnTheWay p evs s' where
  nodup := h.nodup
  ne := h.ne
  past e he := by
    rw [hcpus]
    by_cases hc : e.cpu = c
    · rw [hc, Function.update_self]
      exact hx e.slot (h.ne e he) (hc ▸ h.past e he)
    · rw [Function.update_of_ne hc]
      exact h.past e he

/-- A hart looks at the slot where it stands. -/
theorem OnTheWay.looks (h : OnTheWay p evs s) (hproc : s.myproc c = none) (hne : (s.cpus c).scan ≠ p)
    (hcpus : s'.cpus = Function.update s.cpus c x) (hx : x.Past p (s.cpus c).scan)
    (hall : ∀ q, ahead p (s.cpus c).scan < ahead p q → x.Past p q) :
    OnTheWay p (evs ++ [⟨c, (s.cpus c).scan⟩]) s' := by
  have hidle {q : Slot} (hq : (s.cpus c).Past p q) : ahead p (s.cpus c).scan < ahead p q := by
    unfold Cpu.Past at hq
    rw [State.myproc] at hproc
    rwa [hproc] at hq
  have hmoves : OnTheWay p evs s' := h.moves hcpus fun q _ hq => hall q (hidle hq)
  refine ⟨?_, fun e he => ?_, fun e he => ?_⟩
  · refine List.nodup_append.mpr ⟨h.nodup, List.nodup_singleton _, fun e he e' he' heq => ?_⟩
    obtain rfl := List.mem_singleton.mp he'
    -- the hart would be past the slot where it stands
    have hpast := h.past e he
    rw [heq] at hpast
    exact lt_irrefl _ (hidle hpast)
  · rcases List.mem_append.mp he with he | he
    · exact h.ne e he
    · rwa [List.mem_singleton.mp he]
  · rcases List.mem_append.mp he with he | he
    · exact hmoves.past e he
    · rw [List.mem_singleton.mp he, hcpus, Function.update_self]
      exact hx

/-- A step that leaves the process `RUNNABLE` passes no slot twice. -/
theorem OnTheWay.step (h : OnTheWay p evs s) (hharts : OnHarts s) (hp : (s.proc p).state = .runnable)
    (hp' : (s'.proc p).state = .runnable) (hturn : Turn s s' new) : OnTheWay p (evs ++ new) s' := by
  cases hturn with
  | stays hcpus =>
      rw [List.append_nil]
      exact ⟨h.nodup, h.ne, fun e he => by rw [hcpus]; exact h.past e he⟩
  | @leaves c r s' hproc hcpus =>
      rw [List.append_nil]
      have hrp : r ≠ p := by
        rintro rfl
        rw [hharts.running c r hproc] at hp
        cases hp
      refine h.moves hcpus fun q _ hq => ?_
      unfold Cpu.Past at hq
      rw [State.myproc] at hproc
      rw [hproc] at hq
      exact lt_of_lt_of_le (ahead_succ hrp) hq
  | @passes c s' hproc hstate hcpus =>
      have hne : (s.cpus c).scan ≠ p := by
        rintro rfl
        exact hstate hp
      exact h.looks hproc hne hcpus (ahead_succ hne) fun q hq => lt_trans (ahead_succ hne) hq
  | @switches c s' hproc hstate hcpus =>
      have hne : (s.cpus c).scan ≠ p := by
        rintro rfl
        rw [hp'] at hstate
        cases hstate
      exact h.looks hproc hne hcpus (le_refl _) fun q hq => le_of_lt hq

/-- Rounds at different slots of one hart are fewer than the slots. -/
theorem length_rounds_lt (hnodup : evs.Nodup) (hne : ∀ e ∈ evs, e.slot ≠ p) (c : Fin ncpu) :
    (evs.filter fun e => e.cpu = c).length < nproc := by
  have hslots : ((evs.filter fun e => e.cpu = c).map Round.slot).Nodup := by
    refine List.Nodup.map_on ?_ (hnodup.filter _)
    intro e he e' he' heq
    have hc : e.cpu = c := by simpa using (List.mem_filter.mp he).2
    have hc' : e'.cpu = c := by simpa using (List.mem_filter.mp he').2
    calc e = ⟨e.cpu, e.slot⟩ := rfl
      _ = ⟨e'.cpu, e'.slot⟩ := by rw [hc, hc', heq]
      _ = e' := rfl
  have hp : p ∉ (evs.filter fun e => e.cpu = c).map Round.slot := by
    intro hmem
    obtain ⟨e, he, heq⟩ := List.mem_map.mp hmem
    exact hne e (List.mem_filter.mp he).1 heq
  have hlen := (List.nodup_cons.mpr ⟨hp, hslots⟩).length_le_card
  rw [List.length_cons, List.length_map, Fintype.card_fin] at hlen
  exact hlen

/-- **Bounded waiting.** In every run of the kernel, while a process is `RUNNABLE`, a hart looks at no slot
twice and never at that of the process, so its scheduler makes fewer than `NPROC` rounds. -/
theorem runnable_overtaken_once {as₀ as : List Action} {evs₀ : List Round}
    (hrun₀ : exec roundStep [] boot as₀ = some (evs₀, s)) (hrun : exec roundStep evs₀ s as = some (evs, t))
    (hwaits : Always roundStep (fun s => (s.proc p).state = .runnable) s as) :
    ∃ new, evs = evs₀ ++ new ∧ new.Nodup ∧ (∀ e ∈ new, e.slot ≠ p) ∧
      ∀ c, (new.filter fun e => e.cpu = c).length < nproc := by
  have hharts : OnHarts s := by
    refine exec_invariant (C := fun _ _ _ => True) (I := fun _ s => OnHarts s) ?_ onHarts_boot
      (meets_of_forall_mem fun _ _ => trivial) hrun₀
    intro evs s a u new hI _ hs
    obtain ⟨⟨u', events⟩, hs', heq⟩ := Option.map_eq_some_iff.mp hs
    cases heq
    exact hI.change (step_change hs')
  suffices hway : ∀ {new₀ : List Round} {s : State} {as : List Action}, OnTheWay p new₀ s → OnHarts s →
      Always roundStep (fun s => (s.proc p).state = .runnable) s as →
      exec roundStep (evs₀ ++ new₀) s as = some (evs, t) → ∃ new, evs = evs₀ ++ new ∧ OnTheWay p new t by
    have hstart : OnTheWay p [] s :=
      ⟨List.nodup_nil, fun _ he => (List.not_mem_nil he).elim, fun _ he => (List.not_mem_nil he).elim⟩
    obtain ⟨new, heq, hnew⟩ := hway hstart hharts hwaits (by rwa [List.append_nil])
    exact ⟨new, heq, hnew.nodup, hnew.ne, length_rounds_lt hnew.nodup hnew.ne⟩
  intro new₀ s as
  induction as generalizing new₀ s with
  | nil =>
      intro hnew _ _ hrun
      obtain ⟨rfl, rfl⟩ : evs₀ ++ new₀ = evs ∧ s = t := by simpa using hrun
      exact ⟨new₀, rfl, hnew⟩
  | cons a as ih =>
      intro hnew hharts hwaits hrun
      obtain ⟨u, new, hs, hrest⟩ := exec_cons_eq_some.mp hrun
      have htail := hwaits.tail hs
      obtain ⟨⟨u', events⟩, hs', heq⟩ := Option.map_eq_some_iff.mp hs
      cases heq
      rw [List.append_assoc] at hrest
      exact ih (hnew.step hharts hwaits.head htail.head (step_turn hs')) (hharts.change (step_change hs')) htail hrest

/-- The first child of `init` waits while another hart looks at the slot of `init`, which yields. -/
theorem runnable_overtaken_once_firstChild : ∃ evs₀ s evs t,
    exec roundStep [] boot [.visit 0, .fork 0 true true] = some (evs₀, s) ∧
    exec roundStep evs₀ s [.visit 1, .yield 0, .clockintr 1] = some (evs, t) ∧
    ∃ new, evs = evs₀ ++ new ∧ new.Nodup ∧ (∀ e ∈ new, e.slot ≠ 1) ∧
      ∀ c, (new.filter fun e => e.cpu = c).length < nproc := by
  have hsome₀ : (exec roundStep [] boot [.visit 0, .fork 0 true true]).isSome = true := by decide +kernel
  have hafter : ∀ r ∈ exec roundStep [] boot [.visit 0, .fork 0 true true],
      (exec roundStep r.1 r.2 [.visit 1, .yield 0, .clockintr 1]).isSome = true ∧
        Always roundStep (fun s => (s.proc 1).state = .runnable) r.2 [.visit 1, .yield 0, .clockintr 1] := by
    decide +kernel
  obtain ⟨⟨evs₀, s⟩, hrun₀⟩ := Option.isSome_iff_exists.mp hsome₀
  obtain ⟨hsome, hwaits⟩ := hafter _ hrun₀
  obtain ⟨⟨evs, t⟩, hrun⟩ := Option.isSome_iff_exists.mp hsome
  exact ⟨evs₀, s, evs, t, hrun₀, hrun, runnable_overtaken_once hrun₀ hrun hwaits⟩

end Waiting

end Procs

end OsLabs
