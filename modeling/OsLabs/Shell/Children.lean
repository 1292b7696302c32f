import Mathlib.Data.List.Basic
import OsLabs.Shell.Runs

/-! # The children of the shell

What the system calls of the shell do to its children: `Process.left` counts the ones it has not
waited for, `Forked n` says that `n` children were added. `wait` takes one off that count, whichever
child it returns (`wait_cases`), so a loop of `n` waits takes off `n` (`waitLoop_ok`). -/

namespace OsLabs.Shell

open Cmd

/-! ## Children that have not been waited for -/

/-- Which children have been waited for. -/
def Process.reapedFlags (s : Process) : List Bool := s.children.map fun c => decide (c.status = .reaped)

/-- The number of children that have not been waited for. -/
def Process.left (s : Process) : Nat := s.reapedFlags.count false

/-- What the children do, in the order of their `fork`. -/
def Process.outcomes (s : Process) : List Outcome := s.children.map Child.outcome

/-- Time does not change what a child does. -/
theorem Child.age_outcome (ended : Bool) (c : Child) : (c.age ended).outcome = c.outcome := by
  unfold Child.age
  split <;> rfl

/-- Time reaps no child. -/
theorem Child.age_reaped (ended : Bool) (c : Child) :
    (c.age ended).status = .reaped ↔ c.status = .reaped := by
  unfold Child.age
  split
  · rename_i h
    simp [h.1]
  · rfl

/-- A child that does not terminate stays as it is. -/
theorem Child.age_false (c : Child) : c.age false = c := by
  unfold Child.age
  exact if_neg (by simp)

/-- A child whose time has come is not running any more. -/
theorem Child.age_true_running (c : Child) : (c.age true).status ≠ .running := by
  unfold Child.age
  split
  · simp
  · rename_i h
    simpa using h

section Tick

variable (env : Env) (s : Process)

/-- A tick ages every child as the environment has it. -/
theorem Process.child_tick (pid : Nat) :
    (s.tick env).children[pid]? = (s.children[pid]?).map (Child.age (env.ended s.calls pid)) :=
  List.getElem?_mapIdx

/-- A tick forks no child. -/
@[simp] theorem Process.length_tick : (s.tick env).children.length = s.children.length :=
  List.length_mapIdx

/-- A tick does not change what the children do. -/
@[simp] theorem Process.outcomes_tick : (s.tick env).outcomes = s.outcomes := by
  apply List.ext_getElem?
  intro pid
  unfold Process.outcomes
  rw [List.getElem?_map, List.getElem?_map, Process.child_tick]
  cases s.children[pid]? with
  | none => rfl
  | some c => exact congrArg some (c.age_outcome _)

/-- A tick waits for nobody. -/
@[simp] theorem Process.left_tick : (s.tick env).left = s.left := by
  unfold Process.left
  congr 1
  apply List.ext_getElem?
  intro pid
  unfold Process.reapedFlags
  rw [List.getElem?_map, List.getElem?_map, Process.child_tick]
  cases s.children[pid]? with
  | none => rfl
  | some c => exact congrArg some (decide_eq_decide.mpr (c.age_reaped _))

end Tick

/-- Nobody is left just if every child has been reaped. -/
theorem Process.left_eq_zero {s : Process} :
    s.left = 0 ↔ ∀ (pid : Nat) (c : Child), s.children[pid]? = some c → c.status = .reaped := by
  unfold Process.left Process.reapedFlags
  rw [List.count_eq_zero, List.mem_map]
  constructor
  · intro h pid c hc
    by_contra hne
    exact h ⟨c, List.mem_of_getElem? hc, decide_eq_false hne⟩
  · rintro h ⟨c, hc, hne⟩
    obtain ⟨pid, hpid⟩ := List.getElem?_of_mem hc
    exact of_decide_eq_false hne (h pid c hpid)

/-- Waiting for a child takes it off the count. -/
theorem Process.left_reap {s : Process} {pid : Nat} {c : Child} (hc : s.children[pid]? = some c)
    (hne : c.status ≠ .reaped) : (s.reap pid).left = s.left - 1 := by
  have hlt : pid < s.reapedFlags.length := by
    obtain ⟨h, -⟩ := List.getElem?_eq_some_iff.mp hc
    rw [Process.reapedFlags, List.length_map]
    exact h
  have hflag : s.reapedFlags[pid] = false := by
    obtain ⟨h, hval⟩ := List.getElem?_eq_some_iff.mp hc
    simp [Process.reapedFlags, hval, hne]
  have hset : (s.reap pid).reapedFlags = s.reapedFlags.set pid true := by
    apply List.ext_getElem?
    intro i
    unfold Process.reapedFlags Process.reap
    rw [List.getElem?_map, List.getElem?_modify, List.getElem?_set, List.getElem?_map,
      List.length_map]
    by_cases hi : pid = i
    · subst hi
      rw [if_pos rfl, hc]
      simp [(List.getElem?_eq_some_iff.mp hc).1]
    · rw [if_neg hi]
      cases s.children[i]? <;> simp [hi]
  unfold Process.left
  rw [hset, List.count_set hlt, hflag]
  simp

/-- Waiting for a child does not remove it from the list. -/
@[simp] theorem Process.length_reap (s : Process) (pid : Nat) :
    (s.reap pid).children.length = s.children.length := List.length_modify ..

/-- Waiting for a child does not change what it did. -/
@[simp] theorem Process.outcomes_reap (s : Process) (pid : Nat) :
    (s.reap pid).outcomes = s.outcomes := by
  apply List.ext_getElem?
  intro i
  unfold Process.outcomes Process.reap
  rw [List.getElem?_map, List.getElem?_map, List.getElem?_modify]
  cases s.children[i]? with
  | none => rfl
  | some c => by_cases hi : pid = i <;> simp [hi]

/-- A fork leaves one child more to wait for. -/
@[simp] theorem Process.left_forked (env : Env) (outcome : Outcome) (s : Process) :
    (s.forked env outcome).left = s.left + 1 := by
  show (((s.tick env).children ++ [(⟨outcome, .running⟩ : Child)]).map fun c : Child =>
    decide (c.status = Status.reaped)).count false = _
  rw [List.map_append, List.count_append]
  exact congrArg (· + 1) (Process.left_tick env s)

/-- A fork adds one child. -/
@[simp] theorem Process.length_forked (env : Env) (outcome : Outcome) (s : Process) :
    (s.forked env outcome).children.length = s.children.length + 1 := by
  show ((s.tick env).children ++ [_]).length = _
  rw [List.length_append, Process.length_tick]
  rfl

/-- A fork adds the outcome of its child. -/
@[simp] theorem Process.outcomes_forked (env : Env) (outcome : Outcome) (s : Process) :
    (s.forked env outcome).outcomes = s.outcomes ++ [outcome] := by
  show ((s.tick env).children ++ [_]).map _ = _
  rw [List.map_append]
  exact congrArg (· ++ [outcome]) (Process.outcomes_tick env s)

/-! ## Waiting -/

/-- `wait` finds that nobody is left, or takes a terminated child off the list, or blocks. -/
theorem wait_cases (env : Env) (s : Process) :
    ((s.tick env).left = 0 ∧ wait env s = .ok none (s.tick env)) ∨
    (∃ pid c, (s.tick env).children[pid]? = some c ∧ c.status = .terminated ∧
      wait env s = .ok (some pid) ((s.tick env).reap pid)) ∨
    ((s.tick env).left ≠ 0 ∧
      (∀ (pid : Nat) (c : Child), (s.tick env).children[pid]? = some c → c.status ≠ .terminated) ∧
      wait env s = .error .blocked (s.tick env)) := by
  unfold wait
  simp only [Cmd.get_bind, Cmd.modify_bind]
  generalize s.tick env = u
  by_cases hall : u.children.all fun c => c.status = .reaped
  · left
    -- With every child reaped, `wait` fails and returns −1.
    rw [if_pos hall]
    refine ⟨Process.left_eq_zero.mpr fun pid c hc => ?_, rfl⟩
    exact of_decide_eq_true (List.all_eq_true.mp hall c (List.mem_of_getElem? hc))
  · right
    rw [if_neg hall]
    have hleft : u.left ≠ 0 := by
      intro h0
      refine hall (List.all_eq_true.mpr fun c hc => ?_)
      obtain ⟨pid, hpid⟩ := List.getElem?_of_mem hc
      exact decide_eq_true (Process.left_eq_zero.mp h0 pid c hpid)
    -- The zombies are the children that have ended and were not waited for.
    have hmem {pid : Nat} : pid ∈ u.zombies ↔
        ∃ c, u.children[pid]? = some c ∧ c.status = .terminated := by
      unfold Process.zombies
      rw [List.mem_filter, List.mem_range]
      constructor
      · rintro ⟨hlt, hany⟩
        rw [List.getElem?_eq_getElem hlt] at hany ⊢
        exact ⟨_, rfl, of_decide_eq_true hany⟩
      · rintro ⟨c, hc, hst⟩
        refine ⟨(List.getElem?_eq_some_iff.mp hc).1, ?_⟩
        rw [hc]
        exact decide_eq_true hst
    cases hz : u.zombies[env.pick s.calls % u.zombies.length]? with
    | none =>
        right
        -- The pick is taken modulo their number, so it misses only where there is none.
        refine ⟨hleft, fun pid c hc hst => ?_, rfl⟩
        have hpos : 0 < u.zombies.length := List.length_pos_of_mem (hmem.mpr ⟨c, hc, hst⟩)
        exact absurd (List.getElem?_eq_none_iff.mp hz) (Nat.not_le.mpr (Nat.mod_lt _ hpos))
    | some pid =>
        left
        obtain ⟨c, hc, hst⟩ := hmem.mp (List.mem_of_getElem? hz)
        exact ⟨pid, c, hc, hst, rfl⟩

/-- The children keep their number and what they do, and the count is lowered by `n`. -/
structure Waited (n : Nat) (s t : Process) : Prop where
  left : t.left = s.left - n
  length : t.children.length = s.children.length
  outcomes : t.outcomes = s.outcomes
  fds : t.fds = s.fds

/-- Waits for `n` and for `m` children are waits for `n + m`. -/
theorem Waited.trans {n m : Nat} {s t u : Process} (h : Waited n s t) (h' : Waited m t u) :
    Waited (n + m) s u :=
  ⟨by rw [h'.left, h.left, Nat.sub_sub], h'.length.trans h.length, h'.outcomes.trans h.outcomes,
    h'.fds.trans h.fds⟩

/-- A `wait` that returns takes one child off the count, if there is one. -/
theorem wait_ok {env : Env} {s t : Process} {r : Option Nat} (h : wait env s = .ok r t) :
    Waited 1 s t := by
  rcases wait_cases env s with ⟨h0, hrun⟩ | ⟨pid, c, hc, hst, hrun⟩ | ⟨-, -, hrun⟩
  · rw [hrun] at h
    cases h
    refine ⟨?_, Process.length_tick env s, Process.outcomes_tick env s, rfl⟩
    rw [h0, ← Process.left_tick env s, h0]
  · rw [hrun] at h
    cases h
    refine ⟨?_, ?_, ?_, rfl⟩
    · rw [Process.left_reap hc (by rw [hst]; decide), Process.left_tick]
    · rw [Process.length_reap, Process.length_tick]
    · rw [Process.outcomes_reap, Process.outcomes_tick]
  · rw [hrun] at h
    cases h

/-- Printing keeps the children. -/
theorem Waited.said (s : Process) (lines : List Line) : Waited 0 s { s with output := lines } :=
  ⟨rfl, rfl, rfl, rfl⟩

/-- A loop of `n` waits that returns takes `n` children off the count. -/
theorem waitLoop_ok {env : Env} {n : Nat} {s t : Process} (h : waitLoop env n s = .ok ⟨⟩ t) :
    Waited n s t := by
  induction n generalizing s with
  | zero =>
      cases h
      exact ⟨rfl, rfl, rfl, rfl⟩
  | succ n ih =>
      obtain ⟨r, u, hwait, h'⟩ := Cmd.bind_eq_ok.mp h
      obtain ⟨⟨⟩, v, hsay, h''⟩ := Cmd.bind_eq_ok.mp h'
      have hv : Waited 0 u v := by
        by_cases hr : r = none
        · rw [Cmd.when_pos hr] at hsay
          cases hsay
          exact .said u _
        · rw [Cmd.when_neg hr] at hsay
          cases hsay
          exact .said u _
      have := ((wait_ok hwait).trans hv).trans (ih h'')
      rwa [Nat.add_zero, Nat.add_comm] at this

/-! ## Forking a pipeline -/

/-- The child is running. -/
def Process.Runs (s : Process) (pid : Nat) : Prop :=
  ∃ c, s.children[pid]? = some c ∧ c.status = .running

/-- A running child is one of the list. -/
theorem Process.Runs.lt {s : Process} {pid : Nat} (h : s.Runs pid) : pid < s.children.length := by
  obtain ⟨c, hc, -⟩ := h
  exact (List.getElem?_eq_some_iff.mp hc).1

/-- A child that does not terminate goes on running. -/
theorem Process.Runs.tick {env : Env} {s : Process} {pid : Nat} (h : s.Runs pid)
    (hslow : ∀ call, env.ended call pid = false) : (s.tick env).Runs pid := by
  obtain ⟨c, hc, hst⟩ := h
  refine ⟨c, ?_, hst⟩
  rw [Process.child_tick, hc, hslow, Option.map_some, Child.age_false]

/-- A child that the environment lets run goes on running while another is forked. -/
theorem Process.Runs.forked {env : Env} {s : Process} {pid : Nat} (h : s.Runs pid)
    (hslow : ∀ call, env.ended call pid = false) (outcome : Outcome) :
    (s.forked env outcome).Runs pid := by
  obtain ⟨c, hc, hst⟩ := h.tick hslow
  refine ⟨c, ?_, hst⟩
  show ((s.tick env).children ++ [_])[pid]? = some c
  rw [List.getElem?_append_left (List.getElem?_eq_some_iff.mp hc).1, hc]

/-- A child starts running. -/
theorem Process.runs_forked (env : Env) (outcome : Outcome) (s : Process) :
    (s.forked env outcome).Runs s.children.length := by
  refine ⟨⟨outcome, .running⟩, ?_, rfl⟩
  show ((s.tick env).children ++ [_])[s.children.length]? = _
  rw [List.getElem?_append_right (Nat.le_of_eq (Process.length_tick env s)), Process.length_tick,
    Nat.sub_self]
  rfl

/-- What forking the commands of a pipeline does to the process: its table and the outcomes of its
children are given, it has `n` children more, and the children that do not terminate are running. -/
structure Spawned (env : Env) (n : Nat) (outcomes : List Outcome) (fds : FdTable OpenFile)
    (s t : Process) : Prop where
  fds : t.fds = fds
  outcomes : t.outcomes = s.outcomes ++ outcomes
  left : t.left = s.left + n
  length : t.children.length = s.children.length + n
  runs : ∀ pid, (∀ call, env.ended call pid = false) →
    s.Runs pid ∨ s.children.length ≤ pid ∧ pid < s.children.length + n → t.Runs pid

/-- The last command of the loop, and the waiting for all of them. -/
theorem executeLoop_last (env : Env) (isWait : Bool) (scmd : Scommand) (fdIn fdOut : Option Nat)
    (k : Nat) : executeLoop env isWait [scmd] fdIn fdOut k = (do
      let (_, waitCounter) ← executeScmd env scmd false isWait fdIn fdOut k
      Cmd.when (isWait = true) (waitLoop env waitCounter)) := by
  refine bind_congr (m := ShellM) fun r => ?_
  refine (bind_pure _).trans ?_
  show Cmd.when (isWait = true ∧ false = false) _ = Cmd.when (isWait = true) (waitLoop env r.2)
  by_cases h : isWait = true
  · rw [Cmd.when_pos ⟨h, rfl⟩, Cmd.when_pos h]
  · rw [Cmd.when_neg fun hand => h hand.1, Cmd.when_neg h]

/-- A command of the loop that is followed by another one. -/
theorem executeLoop_cons (env : Env) (isWait : Bool) (scmd scmd' : Scommand) (scmds : List Scommand)
    (fdIn fdOut : Option Nat) (k : Nat) :
    executeLoop env isWait (scmd :: scmd' :: scmds) fdIn fdOut k = (do
      let (fdIn, waitCounter) ← executeScmd env scmd true isWait fdIn fdOut k
      executeLoop env isWait (scmd' :: scmds) fdIn fdOut waitCounter) := by
  refine bind_congr (m := ShellM) fun r => ?_
  show (Cmd.when (isWait = true ∧ true = false) _ >>= _) = _
  rw [Cmd.when_neg (by simp)]
  rfl

/-- The process after forking a command that is followed by another one. -/
def Process.spawnedPiped (env : Env) (scmd : Scommand) (fdIn : Option Nat) (s : Process) : Process :=
  ((s.piped env).forked env (childOutcome scmd (some (s.readEnd, s.writeEnd)) fdIn
    (s.piped env).fds)).closed s.writeEnd

/-- The process after forking the last command of a pipeline. -/
def Process.spawnedLast (env : Env) (scmd : Scommand) (fdIn : Option Nat) (s : Process) : Process :=
  let u := s.forked env (childOutcome scmd none fdIn s.fds)
  match fdIn with
  | none => u
  | some fd => u.closed fd

/-- A child that the environment lets run goes on running while a pipe is made. -/
theorem Process.Runs.piped {env : Env} {s : Process} {pid : Nat} (h : s.Runs pid)
    (hslow : ∀ call, env.ended call pid = false) : (s.piped env).Runs pid := h.tick hslow

/-- One child is forked, and it is running unless it has terminated. -/
theorem spawned_forked (env : Env) (outcome : Outcome) (s : Process) :
    Spawned env 1 [outcome] s.fds s (s.forked env outcome) := by
  refine ⟨rfl, Process.outcomes_forked env _ s, Process.left_forked env _ s,
    Process.length_forked env _ s, fun pid hslow hpid => ?_⟩
  rcases hpid with hruns | ⟨hle, hlt⟩
  · exact hruns.forked hslow _
  · obtain rfl : pid = s.children.length := by omega
    exact Process.runs_forked env _ s

/-- Closing a descriptor changes the table and nothing about the children. -/
theorem Spawned.closed {env : Env} {n : Nat} {outcomes : List Outcome} {fds : FdTable OpenFile}
    {s t : Process} (h : Spawned env n outcomes fds s t) (fd : Nat) :
    Spawned env n outcomes (fds.close fd) s (t.closed fd) :=
  ⟨congrArg (·.close fd) h.fds, h.outcomes, h.left, h.length, h.runs⟩

/-- Forking two parts of a pipeline one after the other. -/
theorem Spawned.trans {env : Env} {n m : Nat} {os os' : List Outcome} {fds fds' : FdTable OpenFile}
    {s t u : Process} (h : Spawned env n os fds s t) (h' : Spawned env m os' fds' t u) :
    Spawned env (n + m) (os ++ os') fds' s u := by
  refine ⟨h'.fds, ?_, ?_, ?_, fun pid hslow hpid => h'.runs pid hslow ?_⟩
  · rw [h'.outcomes, h.outcomes, List.append_assoc]
  · rw [h'.left, h.left, Nat.add_assoc]
  · rw [h'.length, h.length, Nat.add_assoc]
  · have hlength := h.length
    by_cases hlt : pid < s.children.length + n
    · exact .inl (h.runs pid hslow (hpid.imp_right fun hr => ⟨hr.1, hlt⟩))
    · refine .inr ?_
      rcases hpid with hruns | ⟨hle, hlt'⟩
      · have := hruns.lt
        omega
      · omega

/-- Making a pipe forks nobody and opens two descriptors. -/
theorem spawned_piped (env : Env) (s : Process) :
    Spawned env 0 [] (openPipe s.fds s.pipes) s (s.piped env) := by
  refine ⟨rfl, ?_, Process.left_tick env s, Process.length_tick env s, fun pid hslow hpid => ?_⟩
  · rw [List.append_nil]
    exact Process.outcomes_tick env s
  · rcases hpid with hruns | ⟨hle, hlt⟩
    · exact hruns.piped hslow
    · omega

/-- A command in front of a pipe is one child, and the parent keeps the end for reading. -/
theorem spawned_spawnedPiped (env : Env) (scmd : Scommand) (fdIn : Option Nat) (s : Process) :
    Spawned env 1 [childOutcome scmd (some (s.readEnd, s.writeEnd)) fdIn (s.piped env).fds]
      (parentFds s.fds s.pipes) s (s.spawnedPiped env scmd fdIn) := by
  have h := (spawned_piped env s).trans
    (spawned_forked env (childOutcome scmd (some (s.readEnd, s.writeEnd)) fdIn (s.piped env).fds)
      (s.piped env))
  rw [Nat.zero_add] at h
  exact h.closed s.writeEnd

/-- The last command is one child. -/
theorem spawned_spawnedLast (env : Env) (scmd : Scommand) (fdIn : Option Nat) (s : Process) :
    Spawned env 1 [childOutcome scmd none fdIn s.fds] (pipelineFds [scmd] fdIn s.fds s.pipes) s
      (s.spawnedLast env scmd fdIn) := by
  have h := spawned_forked env (childOutcome scmd none fdIn s.fds) s
  cases fdIn with
  | none => exact h
  | some fd => exact h.closed fd

/-- The loop of `execute_pipeline` forks all commands and then, in the foreground, waits. -/
theorem executeLoop_run {env : Env} (henv : env.Succeeds) (isWait : Bool) (scmd : Scommand)
    (scmds : List Scommand) (fdIn : Option Nat) (k : Nat) (s : Process) :
    ∃ u, executeLoop env isWait (scmd :: scmds) fdIn none k s =
        Cmd.when (isWait = true) (waitLoop env (k + scmds.length + 1)) u ∧
      Spawned env (scmds.length + 1) (pipelineOutcomes (scmd :: scmds) fdIn s.fds s.pipes)
        (pipelineFds (scmd :: scmds) fdIn s.fds s.pipes) s u := by
  induction scmds generalizing scmd fdIn k s with
  | nil =>
      refine ⟨s.spawnedLast env scmd fdIn, ?_, spawned_spawnedLast env scmd fdIn s⟩
      rw [executeLoop_last, Cmd.bind_ok (executeScmd_last henv scmd isWait fdIn k s)]
      rfl
  | cons scmd' scmds ih =>
      obtain ⟨u, hu, hspawn⟩ := ih scmd' (some s.readEnd) (k + 1) (s.spawnedPiped env scmd fdIn)
      refine ⟨u, ?_, ?_⟩
      · rw [executeLoop_cons, Cmd.bind_ok (executeScmd_piped henv scmd isWait fdIn k s)]
        refine hu.trans ?_
        rw [List.length_cons, Nat.add_right_comm k 1, Nat.add_assoc k]
      · have h := (spawned_spawnedPiped env scmd fdIn s).trans hspawn
        rw [Nat.add_comm 1] at h
        exact h

end OsLabs.Shell
