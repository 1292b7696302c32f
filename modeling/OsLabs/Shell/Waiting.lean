import OsLabs.Shell.Children

/-! # Waiting for a foreground pipeline

`execute_pipeline` waits as often as it forked, but does not look at which child `wait` returned. A
foreground pipeline is waited for as long as no child of an earlier background pipeline is left; after
one, `wait` can return that child, and the pipeline goes on with one of its own still running
(`foregroundWaited_iff`). -/

namespace OsLabs.Shell

open Cmd

/-! ## What returning runs do to the children -/

/-- `n` children were added and `k` were waited for. -/
structure Grown (n k : Nat) (s t : Process) : Prop where
  left : t.left = s.left + n - k
  length : t.children.length = s.children.length + n

/-- The children are the same up to their termination. -/
abbrev SameChildren (s t : Process) : Prop := Grown 0 0 s t

instance : Std.Refl SameChildren := ⟨fun _ => ⟨rfl, rfl⟩⟩

instance : IsTrans Process SameChildren := ⟨fun _ _ _ h h' =>
  ⟨h'.left.trans h.left, h'.length.trans h.length⟩⟩

/-- A tick waits for nobody. -/
theorem SameChildren.tick (env : Env) (s : Process) : SameChildren s (s.tick env) :=
  ⟨Process.left_tick env s, Process.length_tick env s⟩

/-- A message waits for nobody. -/
theorem within_say (line : Line) : Within SameChildren (say line) := fun _ => ⟨rfl, rfl⟩

/-- Looking at the first word waits for nobody. -/
theorem within_scommandFront (scmd : Scommand) : Within SameChildren (scommandFront scmd) := by
  unfold scommandFront
  split
  · exact within_throw _
  · exact within_pure _

/-- Taking the first word waits for nobody. -/
theorem within_scommandPopFront (scmd : Scommand) : Within SameChildren (scommandPopFront scmd) := by
  unfold scommandPopFront
  split
  · exact within_throw _
  · exact within_pure _

/-- `chdir` waits for nobody. -/
theorem within_chdir (env : Env) (path : String) : Within SameChildren (chdir env path) := by
  refine within_get.bind fun s => ?_
  split
  · exact within_pure _
  · exact (within_modify fun _ => ⟨rfl, rfl⟩).bind fun _ => within_pure _

/-- Asking whether a command is internal waits for nobody. -/
theorem within_builtinIsInternal (cmd : Scommand) : Within SameChildren (builtinIsInternal cmd) :=
  (within_scommandFront cmd).bind fun _ => within_pure _

/-- A builtin forks nothing. -/
theorem within_builtinRun (env : Env) (cmd : Scommand) : Within SameChildren (builtinRun env cmd) := by
  refine (within_builtinIsInternal cmd).bind fun internal => within_ite (fun _ => ?_)
    fun _ => within_throw _
  refine (within_scommandFront cmd).bind fun cmdType => within_ite (fun _ => ?_) fun _ => ?_
  · refine within_ite (fun _ => ?_) fun _ => ?_
    · exact (within_scommandPopFront cmd).bind fun _ => (within_scommandFront _).bind fun _ =>
        (within_chdir env _).bind fun _ => within_when fun _ => within_say _
    · split
      · exact within_pure _
      · exact (within_chdir env _).bind fun _ => within_pure _
  · refine within_ite (fun _ => ?_) fun _ => within_ite (fun _ => within_throw _) fun _ => within_pure _
    exact (within_say _).bind fun _ => (within_say _).bind fun _ => within_say _

/-- `pipe` waits for nobody. -/
theorem within_pipe (env : Env) : Within SameChildren (pipe env) := by
  refine within_get.bind fun s => (within_modify (SameChildren.tick env)).bind fun _ => ?_
  refine within_ite (fun _ => ?_) fun _ => within_pure _
  exact (within_modify fun _ => ⟨rfl, rfl⟩).bind fun _ => within_pure _

/-- A `fork` that succeeds adds a child. -/
theorem fork_ok {env : Env} {child : ShellM Exec} {s t : Process}
    (h : fork env child s = .ok true t) : Grown 1 0 s t := by
  unfold fork at h
  rw [Cmd.get_bind, Cmd.modify_bind] at h
  by_cases hok : env.forkOk s.calls
  · rw [if_pos hok] at h
    cases h
    exact ⟨Process.left_forked env _ s, Process.length_forked env _ s⟩
  · rw [if_neg hok] at h
    cases h

/-- Children forked in two steps are forked together. -/
theorem Grown.trans {n m k : Nat} {s t u : Process} (h : Grown n 0 s t) (h' : Grown m k t u) :
    Grown (n + m) k s u :=
  ⟨by rw [h'.left, h.left, Nat.sub_zero, Nat.add_assoc], by rw [h'.length, h.length, Nat.add_assoc]⟩

/-- What comes before may leave the children alone. -/
theorem SameChildren.left_trans {n k : Nat} {s t u : Process} (h : SameChildren s t)
    (h' : Grown n k t u) : Grown n k s u := by
  have := Grown.trans h h'
  rwa [Nat.zero_add] at this

/-- The parent's branch keeps the children. -/
theorem executeParent_ok {pipefd : Option (Nat × Nat)} {fdIn : Option Nat} {k : Nat}
    {s t : Process} {r : Option Nat × Nat} (h : executeParent pipefd fdIn k s = .ok r t) :
    SameChildren s t ∧ r.2 = k + 1 := by
  rcases pipefd with _ | ⟨readEnd, writeEnd⟩
  · cases fdIn with
    | none =>
        cases h
        exact ⟨Std.Refl.refl s, rfl⟩
    | some fd =>
        cases h
        exact ⟨⟨rfl, rfl⟩, rfl⟩
  · cases h
    exact ⟨⟨rfl, rfl⟩, rfl⟩

/-- A command that returns has added one child. -/
theorem executeScmd_ok {env : Env} {scmd : Scommand} {isPipe isWait : Bool}
    {fdIn fdOut : Option Nat} {k : Nat} {s t : Process} {r : Option Nat × Nat}
    (h : executeScmd env scmd isPipe isWait fdIn fdOut k s = .ok r t) :
    Grown 1 0 s t ∧ r.2 = k + 1 := by
  unfold executeScmd at h
  rw [Cmd.bind_ok (getArgv_run scmd s)] at h
  dsimp only at h
  -- Both modes of `execute_scmd` end in the same fork; only the pipe in front of it differs.
  have hforked {pipefd : Option (Nat × Nat)} {u : Process}
      (h : (do
        let forked ← fork env (executeChild env { scmd with cmdArgs := [] } scmd.cmdArgs pipefd fdIn fdOut)
        if forked then executeParent pipefd fdIn k
        else do
          say (.perror "Error en el fork\n")
          throw (.exited exitFailure) : ShellM (Option Nat × Nat)) u = .ok r t) :
      Grown 1 0 u t ∧ r.2 = k + 1 := by
    obtain ⟨forked, v, hfork, hrest⟩ := Cmd.bind_eq_ok.mp h
    cases forked with
    | false => cases hrest
    | true =>
        rw [if_pos rfl] at hrest
        obtain ⟨hsame, hk⟩ := executeParent_ok hrest
        exact ⟨(fork_ok hfork).trans hsame, hk⟩
  -- The first fork decides how many children there are, the pipe adds none.
  cases isPipe with
  | false =>
      rw [if_neg (by decide), Cmd.pure_bind_run] at h
      exact hforked h
  | true =>
      rw [if_pos rfl] at h
      obtain ⟨created, u, hpipe, hrest⟩ := Cmd.bind_eq_ok.mp h
      cases created with
      | none => cases hrest
      | some pipefd =>
          dsimp only at hrest
          rw [Cmd.pure_bind_run] at hrest
          obtain ⟨hgrown, hk⟩ := hforked hrest
          exact ⟨((within_pipe env).ok hpipe).left_trans hgrown, hk⟩

/-- A pipeline that returns has added a child for each command, and it has waited as often as it
forked, or not at all. -/
theorem executeLoop_ok {env : Env} {isWait : Bool} {scmd : Scommand} {scmds : List Scommand}
    {fdIn fdOut : Option Nat} {k : Nat} {s t : Process}
    (h : executeLoop env isWait (scmd :: scmds) fdIn fdOut k s = .ok ⟨⟩ t) :
    Grown (scmds.length + 1) (if isWait then k + scmds.length + 1 else 0) s t := by
  -- By induction over the commands; only behind the last one does the loop wait.
  induction scmds generalizing scmd fdIn k s with
  | nil =>
      obtain ⟨⟨fdIn', k'⟩, u, hscmd, h'⟩ := Cmd.bind_eq_ok.mp h
      obtain ⟨⟨⟩, v, hwait, h''⟩ := Cmd.bind_eq_ok.mp h'
      obtain ⟨hgrown, rfl⟩ := executeScmd_ok hscmd
      cases h''
      cases isWait with
      | false =>
          cases hwait
          exact hgrown
      | true =>
          have hw := waitLoop_ok hwait
          exact ⟨by rw [hw.left, hgrown.left]; rfl, by rw [hw.length, hgrown.length]; rfl⟩
  | cons scmd' scmds ih =>
      obtain ⟨⟨fdIn', k'⟩, u, hscmd, h'⟩ := Cmd.bind_eq_ok.mp h
      obtain ⟨⟨⟩, v, hwait, h''⟩ := Cmd.bind_eq_ok.mp h'
      obtain ⟨hgrown, rfl⟩ := executeScmd_ok hscmd
      -- A command with others behind it waits for nothing.
      have hv : v = u := by
        have hcond : ¬ (isWait = true ∧
            (if (scmd :: scmd' :: scmds).length == 1 then false else true) = false) := by simp
        rw [Cmd.when_neg hcond] at hwait
        cases hwait
        rfl
      subst hv
      have := hgrown.trans (ih h'')
      rw [Nat.add_comm 1] at this
      have hk : k + (scmd' :: scmds).length + 1 = k + 1 + scmds.length + 1 := by
        rw [List.length_cons]
        omega
      rw [hk]
      exact this

/-! ## What a pipeline does to the children -/

/-- The pipeline is run by forking: it is neither empty nor a lone builtin, and a lone command has a
word. -/
def Pipeline.forks (p : Pipeline) : Bool :=
  match p.scmds with
  | [] => false
  | [scmd] =>
    match scmd.cmdArgs with
    | [] => false
    | word :: _ => !(word == "cd" || word == "help" || word == "exit")
  | _ => true

/-- The pipeline ends the shell: it is a lone `exit`, or a lone command without a word, which fails an
assertion. -/
def Pipeline.endsShell (p : Pipeline) : Bool :=
  match p.scmds with
  | [scmd] =>
    match scmd.cmdArgs with
    | [] => true
    | word :: _ => word == "exit"
  | _ => false

/-- `builtin_alone` on a pipeline that does not end the shell. -/
theorem builtinAlone_run {p : Pipeline} (hends : p.endsShell = false) (hne : p.scmds ≠ []) (s : Process) :
    builtinAlone p s = .ok (!p.forks) s := by
  obtain ⟨scmds, wait⟩ := p
  rcases scmds with _ | ⟨⟨args, redirIn, redirOut⟩, _ | ⟨scmd', scmds⟩⟩
  · exact absurd rfl hne
  · rcases args with _ | ⟨word, args⟩
    · cases hends
    · unfold Pipeline.forks
      simp only [Bool.not_not]
      rfl
  · unfold builtinAlone pipelineLength
    rw [if_neg (by simp)]
    rfl

/-- A pipeline that ends the shell does not return. -/
theorem executePipeline_endsShell (env : Env) {p : Pipeline} (hends : p.endsShell = true)
    (s : Process) : ∃ stop, executePipeline env p s = .error stop s := by
  obtain ⟨scmds, wait⟩ := p
  rcases scmds with _ | ⟨⟨args, redirIn, redirOut⟩, _ | ⟨scmd', scmds⟩⟩
  · cases hends
  · rcases args with _ | ⟨word, args⟩
    · exact ⟨.aborted, rfl⟩
    · obtain rfl : word = "exit" := eq_of_beq hends
      exact ⟨.exited exitSuccess, rfl⟩
  · cases hends

/-- A pipeline that forks has a command. -/
theorem Pipeline.ne_nil_of_forks {p : Pipeline} (h : p.forks = true) : p.scmds ≠ [] := by
  intro hnil
  unfold Pipeline.forks at h
  rw [hnil] at h
  cases h

/-- A pipeline that forks does not end the shell. -/
theorem Pipeline.endsShell_of_forks {p : Pipeline} (h : p.forks = true) : p.endsShell = false := by
  obtain ⟨scmds, wait⟩ := p
  rcases scmds with _ | ⟨⟨args, redirIn, redirOut⟩, _ | ⟨scmd', scmds⟩⟩
  · cases h
  · rcases args with _ | ⟨word, args⟩
    · cases h
    · unfold Pipeline.forks at h
      unfold Pipeline.endsShell
      simp only [Bool.not_eq_true', Bool.or_eq_false_iff] at h
      exact h.2
  · rfl

/-- Running a pipeline that forks is running the loop. -/
theorem executePipeline_forks (env : Env) {p : Pipeline} (hforks : p.forks = true) (s : Process) :
    executePipeline env p s = executeLoop env p.wait p.scmds none none 0 s := by
  have hne := Pipeline.ne_nil_of_forks hforks
  unfold executePipeline
  rw [if_neg (by simpa [pipelineIsEmpty, pipelineLength] using hne),
    Cmd.bind_ok (builtinAlone_run (Pipeline.endsShell_of_forks hforks) hne s), hforks]
  show executePipelineLoop env p.scmds.length ⟨p.scmds, p.wait⟩ none none 0 s = _
  rw [executePipelineLoop_eq]

/-- Running a pipeline that neither forks nor ends the shell is running its builtin, if it has a command. -/
theorem executePipeline_builtin (env : Env) {p : Pipeline} (hends : p.endsShell = false)
    (hforks : p.forks = false) (hne : p.scmds ≠ []) (s : Process) :
    ∃ scmd, p.scmds = [scmd] ∧ executePipeline env p s = builtinRun env scmd s := by
  have halone := builtinAlone_run hends hne s
  obtain ⟨scmds, wait⟩ := p
  rcases scmds with _ | ⟨scmd, _ | ⟨scmd', scmds⟩⟩
  · exact absurd rfl hne
  · refine ⟨scmd, rfl, ?_⟩
    unfold executePipeline
    rw [if_neg (by simp [pipelineIsEmpty, pipelineLength]), Cmd.bind_ok halone, hforks]
    exact congrFun (bind_pure_unit (x := builtinRun env scmd)) s
  · cases hforks

/-- A pipeline that is not run by forking leaves the children alone. -/
theorem executePipeline_sameChildren {env : Env} {p : Pipeline} (hforks : p.forks = false)
    {s t : Process} (h : executePipeline env p s = .ok ⟨⟩ t) : SameChildren s t := by
  by_cases hempty : p.scmds = []
  · unfold executePipeline at h
    rw [if_pos (by unfold pipelineIsEmpty pipelineLength; rw [hempty]; rfl)] at h
    cases h
    exact Std.Refl.refl s
  · by_cases hends : p.endsShell = false
    · obtain ⟨scmd, -, hrun⟩ := executePipeline_builtin env hends hforks hempty s
      rw [hrun] at h
      exact (within_builtinRun env scmd).ok h
    · obtain ⟨stop, hstop⟩ := executePipeline_endsShell env (eq_true_of_ne_false hends) s
      rw [h] at hstop
      cases hstop

/-- The number of children a pipeline forks. -/
def Pipeline.forkCount (p : Pipeline) : Nat := if p.forks then p.scmds.length else 0

/-- A pipeline that forks forks a child at least. -/
theorem Pipeline.forkCount_pos {p : Pipeline} (h : p.forks = true) : 0 < p.forkCount := by
  unfold Pipeline.forkCount
  rw [if_pos h]
  exact List.length_pos_of_ne_nil (Pipeline.ne_nil_of_forks h)

/-- A pipeline that returns has added its children, and has waited as often if it is in the
foreground. -/
theorem executePipeline_ok {env : Env} {p : Pipeline} {s t : Process}
    (h : executePipeline env p s = .ok ⟨⟩ t) :
    Grown p.forkCount (if p.wait then p.forkCount else 0) s t := by
  by_cases hforks : p.forks = true
  · have hpos := p.forkCount_pos hforks
    rw [executePipeline_forks env hforks] at h
    unfold Pipeline.forkCount at hpos ⊢
    rw [if_pos hforks] at hpos ⊢
    cases hscmds : p.scmds with
    | nil =>
        rw [hscmds] at hpos
        exact absurd hpos (Nat.lt_irrefl 0)
    | cons scmd scmds =>
        rw [hscmds] at h
        have := executeLoop_ok h
        rwa [Nat.zero_add] at this
  · have hcount : p.forkCount = 0 := if_neg hforks
    rw [hcount, ite_self]
    exact executePipeline_sameChildren (eq_false_of_ne_true hforks) h

/-- `chdir` answers, whether or not the directory can be entered. -/
theorem chdir_returns (env : Env) (path : String) (s : Process) :
    ∃ changed t, chdir env path s = .ok changed t := by
  unfold chdir
  rw [Cmd.get_bind]
  cases env.chdirTo s.cwd path with
  | none => exact ⟨false, s, rfl⟩
  | some cwd => exact ⟨true, { s with cwd }, rfl⟩

/-- A lone `cd` or `help` returns, and so does the empty pipeline. -/
theorem executePipeline_returns (env : Env) {p : Pipeline} (hends : p.endsShell = false)
    (hforks : p.forks = false) (s : Process) : ∃ t, executePipeline env p s = .ok ⟨⟩ t := by
  obtain ⟨scmds, isWait⟩ := p
  rcases scmds with _ | ⟨⟨args, redirIn, redirOut⟩, _ | ⟨scmd', scmds⟩⟩
  · exact ⟨s, rfl⟩
  · rcases args with _ | ⟨word, args⟩
    · cases hends
    · have hword : word = "cd" ∨ word = "help" := by
        unfold Pipeline.forks at hforks
        unfold Pipeline.endsShell at hends
        simp only [Bool.not_eq_false', Bool.or_eq_true, beq_iff_eq, beq_eq_false_iff_ne] at hforks hends
        exact hforks.resolve_right hends
      obtain ⟨scmd, hscmd, hrun⟩ := executePipeline_builtin env hends hforks (List.cons_ne_nil _ _) s
      cases hscmd
      rw [hrun]
      rcases hword with rfl | rfl
      · rcases args with _ | ⟨filename, args⟩
        · unfold builtinRun
          cases env.home with
          | none => exact ⟨s, rfl⟩
          | some username =>
              obtain ⟨changed, t, ht⟩ := chdir_returns env username s
              exact ⟨t, Cmd.bind_ok ht⟩
        · obtain ⟨changed, t, ht⟩ := chdir_returns env filename s
          cases changed with
          | false => exact ⟨_, Cmd.bind_ok ht⟩
          | true => exact ⟨_, Cmd.bind_ok ht⟩
      · exact ⟨_, rfl⟩
  · cases hforks

/-! ## A slow child -/

/-- All calls succeed, and all children terminate at once but for one, which never does. -/
def slowEnv (slow : Nat) : Env where
  pipeOk _ := true
  forkOk _ := true
  openOk _ _ := true
  chdirTo _ _ := none
  home := none
  ended _ pid := pid != slow
  pick _ := 0

/-- Every call of the slow environment succeeds. -/
theorem slowEnv_succeeds (slow : Nat) : (slowEnv slow).Succeeds :=
  ⟨fun _ => rfl, fun _ => rfl, fun _ _ => rfl⟩

/-- The slow child does not terminate. -/
theorem slowEnv_ended (slow call : Nat) : (slowEnv slow).ended call slow = false := by
  simp [slowEnv]

/-- At most one of the flags of a list is off, if it can only be off in one place. -/
theorem count_false_le_one {flags : List Bool} {i : Nat}
    (h : ∀ j : Nat, flags[j]? = some false → j = i) : flags.count false ≤ 1 := by
  induction flags generalizing i with
  | nil => exact Nat.zero_le 1
  | cons flag flags ih =>
      cases flag with
      | true =>
          rw [List.count_cons_of_ne (by decide)]
          refine ih (i := i - 1) fun j hj => ?_
          have := h (j + 1) hj
          omega
      | false =>
          have hi : 0 = i := h 0 rfl
          have hzero : flags.count false = 0 := by
            refine List.count_eq_zero.mpr fun hmem => ?_
            obtain ⟨j, hj⟩ := List.getElem?_of_mem hmem
            have := h (j + 1) hj
            omega
          have hcons : (false :: flags).count false = flags.count false + 1 := List.count_cons_self
          omega

/-- `wait` returns while the slow child is not the only one left. -/
theorem wait_slow {slow : Nat} {s : Process}
    (h : s.children.length ≤ slow ∨ s.Runs slow ∧ 2 ≤ s.left) :
    ∃ r t, wait (slowEnv slow) s = .ok r t ∧ (s.Runs slow → t.Runs slow) := by
  rcases wait_cases (slowEnv slow) s with ⟨-, hrun⟩ | ⟨pid, c, hc, hst, hrun⟩ | ⟨hleft, hno, -⟩
  · exact ⟨none, _, hrun, fun hr => hr.tick (slowEnv_ended slow)⟩
  · refine ⟨some pid, _, hrun, fun hr => ?_⟩
    obtain ⟨c', hc', hst'⟩ := hr.tick (slowEnv_ended slow)
    refine ⟨c', ?_, hst'⟩
    show ((s.tick (slowEnv slow)).children.modify pid _)[slow]? = some c'
    have hne : pid ≠ slow := by
      rintro rfl
      rw [hc] at hc'
      cases hc'
      rw [hst] at hst'
      cases hst'
    rw [List.getElem?_modify, hc']
    simp [hne]
  · -- a child that is left is running, so it is the slow one
    exfalso
    have hslow : ∀ j, (s.tick (slowEnv slow)).reapedFlags[j]? = some false → j = slow := by
      intro j hj
      unfold Process.reapedFlags at hj
      rw [List.getElem?_map, Process.child_tick] at hj
      by_contra hne
      cases hc : s.children[j]? with
      | none =>
          rw [hc] at hj
          cases hj
      | some c =>
          have hended : (slowEnv slow).ended s.calls j = true := by simpa [slowEnv] using hne
          have hnot := hno j (c.age true) (by rw [Process.child_tick, hc, hended]; rfl)
          have hrunning := c.age_true_running
          rw [hc, hended] at hj
          have hnotReaped : (c.age true).status ≠ .reaped := of_decide_eq_false (Option.some.inj hj)
          revert hnot hrunning hnotReaped
          cases (c.age true).status <;> simp
    rcases h with hlen | ⟨-, h2⟩
    · obtain ⟨pid, c, hc, hne⟩ : ∃ (pid : Nat) (c : Child),
          (s.tick (slowEnv slow)).children[pid]? = some c ∧ c.status ≠ .reaped := by
        by_contra hall
        refine hleft (Process.left_eq_zero.mpr fun pid c hc => ?_)
        by_contra hne
        exact hall ⟨pid, c, hc, hne⟩
      have hpid : pid = slow := hslow pid (by
        unfold Process.reapedFlags
        rw [List.getElem?_map, hc]
        exact congrArg some (decide_eq_false hne))
      have hlt := (List.getElem?_eq_some_iff.mp hc).1
      rw [Process.length_tick] at hlt
      omega
    · have h1 := count_false_le_one hslow
      have h1' : (s.tick (slowEnv slow)).left ≤ 1 := h1
      rw [Process.left_tick] at h1'
      omega

/-- Waiting while more than the slow child is left does not wait for it. -/
theorem waitLoop_slow (slow : Nat) {n : Nat} {s : Process}
    (h : s.children.length ≤ slow ∨ s.Runs slow ∧ n + 1 ≤ s.left) :
    ∃ t, waitLoop (slowEnv slow) n s = .ok ⟨⟩ t ∧ (s.Runs slow → t.Runs slow) := by
  induction n generalizing s with
  | zero => exact ⟨s, rfl, id⟩
  | succ n ih =>
      obtain ⟨r, u, hwait, hruns⟩ := wait_slow (h.imp_right fun hr => ⟨hr.1, by omega⟩)
      have hu := wait_ok hwait
      obtain ⟨v, hsay, hchildren⟩ : ∃ v, Cmd.when (r = none) (say (.perror "Error wait")) u = .ok ⟨⟩ v ∧
          v.children = u.children := by
        by_cases hr : r = none
        · rw [Cmd.when_pos hr]
          exact ⟨_, rfl, rfl⟩
        · rw [Cmd.when_neg hr]
          exact ⟨_, rfl, rfl⟩
      have hrunsV : u.Runs slow → v.Runs slow := by
        unfold Process.Runs
        rw [hchildren]
        exact id
      have hleft : v.left = s.left - 1 := by
        rw [← hu.left]
        unfold Process.left Process.reapedFlags
        rw [hchildren]
      obtain ⟨t, hloop, hrunsT⟩ := ih (s := v) (by
        rcases h with hlen | ⟨hr, hn⟩
        · exact .inl (by rw [hchildren, hu.length]; exact hlen)
        · exact .inr ⟨hrunsV (hruns hr), by omega⟩)
      refine ⟨t, ?_, fun hr => hrunsT (hrunsV (hruns hr))⟩
      rw [waitLoop, Cmd.bind_ok hwait, Cmd.bind_ok hsay, hloop]

/-- A pipeline in the slow environment returns, when the slow child comes later, or when it is one of
the pipeline's own and there are enough other children to wait for. -/
theorem executePipeline_slow (slow : Nat) {p : Pipeline} (hends : p.endsShell = false) {s : Process}
    (h : s.children.length + p.forkCount ≤ slow ∨
      p.forks = true ∧ 0 < s.left ∧ s.children.length ≤ slow ∧
        slow < s.children.length + p.forkCount) :
    ∃ t, executePipeline (slowEnv slow) p s = .ok ⟨⟩ t ∧
      (slow < s.children.length + p.forkCount → t.Runs slow) := by
  -- Where nothing is forked, nobody is waited for and `slow` is not reached.
  by_cases hforks : p.forks = true
  · have hcount : p.forkCount = p.scmds.length := if_pos hforks
    obtain ⟨scmd, scmds, hscmds⟩ := List.exists_cons_of_ne_nil (Pipeline.ne_nil_of_forks hforks)
    rw [hcount, hscmds, List.length_cons] at h
    rw [executePipeline_forks _ hforks, hcount, hscmds, List.length_cons]
    obtain ⟨u, hrun, hspawn⟩ :=
      executeLoop_run (slowEnv_succeeds slow) p.wait scmd scmds none 0 s
    rw [hrun, Nat.zero_add]
    -- The slow child was forked by this pipeline when the count passes its number.
    have hruns (hlt : slow < s.children.length + (scmds.length + 1))
        (hle : s.children.length ≤ slow) : u.Runs slow :=
      hspawn.runs slow (fun call => slowEnv_ended slow call) (.inr ⟨hle, hlt⟩)
    by_cases hwait : p.wait = true
    · rw [Cmd.when_pos hwait]
      obtain ⟨t, ht, hrunsT⟩ := waitLoop_slow slow (n := scmds.length + 1) (s := u) (by
        rcases h with hle | ⟨-, hleft, hle, hlt⟩
        · exact .inl (by rw [hspawn.length]; exact hle)
        · exact .inr ⟨hruns hlt hle, by rw [hspawn.left]; omega⟩)
      refine ⟨t, ht, fun hlt => hrunsT ?_⟩
      rcases h with hle | ⟨-, -, hle, -⟩
      · omega
      · exact hruns hlt hle
    · rw [Cmd.when_neg hwait]
      refine ⟨u, rfl, fun hlt => ?_⟩
      rcases h with hle | ⟨-, -, hle, -⟩
      · omega
      · exact hruns hlt hle
  · have hcount : p.forkCount = 0 := if_neg hforks
    rw [hcount, Nat.add_zero] at h ⊢
    have hle : s.children.length ≤ slow := h.elim id fun h' => h'.2.2.1
    obtain ⟨t, ht⟩ := executePipeline_returns (slowEnv slow) hends (eq_false_of_ne_true hforks) s
    exact ⟨t, ht, fun hlt => absurd hlt (Nat.not_lt.mpr hle)⟩

/-! ## Sequences of pipelines -/

/-- A shell that has just been started. -/
def Process.start (fds : FdTable OpenFile) (cwd : String) : Process where
  fds := fds
  pipes := 0
  children := []
  calls := 0
  cwd := cwd
  output := []

/-- Along a sequence of pipelines, whenever `execute_pipeline` returns for one in the foreground, none
of the children forked for it is running. -/
def ForegroundWaited (env : Env) : Process → List Pipeline → Prop
  | _, [] => True
  | s, p :: ps => ∀ t, executePipeline env p s = .ok ⟨⟩ t →
      (p.wait = true → ∀ (pid : Nat) (c : Child), s.children.length ≤ pid →
        t.children[pid]? = some c → c.status ≠ .running) ∧
      ForegroundWaited env t ps

/-- No foreground pipeline that forks comes after a background one that forks, among the pipelines run
before one ends the shell. -/
def NoForegroundAfterBackground (ps : List Pipeline) : Prop :=
  (ps.takeWhile fun p => !p.endsShell).Pairwise fun p q =>
    p.forks = true → p.wait = false → q.forks = true → q.wait = false

/-- The condition on the pipelines to come, when children of the background may be left. -/
def SafeAfter : Bool → List Pipeline → Prop
  | _, [] => True
  | pending, p :: ps => p.endsShell = true ∨
      (p.forks = true → p.wait = true → pending = false) ∧
        SafeAfter (pending || p.forks && !p.wait) ps

/-- The condition of the loop, carried along the pipelines, is the one on pairs. -/
theorem safeAfter_iff (pending : Bool) (ps : List Pipeline) :
    SafeAfter pending ps ↔
      (pending = true → ∀ q ∈ ps.takeWhile fun p => !p.endsShell, q.forks = true → q.wait = false) ∧
        NoForegroundAfterBackground ps := by
  unfold NoForegroundAfterBackground
  induction ps generalizing pending with
  | nil => simp [SafeAfter]
  | cons p ps ih =>
      rw [SafeAfter]
      by_cases hends : p.endsShell = true
      · simp [hends]
      · rw [or_iff_right hends, ih, List.takeWhile_cons_of_pos (by simpa using hends),
          List.pairwise_cons]
        cases pending <;> cases hforks : p.forks <;> cases hwait : p.wait <;> simp_all

/-- A sequence that is safe is waited for in every environment. -/
theorem foregroundWaited_of_safeAfter (env : Env) {pending : Bool} {ps : List Pipeline} {s : Process}
    (h : SafeAfter pending ps) (hleft : s.left ≠ 0 → pending = true) : ForegroundWaited env s ps := by
  -- By induction over the pipelines: a zombie left behind is always announced by `pending`.
  induction ps generalizing pending s with
  | nil => trivial
  | cons p ps ih =>
      intro t ht
      -- What follows a pipeline that ends the shell is not asked for.
      have hends : ¬ p.endsShell = true := by
        intro hends
        obtain ⟨stop, hstop⟩ := executePipeline_endsShell env hends s
        rw [ht] at hstop
        cases hstop
      obtain ⟨hfore, hsafe⟩ := h.resolve_left hends
      have hgrown := executePipeline_ok ht
      refine ⟨fun hwait pid c hle hc => ?_, ih hsafe fun hne => ?_⟩
      · have hlt := (List.getElem?_eq_some_iff.mp hc).1
        have hcount : 0 < p.forkCount := by
          rw [hgrown.length] at hlt
          omega
        have hforks : p.forks = true := by
          by_contra hno
          rw [Pipeline.forkCount, if_neg hno] at hcount
          exact Nat.lt_irrefl 0 hcount
        -- No child was left over, so the counting waits reap exactly those of this pipeline.
        have hzero : s.left = 0 := by
          by_contra hne
          have := hleft hne
          rw [hfore hforks hwait] at this
          cases this
        have hzero' : t.left = 0 := by
          rw [hgrown.left, if_pos hwait, hzero, Nat.zero_add, Nat.sub_self]
        rw [Process.left_eq_zero.mp hzero' pid c hc]
        decide
      -- Only a background pipeline leaves children behind, and it sets `pending`.
      · by_cases hback : p.forks = true ∧ p.wait = false
        · rw [hback.1, hback.2]
          simp
        · have hsame : t.left = s.left := by
            rw [hgrown.left]
            cases hwait : p.wait with
            | true => simp
            | false =>
                have hforks : ¬ p.forks = true := fun hf => hback ⟨hf, hwait⟩
                rw [Pipeline.forkCount, if_neg hforks]
                simp
          rw [hleft (by rw [← hsame]; exact hne)]
          rfl

/-- A sequence that is not safe is not waited for when the right child is slow. -/
theorem not_foregroundWaited {pending : Bool} {ps : List Pipeline} (h : ¬ SafeAfter pending ps) :
    ∃ k, ∀ s : Process, (pending = true → 0 < s.left) →
      ¬ ForegroundWaited (slowEnv (s.children.length + k)) s ps := by
  induction ps generalizing pending with
  | nil => exact absurd trivial h
  | cons p ps ih =>
      rw [SafeAfter, not_or, not_and_or] at h
      obtain ⟨hends, hbad⟩ := h
      have hends' := eq_false_of_ne_true hends
      by_cases hfore : p.forks = true → p.wait = true → pending = false
      · obtain ⟨k, hk⟩ := ih (hbad.resolve_left (not_not.mpr hfore))
        refine ⟨p.forkCount + k, fun s hleft hwaited => ?_⟩
        obtain ⟨t, ht, -⟩ := executePipeline_slow (s.children.length + (p.forkCount + k))
          hends' (s := s) (.inl (by omega))
        have hgrown := executePipeline_ok ht
        have hlength : s.children.length + (p.forkCount + k) = t.children.length + k := by
          rw [hgrown.length]
          omega
        refine hk t (fun hpending => ?_) (hlength ▸ (hwaited t ht).2)
        rw [hgrown.left]
        cases hwait : p.wait with
        | true =>
            rw [hwait] at hpending
            have := hleft (by simpa using hpending)
            simpa using this
        | false =>
            rcases Bool.or_eq_true _ _ ▸ hpending with hp | hp
            · have := hleft hp
              simp only [Bool.false_eq_true, if_false]
              omega
            · have := p.forkCount_pos (Bool.and_eq_true _ _ ▸ hp).1
              simp only [Bool.false_eq_true, if_false]
              omega
      · -- the first child of this foreground pipeline is the slow one
        have hcase : p.forks = true ∧ p.wait = true ∧ pending = true := by
          cases hforks : p.forks <;> cases hwait : p.wait <;> cases pending <;> simp_all
        obtain ⟨hforks, hwait, hpending⟩ := hcase
        refine ⟨0, fun s hleft hwaited => ?_⟩
        have hpos := p.forkCount_pos hforks
        obtain ⟨t, ht, hruns⟩ := executePipeline_slow (s.children.length + 0) hends' (s := s)
          (.inr ⟨hforks, hleft hpending, Nat.le_refl _, by omega⟩)
        obtain ⟨c, hc, hst⟩ := hruns (by omega)
        exact (hwaited t ht).1 hwait _ c (Nat.le_refl _) hc hst

/-- For every order in which the children terminate, every foreground pipeline of a shell is waited
for, just when none that forks comes after a background one that forks. -/
theorem foregroundWaited_iff (fds : FdTable OpenFile) (cwd : String) (ps : List Pipeline) :
    (∀ env, ForegroundWaited env (Process.start fds cwd) ps) ↔ NoForegroundAfterBackground ps := by
  have hiff : SafeAfter false ps ↔ NoForegroundAfterBackground ps := by
    rw [safeAfter_iff]
    exact and_iff_right fun h => absurd h (by decide)
  rw [← hiff]
  constructor
  · intro h
    by_contra hunsafe
    obtain ⟨k, hk⟩ := not_foregroundWaited hunsafe
    exact hk (Process.start fds cwd) (fun h => absurd h (by decide)) (h _)
  · exact fun h env => foregroundWaited_of_safeAfter env h fun hne => absurd rfl hne

/-- After `sleep 9 &`, the wait for `ls` may return the `sleep`. -/
theorem not_forall_foregroundWaited :
    ¬ ∀ (env : Env) (fds : FdTable OpenFile) (cwd : String) (ps : List Pipeline),
      ForegroundWaited env (Process.start fds cwd) ps := by
  intro hall
  have hunsafe : ¬ SafeAfter false [⟨[⟨["sleep", "9"], none, none⟩], false⟩,
      ⟨[⟨["ls"], none, none⟩], true⟩] := by
    rintro (h | ⟨-, h | ⟨h, -⟩⟩)
    · exact absurd h (by decide)
    · exact absurd h (by decide)
    · exact absurd (h (by decide) rfl) (by decide)
  obtain ⟨k, hk⟩ := not_foregroundWaited hunsafe
  exact hk (Process.start ⟨fun _ => none, 0, fun _ _ => rfl⟩ "/") (fun h => absurd h (by decide))
    (hall _ _ _ _)

end OsLabs.Shell
