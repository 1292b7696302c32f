import Mathlib.Algebra.GroupWithZero.Nat
import OsLabs.Shell.Wiring
import OsLabs.Shell.Mybash

/-! # What the shell leaves behind

A pipeline leaves in the shell the read ends of all its pipes but the last, and a background pipeline
its children, which nobody waits for. `mainLoop_leaks`: over a whole text, the open descriptors of the
shell grow by the number of commands of each pipeline beyond its second, and the children that were
never waited for by the number of commands of each background pipeline. -/

namespace OsLabs.Shell

open Cmd

/-! ## Descriptors of the shell -/

/-- The descriptors are the same. -/
structure SameFds (s t : Process) : Prop where
  fds : t.fds = s.fds

instance : Std.Refl SameFds := ⟨fun _ => ⟨rfl⟩⟩

instance : IsTrans Process SameFds := ⟨fun _ _ _ h h' => ⟨h'.fds.trans h.fds⟩⟩

/-- A builtin says something or changes the directory. -/
theorem within_builtinRun_of {R : Process → Process → Prop} [Std.Refl R] [IsTrans Process R] {env : Env}
    (hsay : ∀ line, Within R (say line)) (hchdir : ∀ path, Within R (chdir env path)) (cmd : Scommand) :
    Within R (builtinRun env cmd) := by
  have hfront (scmd : Scommand) : Within R (scommandFront scmd) := by
    unfold scommandFront
    split
    · exact within_throw _
    · exact within_pure _
  have hpop (scmd : Scommand) : Within R (scommandPopFront scmd) := by
    unfold scommandPopFront
    split
    · exact within_throw _
    · exact within_pure _
  have hinternal : Within R (builtinIsInternal cmd) := (hfront cmd).bind fun _ => within_pure _
  refine hinternal.bind fun internal => within_ite (fun _ => ?_) fun _ => within_throw _
  refine (hfront cmd).bind fun cmdType => within_ite (fun _ => ?_) fun _ => ?_
  · refine within_ite (fun _ => ?_) fun _ => ?_
    · exact (hpop cmd).bind fun cmd' => (hfront cmd').bind fun filename =>
        (hchdir filename).bind fun _ => within_when fun _ => hsay _
    · split
      · exact within_pure _
      · exact (hchdir _).bind fun _ => within_pure _
  · refine within_ite (fun _ => ?_) fun _ => within_ite (fun _ => within_throw _) fun _ => within_pure _
    exact (hsay _).bind fun _ => (hsay _).bind fun _ => hsay _

/-- A message opens nothing. -/
theorem within_sameFds_say (line : Line) : Within SameFds (say line) := fun _ => ⟨rfl⟩

/-- `chdir` opens nothing. -/
theorem within_sameFds_chdir (env : Env) (path : String) : Within SameFds (chdir env path) := by
  refine within_get.bind fun s => ?_
  split
  · exact within_pure _
  · exact (within_modify fun _ => ⟨rfl⟩).bind fun _ => within_pure _

section Scmd

variable {env : Env} {s t : Process}

/-- A `pipe` that succeeds opens its two ends. -/
theorem pipe_ok {ends : Nat × Nat} (h : pipe env s = .ok (some ends) t) :
    ends = (s.fds.lowestFree, pipeWriteEnd s.fds s.pipes) ∧ t.fds = openPipe s.fds s.pipes := by
  unfold pipe at h
  rw [get_bind, modify_bind, ite_run] at h
  split_ifs at h
  · cases h
    exact ⟨rfl, rfl⟩
  · cases h

/-- `fork` opens nothing in the parent. -/
theorem fork_sameFds {child : ShellM Exec} {forked : Bool} (h : fork env child s = .ok forked t) :
    t.fds = s.fds := by
  unfold fork at h
  rw [get_bind, modify_bind, ite_run] at h
  split_ifs at h
  · cases h
    rfl
  · cases h
    rfl

/-- A command that returns leaves the shell with the read end of its pipe; the last one closes the read
end it was given. -/
theorem executeScmd_fds {scmd : Scommand} {isPipe isWait : Bool} {fdIn fdOut : Option Nat} {k : Nat}
    {r : Option Nat × Nat} (h : executeScmd env scmd isPipe isWait fdIn fdOut k s = .ok r t) :
    (isPipe = true → r.1 = some s.fds.lowestFree ∧ t.fds = parentFds s.fds s.pipes) ∧
      (isPipe = false → t.fds = fdIn.elim s.fds s.fds.close) := by
  unfold executeScmd at h
  rw [bind_ok (getArgv_run scmd s)] at h
  dsimp only at h
  cases isPipe with
  -- Without a pipe the parent closes only the descriptor it was given.
  | false =>
      rw [if_neg (by decide), pure_bind_run] at h
      obtain ⟨forked, u, hfork, hrest⟩ := bind_eq_ok.mp h
      have hu := fork_sameFds hfork
      cases forked with
      | false => cases hrest
      | true =>
          refine ⟨fun hno => absurd hno (by decide), fun _ => ?_⟩
          rw [← hu]
          cases fdIn with
          | none =>
              cases hrest
              rfl
          | some fd =>
              cases hrest
              rfl
  | true =>
      -- With one, the read end stays open for the command that follows.
      rw [if_pos rfl] at h
      obtain ⟨created, u, hpipe, hrest⟩ := bind_eq_ok.mp h
      cases created with
      | none => cases hrest
      | some ends =>
          dsimp only at hrest
          rw [pure_bind_run] at hrest
          obtain ⟨rfl, hopen⟩ := pipe_ok hpipe
          obtain ⟨forked, v, hfork, hrest⟩ := bind_eq_ok.mp hrest
          have hv := fork_sameFds hfork
          cases forked with
          | false => cases hrest
          | true =>
              cases hrest
              refine ⟨fun _ => ⟨rfl, ?_⟩, fun hno => absurd hno (by decide)⟩
              show v.fds.close _ = _
              rw [hv, hopen]
              rfl

/-- The parent keeps one end of the pipe open. -/
theorem card_opened_parentFds (t : FdTable OpenFile) (n : Nat) :
    (parentFds t n).opened.card = t.opened.card + 1 := by
  have hwrite : (openPipe t n).entry (pipeWriteEnd t n) ≠ none := by
    rw [entry_openPipe, if_pos rfl]
    simp
  have hclose := FdTable.card_opened_close hwrite
  unfold openPipe at hclose
  rw [FdTable.card_opened_openFile, FdTable.card_opened_openFile] at hclose
  unfold parentFds openPipe
  omega

/-- The commands of a pipeline leave a descriptor open for each one but the last two; the read end
that was carried to the first one is closed in addition, or stays open in its place. -/
theorem executeLoop_opened {isWait : Bool} {scmd : Scommand} {scmds : List Scommand}
    {fdIn fdOut : Option Nat} {k : Nat} (hopen : ∀ fd ∈ fdIn, s.fds.entry fd ≠ none)
    (h : executeLoop env isWait (scmd :: scmds) fdIn fdOut k s = .ok ⟨⟩ t) :
    t.fds.opened.card + (if fdIn.isSome then 1 else 0) =
      s.fds.opened.card + (if fdIn.isSome then scmds.length else scmds.length - 1) := by
  induction scmds generalizing scmd fdIn k s with
  | nil =>
      obtain ⟨⟨fdIn', k'⟩, u, hscmd, h'⟩ := bind_eq_ok.mp h
      obtain ⟨⟨⟩, v, hwait, h''⟩ := bind_eq_ok.mp h'
      cases h''
      have hfds := (executeScmd_fds hscmd).2 rfl
      have hkeeps : t.fds = u.fds := ((within_when fun _ => within_waitLoop env k').ok hwait).1
      rw [hkeeps, hfds]
      cases fdIn with
      | none => rfl
      | some fd => exact FdTable.card_opened_close (hopen fd rfl)
  | cons scmd' scmds ih =>
      obtain ⟨⟨fdIn', k'⟩, u, hscmd, h'⟩ := bind_eq_ok.mp h
      obtain ⟨⟨⟩, v, hwait, h''⟩ := bind_eq_ok.mp h'
      obtain ⟨hread, hfds⟩ := (executeScmd_fds hscmd).1 (by simp)
      have hkeeps : v.fds = u.fds := ((within_when fun _ => within_waitLoop env k').ok hwait).1
      dsimp only at hread
      have hread' : v.fds.entry s.fds.lowestFree ≠ none := by
        rw [hkeeps, hfds, entry_parentFds, if_pos rfl]
        simp
      subst hread
      have hrest := ih (by simpa using hread') h''
      rw [hkeeps, hfds, card_opened_parentFds, Option.isSome_some, if_pos rfl, if_pos rfl] at hrest
      rw [List.length_cons]
      split_ifs <;> omega

end Scmd

/-! ## Pipelines -/

/-- The descriptors that a pipeline leaves open. -/
def Pipeline.leaked (p : Pipeline) : Nat := if p.forks then p.scmds.length - 2 else 0

/-- The children that a pipeline leaves without waiting for as many. -/
def Pipeline.unwaited (p : Pipeline) : Nat := if p.wait then 0 else p.forkCount

section Pipelines

variable {env : Env} {s t : Process}

/-- A pipeline that is not run by forking keeps the descriptors. -/
theorem executePipeline_sameFds {p : Pipeline} (hforks : p.forks = false)
    (h : executePipeline env p s = .ok ⟨⟩ t) : t.fds = s.fds := by
  by_cases hempty : p.scmds = []
  · unfold executePipeline at h
    rw [ite_run, if_pos (by unfold pipelineIsEmpty pipelineLength; rw [hempty]; rfl)] at h
    cases h
    rfl
  · by_cases hends : p.endsShell = false
    · obtain ⟨scmd, -, hrun⟩ := executePipeline_builtin env hends hforks hempty s
      rw [hrun] at h
      exact ((within_builtinRun_of within_sameFds_say (within_sameFds_chdir env) scmd).ok h).fds
    · obtain ⟨stop, hstop⟩ := executePipeline_endsShell env (eq_true_of_ne_false hends) s
      rw [h] at hstop
      cases hstop

/-- What a pipeline that returns leaves behind. -/
theorem executePipeline_leaves {p : Pipeline} (h : executePipeline env p s = .ok ⟨⟩ t) :
    t.fds.opened.card = s.fds.opened.card + p.leaked ∧ t.left = s.left + p.unwaited := by
  constructor
  · unfold Pipeline.leaked
    by_cases hforks : p.forks = true
    · obtain ⟨scmd, scmds, hscmds⟩ := List.exists_cons_of_ne_nil (Pipeline.ne_nil_of_forks hforks)
      rw [executePipeline_forks env hforks, hscmds] at h
      have hopened := executeLoop_opened (fun fd hfd => by cases hfd) h
      rw [if_pos hforks, hscmds]
      simpa using hopened
    · rw [if_neg hforks, executePipeline_sameFds (eq_false_of_ne_true hforks) h]
      rfl
  · have hgrown := (executePipeline_ok h).left
    unfold Pipeline.unwaited
    split_ifs at hgrown ⊢ with hwait
    · omega
    · omega

/-- Running what was parsed leaves behind what the pipelines do. -/
theorem runAll_leaves {results : List (Option Pipeline)} (h : runAll env results s = .ok ⟨⟩ t) :
    t.fds.opened.card = s.fds.opened.card + ((results.filterMap id).map Pipeline.leaked).sum ∧
      t.left = s.left + ((results.filterMap id).map Pipeline.unwaited).sum := by
  have hprompt {u v : Process} (hshow : showPrompt u = .ok ⟨⟩ v) : v.fds = u.fds ∧ v.left = u.left := by
    have hfds : Within SameFds showPrompt :=
      within_get.bind fun _ => within_when fun _ => within_sameFds_say _
    have hleft : Within SameChildren showPrompt :=
      within_get.bind fun _ => within_when fun _ => within_say _
    exact ⟨(hfds.ok hshow).fds, (hleft.ok hshow).left⟩
  induction results generalizing s with
  | nil =>
      cases h
      exact ⟨rfl, rfl⟩
  | cons result results ih =>
      cases result with
      | none =>
          obtain ⟨⟨⟩, u, hshow, hrun⟩ := bind_eq_ok.mp h
          obtain ⟨hfds, hleft⟩ := hprompt hshow
          rw [List.filterMap_cons_none rfl, ← hfds, ← hleft]
          exact ih hrun
      | some p =>
          obtain ⟨⟨⟩, u, hshow, hrun⟩ := bind_eq_ok.mp h
          obtain ⟨⟨⟩, v, hexec, hrun⟩ := bind_eq_ok.mp hrun
          obtain ⟨hfds, hleft⟩ := hprompt hshow
          obtain ⟨hleaked, hunwaited⟩ := executePipeline_leaves hexec
          obtain ⟨hopened', hleft'⟩ := ih hrun
          have hcons : (some p :: results).filterMap id = p :: results.filterMap id := rfl
          rw [hcons, List.map_cons, List.map_cons, List.sum_cons, List.sum_cons,
            ← hfds, ← hleft, hopened', hleft', hleaked, hunwaited, Nat.add_assoc, Nat.add_assoc]
          exact ⟨rfl, rfl⟩

end Pipelines

/-! ## A whole text -/

/-- **What the shell leaves behind over a text.** When `main` gets through a text, in whatever
environment, its open descriptors have grown by what the pipelines of the lines leak, and its children
that were not waited for by those of the background pipelines. -/
theorem mainLoop_leaks {P : Type} {parser : Parser P} {rest : P → List Char} (h : Documented parser rest)
    (hend : ∀ p, '\n' ∉ rest p → parser.atEof (parser.garbage p).2 = true) (env : Env) {p : P}
    (heof : parser.atEof p = false) {fuel : Nat} (hfuel : (rest p).length + 2 < fuel) :
    ∃ results, Reads (rest p) results ∧
      ∀ s t, processResult (mainLoop parser env fuel false (p, s)) = some (.ok ⟨⟩ t) →
        t.fds.opened.card = s.fds.opened.card + ((results.filterMap id).map Pipeline.leaked).sum ∧
          t.left = s.left + ((results.filterMap id).map Pipeline.unwaited).sum := by
  obtain ⟨results, hreads, hrun⟩ := mainLoop_lines h hend env heof hfuel
  refine ⟨results, hreads, fun s t ht => ?_⟩
  rw [hrun s] at ht
  exact runAll_leaves (Option.some.inj ht)

/-- Two lines with three commands each, the second one in the background, at a terminal. -/
theorem mainLoop_leaks_atTerminal :
    ∃ results t, Reads "a | b | c\na | b | c &".toList results ∧
      processResult (mainLoop textParser (slowEnv 9) 30 false ("a | b | c\na | b | c &".toList, atTerminal)) =
        some (.ok ⟨⟩ t) ∧
      t.fds.opened.card = atTerminal.fds.opened.card + ((results.filterMap id).map Pipeline.leaked).sum ∧
      t.left = atTerminal.left + ((results.filterMap id).map Pipeline.unwaited).sum := by
  have hrun : (processResult (mainLoop textParser (slowEnv 9) 30 false
      ("a | b | c\na | b | c &".toList, atTerminal))).bind ret? = some ⟨⟩ := by decide +kernel
  obtain ⟨r, hr, hret⟩ := Option.bind_eq_some_iff.mp hrun
  obtain ⟨t, rfl⟩ := ret?_eq_some hret
  have hfuel : (id "a | b | c\na | b | c &".toList).length + 2 < 30 := by decide
  obtain ⟨results, hreads, hleaves⟩ :=
    mainLoop_leaks textParser_documented textParser_atEof_garbage (slowEnv 9) rfl hfuel
  exact ⟨results, t, hreads, hr, hleaves atTerminal t hr⟩

end OsLabs.Shell
