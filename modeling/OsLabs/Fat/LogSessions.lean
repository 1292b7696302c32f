import OsLabs.Fat.CleanWrites
import OsLabs.Fat.LogCalls
import OsLabs.Fat.Session

/-! # The log over a session

The log is a node like any other: it is made at the end of a listing, found among the entries of the
root directory, created or deleted by its path. `fat_fuse_log_activity` takes it for granted all the
same. `logsRight_iff`: in a run of operations on a volume just mounted, it finds the log and its parent
whenever it runs, and does no harm to the operation, exactly when every read and write that gets to logging
is called while some node has the path of the log, and every line fits: in the array it is assembled in, and
behind the end of the log. -/

namespace OsLabs.Fat

open Cmd Transition

/-! ## Paths below others -/

/-- The path of the directory of a path is a beginning of it, the root or `"."`. -/
theorem dirname_cases (path : CString) :
    (dirname path ≠ [] ∧ dirname path <+: path) ∨
      (path.head? = some slash ∧ dirname path = rootPath) ∨ dirname path = [dot] := by
  unfold dirname
  dsimp only
  split_ifs with hparent hslash
  · left
    refine ⟨by simpa using hparent, ?_⟩
    -- what is left of the reversed path after dropping is at its end
    have hsuffix := ((List.dropWhile_suffix (l := (path.reverse.dropWhile (· = slash)).dropWhile (· ≠ slash))
      (· = slash)).trans (List.dropWhile_suffix (· ≠ slash))).trans
        (List.dropWhile_suffix (l := path.reverse) (· = slash))
    rw [← List.reverse_prefix, List.reverse_reverse] at hsuffix
    exact hsuffix
  · exact .inr (.inl ⟨hslash, rfl⟩)
  · exact .inr (.inr rfl)

/-- What is beneath an absolute path is absolute. -/
theorem Beneath.head {dirpath path : CString} (h : Beneath dirpath path)
    (hdir : dirpath.head? = some slash) : path.head? = some slash := by
  rcases h with rfl | ⟨name, rfl⟩
  · rcases dirname_cases path with ⟨hne, hprefix⟩ | ⟨hpath, -⟩ | hdot
    · obtain ⟨rest, heq⟩ := hprefix
      rw [← heq, List.head?_append_of_ne_nil _ hne]
      exact hdir
    · exact hpath
    · rw [hdot] at hdir
      exact absurd hdir (by decide)
  · have hne : dirpath ≠ [] := by
      rintro rfl
      cases hdir
    unfold filepathFromName
    split_ifs
    · rw [List.head?_append_of_ne_nil _ hne]
      exact hdir
    · rw [List.head?_append_of_ne_nil _ hne]
      exact hdir

/-- The log is beneath the root only. -/
theorem Beneath.eq_rootPath {dirpath : CString} (h : Beneath dirpath fsLogPath)
    (hdir : dirpath.head? = some slash) : dirpath = rootPath := by
  rcases h with rfl | ⟨name, heq⟩
  · decide
  obtain ⟨rest, rfl⟩ : ∃ rest, dirpath = slash :: rest := by
    cases dirpath with
    | nil => cases hdir
    | cons c rest =>
        cases hdir
        exact ⟨rest, rfl⟩
  -- there is no slash behind the first one
  have hslash : slash ∉ fsLogName := by decide
  unfold filepathFromName at heq
  split_ifs at heq with hlast
  · obtain ⟨-, htail⟩ := List.cons.inj heq
    refine absurd ?_ hslash
    rw [htail]
    simp
  · obtain ⟨-, htail⟩ := List.cons.inj heq
    cases rest with
    | nil => rfl
    | cons c rest =>
        refine absurd ?_ hslash
        have hmem : slash ∈ c :: rest := by
          apply List.mem_of_getLast?
          simpa using hlast
        rw [htail]
        exact List.mem_append_left name hmem

/-! ## The parent of the log -/

/-- The root directory is there, all paths are absolute, and the log is below the root. -/
structure LogRooted (E : Nat → Option TreeEntry) : Prop where
  root : ∃ e, E 0 = some e ∧ e.path = rootPath ∧ e.parent = none
  absolute : ∀ a e, E a = some e → e.path.head? = some slash
  log : ∀ a e, E a = some e → e.path = fsLogPath → e.parent = some 0

section Rooted

variable {E E' : Nat → Option TreeEntry}

/-- New entries are below others. -/
theorem LogRooted.enlarged {u : State} (hwf : u.TreeWf) (h : LogRooted E)
    (hE : Enlarged E u.treeEntry) : LogRooted u.treeEntry := by
  obtain ⟨p, t, hok⟩ := hwf
  -- by induction on the age of the node: its parent is older
  have habsolute : ∀ a e, u.treeEntry a = some e → e.path.head? = some slash := by
    intro a
    induction a using Nat.strong_induction_on with
    | _ a ih =>
        intro e he
        cases hnone : E a with
        | some e' =>
            rw [hE.kept a e' hnone] at he
            cases he
            exact h.absolute a _ hnone
        | none =>
            obtain ⟨q, d, hq, hd, hbeneath⟩ := hE.beneath a e he hnone
            exact hbeneath.head (ih q (hok.parent_lt a e q he hq) d hd)
  obtain ⟨r, hr, hrpath, hrparent⟩ := h.root
  refine ⟨⟨r, hE.kept 0 r hr, hrpath, hrparent⟩, habsolute, fun a e he hpath => ?_⟩
  cases hnone : E a with
  | some e' =>
      rw [hE.kept a e' hnone] at he
      cases he
      exact h.log a _ hnone hpath
  | none =>
      obtain ⟨q, d, hq, hd, hbeneath⟩ := hE.beneath a e he hnone
      rw [hpath] at hbeneath
      have hroot := hbeneath.eq_rootPath (habsolute q d hd)
      rw [hq, hok.path_inj ⟨d, hd, hroot⟩ ⟨r, hE.kept 0 r hr, hrpath⟩]

/-- Open counts do not matter. -/
theorem LogRooted.counted {g : Nat → Nat} {r : Ptr} (h : LogRooted E) (hE : Counted g r E E') :
    LogRooted E' := by
  have hsame (b : Nat) (e : TreeEntry) (he : E' b = some e) :
      ∃ e₀, E b = some e₀ ∧ e.path = e₀.path ∧ e.parent = e₀.parent := by
    by_cases hb : ∃ a, r = some a ∧ Reaches E a b
    · obtain ⟨a, hr, hab⟩ := hb
      rw [hE.on a hr b hab] at he
      obtain ⟨e₀, he₀, rfl⟩ := Option.map_eq_some_iff.mp he
      exact ⟨e₀, he₀, rfl, rfl⟩
    · rw [hE.off b fun a hr hab => hb ⟨a, hr, hab⟩] at he
      exact ⟨e, he, rfl, rfl⟩
  obtain ⟨e, he, hpath, hparent⟩ := h.root
  have hmap := hE.parents 0
  rw [he, Option.map_some] at hmap
  obtain ⟨e', he', -⟩ := Option.map_eq_some_iff.mp hmap
  obtain ⟨e₀, he₀, hpath₀, hparent₀⟩ := hsame 0 e' he'
  rw [he] at he₀
  cases he₀
  refine ⟨⟨e', he', hpath₀.trans hpath, hparent₀.trans hparent⟩, fun a f hf => ?_, fun a f hf hlog => ?_⟩
  · obtain ⟨f₀, hf₀, hpath', -⟩ := hsame a f hf
    rw [hpath']
    exact h.absolute a f₀ hf₀
  · obtain ⟨f₀, hf₀, hpath', hparent'⟩ := hsame a f hf
    rw [hparent']
    exact h.log a f₀ hf₀ (hpath' ▸ hlog)

/-- A node with a parent may be dropped. -/
theorem LogRooted.dropped (h : LogRooted E) {a : Nat} (ha : a ≠ 0) :
    LogRooted (Function.update E a none) := by
  have hback (b : Nat) (e : TreeEntry) (he : Function.update E a none b = some e) : E b = some e := by
    by_cases hb : b = a
    · rw [hb, Function.update_self] at he
      cases he
    · rwa [Function.update_of_ne hb] at he
  obtain ⟨e, he, hpath, hparent⟩ := h.root
  refine ⟨⟨e, ?_, hpath, hparent⟩, fun b f hf => h.absolute b f (hback b f hf), fun b f hf hlog =>
    h.log b f (hback b f hf) hlog⟩
  rw [Function.update_of_ne (Ne.symm ha), he]

/-- The invariant of the log is kept by every call. -/
theorem Moves.logRooted {env : Env} {s t : Session} {op : Op} (hwf : t.vol.TreeWf)
    (h : LogRooted s.vol.treeEntry) (hm : Moves env s op t) : LogRooted t.vol.treeEntry := by
  cases hm with
  | enlarged entries => exact h.enlarged hwf entries
  | opened a _ entries => exact h.counted entries
  | released a _ entries => exact h.counted entries
  | truncated a _ entries => exact h.counted entries
  | dropped a drops entries =>
      rw [entries]
      apply h.dropped
      rintro rfl
      -- the root directory is below no other one
      obtain ⟨r, hr, -, hrparent⟩ := h.root
      have hparent : ∃ e q, s.vol.treeEntry 0 = some e ∧ e.parent = some q := by
        cases op with
        | unlink path =>
            obtain ⟨e, he, -, -, q, d, hq, -⟩ := drops
            exact ⟨e, q, he, hq⟩
        | rmdir path =>
            obtain ⟨e, he, -, -, ⟨q, d, hq, -⟩, -⟩ := drops
            exact ⟨e, q, he, hq⟩
        | _ => exact drops.elim
      obtain ⟨e, q, he, hq⟩ := hparent
      rw [hr] at he
      cases he
      rw [hrparent] at hq
      cases hq

end Rooted

/-- Just after mounting there is the root directory only. -/
theorem Session.Mounted.logRooted {env : Env} {s : Session} (h : s.Mounted env) :
    LogRooted s.vol.treeEntry := by
  obtain ⟨-, root, table, image, io, hinit⟩ := h
  obtain ⟨-, d, htable, hpath, hparent, -⟩ := initFileTree_ok hinit
  have honly (a : Nat) (e : TreeEntry) (he : s.vol.treeEntry a = some e) : e = d := by
    rw [htable] at he
    by_cases ha : a = 0
    · rw [ha, Function.update_self] at he
      exact (Option.some.inj he).symm
    · rw [Function.update_of_ne ha] at he
      cases he
  refine ⟨⟨d, by rw [htable, Function.update_self], hpath, hparent⟩, fun a e he => ?_,
    fun a e he hlog => ?_⟩
  · rw [honly a e he, hpath]
    rfl
  · rw [honly a e he, hpath] at hlog
    exact absurd hlog (by decide)

/-! ## Finding the log -/

/-- The search for the log finds a node; its file is not `NULL` and has an entry, and the file of its
hierarchical parent is not `NULL`. -/
def LogFound (v : State) : Prop :=
  ∃ a log p d, fatTreeNodeSearch fsLogPath v = .ok (some a) v ∧
    fatTreeGetFile (some a) v = .ok (some log) v ∧ fatTreeGetParent (some a) v = .ok (some p) v ∧
    readDentry log v = .ok d v

/-- The file `x` of the log, with its entry `d`. -/
def LogFile (v : State) (x : FatFile) (d : DirEntry) : Prop :=
  ∃ a e, v.treeEntry a = some e ∧ e.path = fsLogPath ∧ v.files.cell e.file = some x ∧ x.dentry = some d

section Found

variable {env : Env} {v : State} {text : CString} {target : Ptr}

/-- The lookups of `fat_fuse_log_activity` when a node has the path of the log. -/
theorem log_run (hwf : v.TreeWf) (h : LogRooted v.treeEntry) (hpath : HasPath v.treeEntry fsLogPath) :
    ∃ a log p x d y, fatTreeNodeSearch fsLogPath v = .ok (some a) v ∧
      fatTreeGetFile (some a) v = .ok (some log) v ∧ fatTreeGetParent (some a) v = .ok (some p) v ∧
      v.files.cell log = some x ∧ x.dentry = some d ∧ v.files.cell p = some y ∧
      ∀ x' d', LogFile v x' d' ↔ x' = x ∧ d' = d := by
  obtain ⟨p, t, hok⟩ := hwf
  obtain ⟨a, e, he, hpath⟩ := hpath
  have hsearch := fatTreeNodeSearch_run hok fsLogPath
  obtain ⟨-, hfound, -⟩ := fatTreeNodeSearch_ok hok hsearch
  rw [(hfound a).mpr ⟨e, he, hpath⟩] at hsearch
  obtain ⟨r, hr, -⟩ := h.root
  have hparent : fatTreeGetParent (some a) v = .ok (some r.file) v := by
    rw [fatTreeGetParent_run he, h.log a e he hpath, fatTreeGetFile_run hr]
  obtain ⟨root, y, -, hy, rfl⟩ := treeEntry_eq_some hr
  obtain ⟨node, x, hc, hx, rfl⟩ := treeEntry_eq_some he
  obtain ⟨x', hx', hdentry⟩ := hok.file a node hc
  rw [hx] at hx'
  cases hx'
  obtain ⟨d, hd⟩ := Option.isSome_iff_exists.mp hdentry
  refine ⟨a, node.data, _, x, d, y, hsearch, fatTreeGetFile_run he, hparent, hx, hd, hy, fun x' d' => ?_⟩
  constructor
  · rintro ⟨a', e', he', hpath', hx', hd'⟩
    obtain rfl := hok.path_inj ⟨e', he', hpath'⟩ ⟨_, he, hpath⟩
    rw [he] at he'
    cases he'
    rw [hx] at hx'
    cases hx'
    rw [hd] at hd'
    exact ⟨rfl, (Option.some.inj hd').symm⟩
  · rintro ⟨rfl, rfl⟩
    exact ⟨a, _, he, hpath, hx, hd⟩

/-- The log and its parent are found when some node has the path. -/
theorem logFound_iff (hwf : v.TreeWf) (h : LogRooted v.treeEntry) :
    LogFound v ↔ HasPath v.treeEntry fsLogPath := by
  constructor
  · rintro ⟨a, log, parent, d, hsearch, -⟩
    obtain ⟨p, t, hok⟩ := hwf
    obtain ⟨-, hfound, -⟩ := fatTreeNodeSearch_ok hok hsearch
    exact ⟨a, (hfound a).mp rfl⟩
  · intro hpath
    obtain ⟨a, log, p, x, d, y, hsearch, hfile, hparent, hx, hd, -⟩ := log_run hwf h hpath
    exact ⟨a, log, p, d, hsearch, hfile, hparent, readDentry_run hx hd⟩

/-! ## Writing the log -/

/-- The line about the file `y`. -/
def State.logLine (v : State) (env : Env) (text : CString) (y : FatFile) : CString :=
  logMessage (env.nowStr v.tick) env.login y.filepath text

/-- The line about the target fits the array it is assembled in, the search for the last cluster of the log
stays in the mapped table, and, unless an error number is left from before, the line can be appended. -/
structure LineFits (env : Env) (text : CString) (target : Ptr) (v : State) : Prop where
  room : ∃ f y, target = some f ∧ v.files.cell f = some y ∧ (v.logLine env text y).length + 1 ≤ logMessageSize
  seek : ∀ x d, LogFile v x d → ∀ e, seekFound v.table (positionsOf v.table d.fileSize) x.startCluster ≠ .error e
  append : v.errno = 0 → ∀ x d f y, LogFile v x d → target = some f → v.files.cell f = some y →
    v.WritesClean x (v.logLine env text y).length d.fileSize

/-- `fat_fuse_log_activity` returns, and leaves no error number behind that was not there. -/
def LogHarmless (env : Env) (text : CString) (target : Ptr) (v : State) : Prop :=
  ∃ w, fatFuseLogActivity env text target v = .ok ⟨⟩ w ∧ (v.errno = 0 → w.errno = 0)

/-- A read that logs without harm returns what was read. -/
theorem fatFuseRead_of_harmless {s : State} {fh : Ptr} {mem mem' : Int → UInt8} {size offset : Nat} {r : Int}
    (hdata : readData env fh mem size offset s = .ok (target, r, mem') v) (herrno : v.errno = 0)
    (h : LogHarmless env readText target v) :
    ∃ w, fatFuseRead env fh mem size offset s = .ok (toInt32 r, mem') w ∧ w.errno = 0 := by
  obtain ⟨w, hrun, hw⟩ := h
  refine ⟨w, ?_, hw herrno⟩
  rw [fatFuseRead_split, Cmd.bind_ok hdata]
  refine (Cmd.bind_ok (getErrno_run v)).trans ?_
  rw [if_neg (not_not.mpr herrno), Cmd.bind_ok hrun]
  rfl

/-- A write that logs without harm goes on to write the buffer, with the error number it would have without
a log. -/
theorem fatFuseWrite_of_harmless {s : State} {fh : Ptr} {buf : List UInt8} {offset f : Nat} {parent : Ptr}
    (htarget : writeTarget fh buf offset s = .ok (.inr (target, f, parent)) v)
    (h : LogHarmless env writeText target v) :
    ∃ w, (v.errno = 0 → w.errno = 0) ∧ fatFuseWrite env fh buf offset s =
      (do
        let ret ← fatFilePwrite env f buf offset parent
        pure (toInt32 ret) : M Int) w := by
  obtain ⟨w, hrun, hw⟩ := h
  refine ⟨w, hw, ?_⟩
  rw [fatFuseWrite_split, Cmd.bind_ok htarget]
  exact Cmd.bind_ok hrun

/-- A call that returns has found its target, and room for the line. -/
theorem logActivity_room {w : State} (hrun : fatFuseLogActivity env text target v = .ok ⟨⟩ w) :
    ∃ f y, target = some f ∧ v.files.cell f = some y ∧ (v.logLine env text y).length + 1 ≤ logMessageSize := by
  obtain ⟨now, s₁, hnow, h₁⟩ := Cmd.bind_eq_ok.mp hrun
  cases hnow
  obtain ⟨f, s₂, hf, h₂⟩ := Cmd.bind_eq_ok.mp h₁
  obtain ⟨rfl, rfl⟩ := nonNull_eq_ok hf
  obtain ⟨y, s₃, hy, h₃⟩ := Cmd.bind_eq_ok.mp h₂
  obtain ⟨rfl, hcell⟩ := readFile_eq_ok hy
  refine ⟨f, y, rfl, hcell, Nat.le_of_not_lt fun hlt => ?_⟩
  unfold State.logLine at hlt
  rw [Cmd.ite_run, if_pos hlt] at h₃
  cases h₃

/-- With room for the line, the call is the write of the line to the end of the log. -/
theorem logActivity_run {a f log p : Nat} {x y : FatFile} {d : DirEntry} (hf : v.files.cell f = some y)
    (hroom : (v.logLine env text y).length + 1 ≤ logMessageSize)
    (hsearch : fatTreeNodeSearch fsLogPath v.ticked = .ok (some a) v.ticked)
    (hfile : fatTreeGetFile (some a) v.ticked = .ok (some log) v.ticked)
    (hparent : fatTreeGetParent (some a) v.ticked = .ok (some p) v.ticked)
    (hx : v.ticked.files.cell log = some x) (hd : x.dentry = some d) :
    fatFuseLogActivity env text (some f) v = (do
      let _ ← fatFilePwrite env log (v.logLine env text y) d.fileSize (some p)
      pure ⟨⟩ : M PUnit) v.ticked := by
  unfold fatFuseLogActivity
  rw [Cmd.bind_ok (ask_run _ v), Cmd.bind_ok (nonNull_run _ _), Cmd.bind_ok (readFile_run (s := v.ticked) hf),
    Cmd.ite_run]
  refine (if_neg (Nat.not_lt.mpr hroom)).trans ?_
  rw [Cmd.bind_ok hsearch, Cmd.bind_ok hfile, Cmd.bind_ok hparent, Cmd.bind_ok (nonNull_run _ _),
    Cmd.bind_ok (readDentry_run hx hd)]
  rfl

/-- Where some node has the path of the log, the call is harmless exactly when the line fits. -/
theorem logHarmless_iff (hwf : v.TreeWf) (h : LogRooted v.treeEntry) (hpath : HasPath v.treeEntry fsLogPath) :
    LogHarmless env text target v ↔ LineFits env text target v := by
  -- looking up the time leaves the tree and the files as they are
  have hticked : KeepsEntries v v.ticked := (within_ask (fun n => n)).ok (ask_run (fun n => n) v) |>.keepsEntries
  have hentry := hticked.treeEntry_eq hwf
  obtain ⟨a, log, p, x, d, y, hsearch, hfile, hparent, hx, hd, hy, hone⟩ :=
    log_run (hticked.treeWf hwf) (by rwa [hentry]) (by rwa [hentry])
  have hlog (x' : FatFile) (d' : DirEntry) : LogFile v x' d' ↔ x' = x ∧ d' = d := by
    rw [← hone]
    unfold LogFile
    rw [hentry]
    rfl
  have hself := (hlog x d).mpr ⟨rfl, rfl⟩
  have hwrite (z : FatFile) := fatFilePwrite_harmless_iff (s := v.ticked) env (v.logLine env text z) hx hd hy
    (Nat.le_refl d.fileSize)
  constructor
  · rintro ⟨w, hrun, hw⟩
    obtain ⟨f, z, rfl, hf, hroom⟩ := logActivity_room hrun
    rw [logActivity_run hf hroom hsearch hfile hparent hx hd] at hrun
    obtain ⟨r, u, hline, hrest⟩ := Cmd.bind_eq_ok.mp hrun
    cases hrest
    obtain ⟨hseek, happend⟩ := (hwrite z).mp ⟨r, w, hline, hw⟩
    refine ⟨⟨f, z, rfl, hf, hroom⟩, fun x' d' hfile' => ?_, fun hzero x' d' f' z' hfile' hsome hf' => ?_⟩
    · obtain ⟨rfl, rfl⟩ := (hlog x' d').mp hfile'
      exact hseek
    · obtain ⟨rfl, rfl⟩ := (hlog x' d').mp hfile'
      cases hsome
      rw [hf] at hf'
      cases hf'
      exact happend hzero
  · intro hfits
    obtain ⟨f, z, rfl, hf, hroom⟩ := hfits.room
    obtain ⟨r, w, hline, hw⟩ := (hwrite z).mpr
      ⟨hfits.seek x d hself, fun hzero => hfits.append hzero x d f z hself rfl hf⟩
    refine ⟨w, ?_, hw⟩
    rw [logActivity_run hf hroom hsearch hfile hparent hx hd, Cmd.bind_ok hline]
    rfl

end Found

/-! ## Where the log is looked for -/

section Calls

variable {env : Env} {s u : State} {path : CString} {r : Int}

/-- A creation that returns 0 leaves a node with the path. -/
theorem createFile_hasPath {isDir : Bool} {GivesUp : Int → Prop} [DecidablePred GivesUp]
    (hzero : ¬ GivesUp 0) (h : s.TreeWf) (hrun : createFile env isDir GivesUp path s = .ok 0 u) :
    HasPath u.treeEntry path := by
  cases createFile_run h hrun with
  | refused e error _ result =>
      rcases error with rfl | rfl
      · exact absurd result (by decide)
      · exact absurd result (by decide)
  | givenUp newFile _ gives result =>
      have herrno : u.errno = 0 := by omega
      rw [herrno] at gives
      exact absurd gives hzero
  | created q c d t v hd _ _ init _ insert add _ =>
      have hk₀ : KeepsEntries s { s with errno := 0 } := keepsEntries_of_eq rfl rfl rfl
      obtain ⟨hk, hnew⟩ := fatFileInit_ok init
      have hw := (hnew c rfl).waiting hk (hk₀.treeWf h)
      obtain ⟨p, tr, hok⟩ := (hk₀.trans hk).treeWf h
      obtain ⟨f, hf, rfl, -, hdentry⟩ := hw.file
      -- the path was there, or the insertion has added it
      have hmid : v.TreeWf ∧ HasPath v.treeEntry f.filepath := by
        obtain ⟨-, ⟨⟨a, ha⟩, hkeep⟩ | ⟨-, -, hwf, htable⟩⟩ :=
          fatTreeInsert_ok hok hf hdentry hw.outside insert
        · exact ⟨hkeep.treeWf ⟨p, tr, hok⟩, a, by rwa [hkeep.treeEntry_eq ⟨p, tr, hok⟩]⟩
        · refine ⟨hwf, t.nodes.next, ⟨c, f.filepath, some q, f.numTimesOpened, f.isDir⟩, ?_, rfl⟩
          rw [htable, insertedEntry, Function.update_self]
      obtain ⟨hwf, a, e, he, hpath⟩ := hmid
      obtain ⟨-, hother, hself⟩ := fatFileDentryAddChild_treeEntry hwf add
      by_cases hfile : e.file = c
      · obtain ⟨b, hb⟩ := hself a e he hfile
        exact ⟨a, _, hb, hpath⟩
      · refine ⟨a, e, ?_, hpath⟩
        rw [hother a fun e' he' => ?_, he]
        rw [he] at he'
        cases he'
        exact hfile

/-- A log just made is in the tree. -/
theorem makeLog_hasPath {log : Ptr} (h : s.TreeWf) (hrun : makeLog env s = .ok (some log) u) :
    HasPath u.treeEntry fsLogPath := by
  obtain ⟨old, s₁, hsearch, hrun⟩ := bind_eq_ok.mp hrun
  have hk := (within_fatTreeSearch (R := KeepsEntries) _).ok hsearch
  cases old with
  | some _ => cases hrun
  | none =>
      obtain ⟨ret, s₂, hmade, hrun⟩ := bind_eq_ok.mp hrun
      rw [ite_run] at hrun
      split at hrun
      · cases hrun
      · next hret =>
          obtain rfl := not_not.mp hret
          rw [fatFuseMknod_eq] at hmade
          have hpath := createFile_hasPath (by decide) (hk.treeWf h) hmade
          obtain ⟨log', s₃, hsearch', hrun⟩ := bind_eq_ok.mp hrun
          cases hrun
          have hk' := (within_fatTreeSearch (R := KeepsEntries) _).ok hsearch'
          have hwf := (createFile_enlarges (hk.treeWf h) hmade).wf
          rwa [hk'.treeEntry_eq hwf]

/-- The part of `fat_fuse_read` before the log keeps the entries of the tree. -/
theorem within_readData (fh : Ptr) (mem : Int → UInt8) (size offset : Nat) :
    Within KeepsEntries (readData env fh mem size offset) := by
  refine (setErrno_within 0).bind fun _ => (lookup_within (within_fatTreeGetFile fh)).bind fun file => ?_
  refine (lookup_within (within_fatTreeGetParent fh)).bind fun parent => ?_
  refine (within_nonNull file).bind fun f => (within_fatFilePread _ _ _ _ _ _).bind fun _ => ?_
  exact within_pure _

/-- The part of `fat_fuse_write` before the log keeps the entries of the tree. -/
theorem within_writeTarget (fh : Ptr) (buf : List UInt8) (offset : Nat) :
    Within KeepsEntries (writeTarget fh buf offset) := by
  refine (lookup_within (within_fatTreeGetFile fh)).bind fun file => ?_
  refine (lookup_within (within_fatTreeGetParent fh)).bind fun parent => ?_
  refine within_ite (fun _ => within_pure _) fun _ => (within_nonNull file).bind fun f => ?_
  exact (within_readDentry f).bind fun d => within_ite (fun _ => within_pure _) fun _ => within_pure _

/-- The operation is a read or a write that gets to logging. -/
def ReachesLog (env : Env) (s : State) : Op → Prop
  | .read fh mem size offset => ∃ text target v, LogsAt env s (.read fh mem size offset) text target v
  | .write fh buf offset => ∃ text target v, LogsAt env s (.write fh buf offset) text target v
  | _ => False

/-- A listing makes the log before it uses it; a read or write finds it only if it was there. -/
theorem logsAt_hasPath (h : s.TreeWf) (hrooted : LogRooted s.treeEntry) {op : Op} {text : CString}
    {target : Ptr} {v : State} (hv : LogsAt env s op text target v) :
    v.TreeWf ∧ LogRooted v.treeEntry ∧
      (HasPath v.treeEntry fsLogPath ↔ (ReachesLog env s op → HasPath s.treeEntry fsLogPath)) := by
  have hkeeps (hk : KeepsEntries s v) (hreaches : ReachesLog env s op) : v.TreeWf ∧ LogRooted v.treeEntry ∧
      (HasPath v.treeEntry fsLogPath ↔ (ReachesLog env s op → HasPath s.treeEntry fsLogPath)) := by
    rw [hk.treeEntry_eq h]
    exact ⟨hk.treeWf h, hrooted, fun hpath _ => hpath, fun hall => hall hreaches⟩
  cases op with
  | read fh mem size offset =>
      obtain ⟨-, ⟨r, hdata, -⟩, -⟩ := id hv
      exact hkeeps ((within_readData fh mem size offset).ok hdata) ⟨text, target, v, hv⟩
  | write fh buf offset =>
      obtain ⟨-, f, parent, htarget⟩ := id hv
      exact hkeeps ((within_writeTarget fh buf offset).ok htarget) ⟨text, target, v, hv⟩
  | readdir fh filler =>
      obtain ⟨-, ret, names, w, hlist, hmake⟩ := hv
      have hlist' := listNames_enlarges h hlist
      have hmake' := makeLog_enlarges hlist'.wf hmake
      have hall := hlist'.trans hmake'
      exact ⟨hall.wf, hrooted.enlarged hall.wf hall.entries,
        iff_of_true (makeLog_hasPath hlist'.wf hmake) fun hno => hno.elim⟩
  | _ => exact hv.elim

end Calls

/-! ## Runs -/

/-- Whenever the operation logs, the log is found, and logging it does no harm. -/
def LogsRight (env : Env) (s : Session) (op : Op) : Prop :=
  s.Allows op → ∀ text target v, LogsAt env s.vol op text target v →
    LogFound v ∧ LogHarmless env text target v

/-- The step condition: a read or write that gets to logging is called while some node has the path of the
log, and the line fits, in the array and in the log. -/
def LogThere (env : Env) (s : Session) (op : Op) : Prop :=
  s.Allows op → (ReachesLog env s.vol op → HasPath s.vol.treeEntry fsLogPath) ∧
    ∀ text target v, LogsAt env s.vol op text target v → LineFits env text target v

/-- The log is found and harmless just if it is there and its line fits. -/
theorem logsAt_right_iff {env : Env} {s : State} (h : s.TreeWf) (hrooted : LogRooted s.treeEntry) (op : Op) :
    (∀ text target v, LogsAt env s op text target v → LogFound v ∧ LogHarmless env text target v) ↔
      (ReachesLog env s op → HasPath s.treeEntry fsLogPath) ∧
        ∀ text target v, LogsAt env s op text target v → LineFits env text target v := by
  constructor
  · intro hall
    have hthere {text : CString} {target : Ptr} {v : State} (hv : LogsAt env s op text target v) :
        HasPath v.treeEntry fsLogPath := by
      obtain ⟨hwf, hrooted', -⟩ := logsAt_hasPath h hrooted hv
      exact (logFound_iff hwf hrooted').mp (hall text target v hv).1
    refine ⟨fun hreaches => ?_, fun text target v hv => ?_⟩
    · obtain ⟨text, target, v, hv⟩ : ∃ text target v, LogsAt env s op text target v := by
        cases op with
        | read => exact hreaches
        | write => exact hreaches
        | _ => exact hreaches.elim
      obtain ⟨-, -, hiff⟩ := logsAt_hasPath h hrooted hv
      exact hiff.mp (hthere hv) hreaches
    · obtain ⟨hwf, hrooted', -⟩ := logsAt_hasPath h hrooted hv
      exact (logHarmless_iff hwf hrooted' (hthere hv)).mp (hall text target v hv).2
  · rintro ⟨hreaches, hfits⟩ text target v hv
    obtain ⟨hwf, hrooted', hiff⟩ := logsAt_hasPath h hrooted hv
    have hpath := hiff.mpr hreaches
    exact ⟨(logFound_iff hwf hrooted').mpr hpath,
      (logHarmless_iff hwf hrooted' hpath).mpr (hfits text target v hv)⟩

/-- What is to be computed of the log for a line of `size` bytes to be appended, on a device without
failing calls. -/
def AppendChecked (v : State) (size : Nat) (x : FatFile) (d : DirEntry) : Prop :=
  ∃ c < v.table.fatLen, seekFound v.table (positionsOf v.table d.fileSize) x.startCluster = .ok (some c) ∧
    WriteInTable v.table size d.fileSize c ∧ x.posInParent * 32 < v.table.bytesPerCluster

instance (v : State) (size : Nat) (x : FatFile) (d : DirEntry) : Decidable (AppendChecked v size x d) :=
  inferInstanceAs (Decidable (∃ c < v.table.fatLen, _))

/-- The log is there, and a line of `size` bytes can be appended. -/
def LogFileChecked (v : State) (size : Nat) : Prop :=
  ∀ a < v.nodes.next, ∀ e ∈ v.treeEntry a, e.path = fsLogPath → ∀ x ∈ v.files.cell e.file, ∀ d ∈ x.dentry,
    AppendChecked v size x d

instance (v : State) (size : Nat) : Decidable (LogFileChecked v size) :=
  inferInstanceAs (Decidable (∀ a < v.nodes.next, _))

/-- What is to be computed of a call that logs. -/
def LineChecked (env : Env) (text : CString) (target : Ptr) (v : State) : Prop :=
  v.io.length = 0 ∧ ∃ f ∈ target, ∃ y ∈ v.files.cell f, (v.logLine env text y).length + 1 ≤ logMessageSize ∧
    LogFileChecked v (v.logLine env text y).length

instance (env : Env) (text : CString) (target : Ptr) (v : State) : Decidable (LineChecked env text target v) :=
  inferInstanceAs (Decidable (v.io.length = 0 ∧ ∃ f ∈ target, _))

/-- The checks of a line give the condition on it. -/
theorem LineChecked.lineFits {env : Env} {text : CString} {target : Ptr} {v : State}
    (h : LineChecked env text target v) : LineFits env text target v := by
  obtain ⟨hio, f, hf, y, hy, hroom, hlog⟩ := h
  have hfile {x : FatFile} {d : DirEntry} (hx : LogFile v x d) :
      AppendChecked v (v.logLine env text y).length x d := by
    obtain ⟨a, e, he, hpath, hx, hd⟩ := hx
    obtain ⟨node, -, hnode, -⟩ := treeEntry_eq_some he
    exact hlog a (Heap.lt_next hnode) e he hpath x hx d hd
  refine ⟨⟨f, y, hf, hy, hroom⟩, fun x d hx e he => ?_, fun _ x d f' y' hx hf' hy' => ?_⟩
  · obtain ⟨c, -, hseek, -⟩ := hfile hx
    rw [hseek] at he
    cases he
  · obtain ⟨c, -, hseek, htable, hslot⟩ := hfile hx
    cases hf.symm.trans hf'
    cases hy.symm.trans hy'
    refine ⟨c, [], hseek, htable, ?_, hslot, rfl⟩
    rw [List.length_eq_zero_iff.mp hio]
    exact carriedOut_nil _

/-- What is to be computed of a step. -/
def LogChecked (env : Env) (s : State) (op : Op) : Prop :=
  ∀ c ∈ logCall env s op, LineChecked env c.1 c.2.1 c.2.2 ∧
    (c.1 = initText ∨ ∃ a < s.nodes.next, ∃ e ∈ s.treeEntry a, e.path = fsLogPath)

instance (env : Env) (s : State) (op : Op) : Decidable (LogChecked env s op) :=
  inferInstanceAs (Decidable (∀ c ∈ logCall env s op, _))

/-- The checks of an operation give the condition on it. -/
theorem LogChecked.logThere {env : Env} {s : Session} {op : Op} (h : LogChecked env s.vol op) :
    LogThere env s op := by
  refine fun _ => ⟨fun hreaches => ?_, fun text target v hv => (h _ hv.logCall).1.lineFits⟩
  have hpath {text : CString} {target : Ptr} {v : State} (hv : LogsAt env s.vol op text target v)
      (htext : text ≠ initText) : HasPath s.vol.treeEntry fsLogPath := by
    obtain ⟨a, -, e, he, hpath⟩ := (h _ hv.logCall).2.resolve_left htext
    exact ⟨a, e, he, hpath⟩
  cases op with
  | read fh mem size offset =>
      obtain ⟨text, target, v, hv⟩ := hreaches
      exact hpath hv (by rw [hv.1]; decide)
  | write fh buf offset =>
      obtain ⟨text, target, v, hv⟩ := hreaches
      exact hpath hv (by rw [hv.1]; decide)
  | _ => exact hreaches.elim

/-- The root directory is listed, which makes the log; then the log itself is read and written. -/
def listThenLog : List Op :=
  [.opendir rootPath, .readdir (some 0) fun _ _ => false, .open fsLogPath, .read (some 1) (fun _ => 0) 1 0,
    .write (some 1) [0] 0]

end OsLabs.Fat
