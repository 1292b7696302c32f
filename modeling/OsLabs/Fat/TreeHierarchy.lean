import OsLabs.Fat.LogSessions

/-! # The directory hierarchy over a session

Every node of the file tree but the root points to the node of its directory. The pointer outlives the
directory when that is removed first: a removal looks at the entries on the device, not at the nodes.
`directoryTree_iff`: in a run of operations on a volume just mounted, every node keeps a directory in
the tree and a path beneath that of the directory (`DirectoryTree`) exactly when no removal drops a
node that is the directory of another. -/

namespace OsLabs.Fat

open Cmd Transition

/-! ## Directory trees -/

/-- The root directory is there, and every other node is in the directory that its path is beneath. -/
structure DirectoryTree (E : Nat → Option TreeEntry) : Prop where
  root : ∃ e, E 0 = some e ∧ e.path = rootPath ∧ e.parent = none
  parent : ∀ a e, E a = some e → a ≠ 0 →
    ∃ q d, e.parent = some q ∧ E q = some d ∧ Beneath d.path e.path

/-- No removal drops a node that is the directory of another one. -/
def SparesParents (env : Env) (s : Session) (op : Op) : Prop :=
  ∀ a, Drops env s.vol op a → ∀ b, ¬ Up s.vol.treeEntry b a

section Trees

variable {E E' : Nat → Option TreeEntry} {a : Nat}

/-- The root directory is below no other one. -/
theorem DirectoryTree.not_up_root (h : DirectoryTree E) (b : Nat) : ¬ Up E 0 b := by
  rintro ⟨e, he, hq⟩
  obtain ⟨r, hr, -, hnone⟩ := h.root
  rw [hr] at he
  cases he
  rw [hnone] at hq
  cases hq

/-- From every node the way up ends at the root directory. -/
theorem DirectoryTree.reaches_root (h : DirectoryTree E)
    (hlt : ∀ a e q, E a = some e → e.parent = some q → q < a) {e : TreeEntry} (he : E a = some e) :
    Reaches E a 0 := by
  induction a using Nat.strong_induction_on generalizing e with
  | _ a ih =>
      by_cases ha : a = 0
      · rw [ha]
        exact .refl
      · obtain ⟨q, d, hq, hd, -⟩ := h.parent a e he ha
        exact .head ⟨e, he, hq⟩ (ih q (hlt a e q he hq) hd)

/-- New nodes are in directories of the tree. -/
theorem DirectoryTree.enlarged (h : DirectoryTree E) (hE : Enlarged E E') : DirectoryTree E' := by
  obtain ⟨r, hr, hpath, hnone⟩ := h.root
  refine ⟨⟨r, hE.kept 0 r hr, hpath, hnone⟩, fun a e he ha => ?_⟩
  cases hold : E a with
  | none => exact hE.beneath a e he hold
  | some e' =>
      rw [hE.kept a e' hold] at he
      cases he
      obtain ⟨q, d, hq, hd, hbeneath⟩ := h.parent a _ hold ha
      exact ⟨q, d, hq, hE.kept q d hd, hbeneath⟩

/-- An entry has its path and its directory before and after counting. -/
theorem Counted.same {g : Nat → Nat} {r : Ptr} (hE : Counted g r E E') {b : Nat} {e : TreeEntry}
    (he : E b = some e) : ∃ e', E' b = some e' ∧ e'.path = e.path ∧ e'.parent = e.parent := by
  by_cases hb : ∃ a, r = some a ∧ Reaches E a b
  · obtain ⟨a, hr, hab⟩ := hb
    refine ⟨e.count g, ?_, rfl, rfl⟩
    rw [hE.on a hr b hab, he, Option.map_some]
  · refine ⟨e, ?_, rfl, rfl⟩
    rw [hE.off b fun a hr hab => hb ⟨a, hr, hab⟩, he]

/-- Open counts do not matter. -/
theorem DirectoryTree.counted {g : Nat → Nat} {r : Ptr} (h : DirectoryTree E)
    (hE : Counted g r E E') : DirectoryTree E' := by
  obtain ⟨e, he, hpath, hparent⟩ := h.root
  obtain ⟨e', he', hpath', hparent'⟩ := hE.same he
  refine ⟨⟨e', he', hpath'.trans hpath, hparent'.trans hparent⟩, fun a f' hf' ha => ?_⟩
  have hsome := hE.parents a
  rw [hf', Option.map_some] at hsome
  obtain ⟨f, hf, -⟩ := Option.map_eq_some_iff.mp hsome.symm
  obtain ⟨f'', hf'', hfpath, hfparent⟩ := hE.same hf
  rw [hf'] at hf''
  cases hf''
  obtain ⟨q, d, hq, hd, hbeneath⟩ := h.parent a f hf ha
  obtain ⟨d', hd', hdpath, -⟩ := hE.same hd
  refine ⟨q, d', hfparent.trans hq, hd', ?_⟩
  rw [hdpath, hfpath]
  exact hbeneath

/-- Without the node `a`, which is below another one, a directory tree is left exactly when no node is
below `a`. -/
theorem DirectoryTree.dropped_iff (h : DirectoryTree E)
    (hlt : ∀ a e q, E a = some e → e.parent = some q → q < a) {c : Nat} (hac : Up E a c) :
    DirectoryTree (Function.update E a none) ↔ ∀ b, ¬ Up E b a := by
  have hkept {b : Nat} (hb : b ≠ a) : Function.update E a none b = E b := Function.update_of_ne hb _ _
  have hroot : a ≠ 0 := by
    rintro rfl
    exact h.not_up_root c hac
  constructor
  · rintro htree b ⟨e, he, hq⟩
    have hba : b ≠ a := (hlt b e a he hq).ne'
    have hb : b ≠ 0 := by
      rintro rfl
      exact h.not_up_root a ⟨e, he, hq⟩
    -- the directory of `b` would have to be there
    obtain ⟨q, d, hq', hd, -⟩ := htree.parent b e (by rw [hkept hba, he]) hb
    rw [hq] at hq'
    cases hq'
    rw [Function.update_self] at hd
    cases hd
  · intro hleaf
    obtain ⟨r, hr, hpath, hnone⟩ := h.root
    refine ⟨⟨r, by rw [hkept hroot.symm, hr], hpath, hnone⟩, fun b e he hb => ?_⟩
    have hba : b ≠ a := by
      rintro rfl
      rw [Function.update_self] at he
      cases he
    rw [hkept hba] at he
    obtain ⟨q, d, hq, hd, hbeneath⟩ := h.parent b e he hb
    have hqa : q ≠ a := by
      rintro rfl
      exact hleaf b ⟨e, he, hq⟩
    exact ⟨q, d, hq, by rw [hkept hqa, hd], hbeneath⟩

end Trees

/-! ## Over a session -/

/-- What is removed is in a directory. -/
theorem Drops.up {env : Env} {s : State} {op : Op} {a : Nat} (h : Drops env s op a) :
    ∃ q, Up s.treeEntry a q := by
  cases op with
  | unlink path =>
      obtain ⟨e, he, -, -, q, d, hq, -⟩ := h
      exact ⟨q, e, he, hq⟩
  | rmdir path =>
      obtain ⟨e, he, -, -, ⟨q, d, hq, -⟩, -⟩ := h
      exact ⟨q, e, he, hq⟩
  | _ => exact h.elim

/-- A call leaves a directory tree exactly when it drops no directory of another node. -/
theorem Moves.keepsTree_iff {env : Env} {s t : Session} {op : Op} (hwf : s.vol.TreeWf)
    (h : DirectoryTree s.vol.treeEntry) (hm : Moves env s op t) :
    DirectoryTree t.vol.treeEntry ↔ SparesParents env s op := by
  have hspares (hno : ∀ a, ¬ Drops env s.vol op a) : SparesParents env s op :=
    fun a ha => absurd ha (hno a)
  have hmoves : (∀ a, ¬ Drops env s.vol op a) → DirectoryTree t.vol.treeEntry →
      (DirectoryTree t.vol.treeEntry ↔ SparesParents env s op) :=
    fun hno htree => ⟨fun _ => hspares hno, fun _ => htree⟩
  cases hm with
  | enlarged entries _ _ _ noDrop => exact hmoves noDrop (h.enlarged entries)
  | opened a _ entries _ _ noDrop => exact hmoves noDrop (h.counted entries)
  | released a _ entries _ _ _ noDrop => exact hmoves noDrop (h.counted entries)
  | truncated a _ entries _ noDrop => exact hmoves noDrop (h.counted entries)
  | dropped a drops entries =>
      obtain ⟨q, hup⟩ := Drops.up drops
      obtain ⟨p, tree, hok⟩ := id hwf
      rw [entries, h.dropped_iff hok.parent_lt hup]
      constructor
      · intro hleaf b hb
        rwa [drops_unique hwf hb drops]
      · intro hspare
        exact hspare a drops

/-- Just after mounting there is the root directory only. -/
theorem Session.Mounted.directoryTree {env : Env} {s : Session} (h : s.Mounted env) :
    DirectoryTree s.vol.treeEntry := by
  refine ⟨h.logRooted.root, fun a e he ha => ?_⟩
  obtain ⟨-, root, table, image, io, hinit⟩ := h
  obtain ⟨-, d, htable, -⟩ := initFileTree_ok hinit
  rw [htable, Function.update_of_ne ha] at he
  cases he

/-- **The file tree stays a directory tree.** In a run of operations on a volume just mounted, every
node but the root is in the tree together with its directory, with a path beneath that of the
directory, exactly when no removal of the run drops a node that is the directory of another. -/
theorem directoryTree_iff {env : Env} {s t : Session} (hs : s.Mounted env) {ops : List Op}
    {replies : List Reply} (hrun : exec (Session.call env) [] s ops = some (replies, t)) :
    Throughout (Session.call env) (fun _ s => s.vol.TreeWf ∧ DirectoryTree s.vol.treeEntry) [] s ops ↔
      Meets (Session.call env) (fun _ s op => SparesParents env s op) [] s ops := by
  have hinv (evs : List Reply) (s : Session) (op : Op) (u : Session) (new : List Reply)
      (hwf : s.vol.TreeWf) (_ : True) (_ : SparesParents env s op)
      (hcall : s.call env op = some (u, new)) : u.vol.TreeWf :=
    (call_moves hwf hcall).1
  have hstep (evs : List Reply) (s : Session) (op : Op) (u : Session) (new : List Reply)
      (hwf : s.vol.TreeWf) (_ : True) (h : s.vol.TreeWf ∧ DirectoryTree s.vol.treeEntry)
      (hcall : s.call env op = some (u, new)) :
      (u.vol.TreeWf ∧ DirectoryTree u.vol.treeEntry) ↔ SparesParents env s op := by
    obtain ⟨hwf', hmoves⟩ := call_moves hwf hcall
    rw [and_iff_right hwf']
    exact hmoves.keepsTree_iff hwf h.2
  exact throughout_iff_meets (I := fun _ s => s.vol.TreeWf) hinv hstep hs.treeWf
    ⟨hs.treeWf, hs.directoryTree⟩ (meets_of_forall_mem fun _ _ => trivial) hrun

/-- A directory is made, opened and closed, and removed. -/
theorem directoryTree_iff_dirPath :
    ∃ replies t, exec (Session.call quietEnv) [] freshSession
        [.mkdir dirPath, .opendir dirPath, .releasedir (some 1), .rmdir dirPath] = some (replies, t) ∧
      (Throughout (Session.call quietEnv) (fun _ s => s.vol.TreeWf ∧ DirectoryTree s.vol.treeEntry) []
          freshSession [.mkdir dirPath, .opendir dirPath, .releasedir (some 1), .rmdir dirPath] ↔
        Meets (Session.call quietEnv) (fun _ s op => SparesParents quietEnv s op) [] freshSession
          [.mkdir dirPath, .opendir dirPath, .releasedir (some 1), .rmdir dirPath]) := by
  obtain ⟨⟨replies, t⟩, hrun⟩ := Option.isSome_iff_exists.mp
    (by decide +kernel : (exec (Session.call quietEnv) [] freshSession
      [.mkdir dirPath, .opendir dirPath, .releasedir (some 1), .rmdir dirPath]).isSome = true)
  exact ⟨replies, t, hrun, directoryTree_iff freshSession_mounted hrun⟩

end OsLabs.Fat
