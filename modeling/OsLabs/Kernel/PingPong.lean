import OsLabs.Kernel.Calls

/-! # `pingpong`

The loops of the parent and of the forked child of `user/pingpong.c`, on the table of semaphores. The
steps of a loop are its `sem_down`, its `printf` and its `sem_up`; an interleaving is a list of the
processes that take the next step, and the events of a run are the lines printed. -/

namespace OsLabs

namespace Kernel

namespace PingPong

/-- The lines printed. -/
inductive Line
  | ping
  | pong
  deriving DecidableEq, Repr

/-- The two processes. -/
inductive Side
  | parent
  | child
  deriving DecidableEq, Repr

/-- Where a process is in its loop. -/
inductive Pc
  | head
  | print
  | up
  deriving DecidableEq, Repr

/-- A process: its program counter and its copy of `n`. -/
structure Proc where
  pc : Pc
  n : Nat
  deriving DecidableEq, Repr

/-- The semaphores and the two processes. -/
structure State where
  kernel : Calls.State
  parent : Proc
  child : Proc

/-- A loop of the program: the semaphore it takes, the line it prints and the semaphore it
increments. -/
structure Loop where
  down : Int
  line : Line
  up : Int

/-- `sem_down` as a step of a process: it is taken when the call returns, so a process that finds the
value at 0 takes it after an increment. -/
def semDown (sem : Int) (k : Calls.State) : Option Calls.State :=
  if (k.semaphores sem).isOpen = true ∧ (k.semaphores sem).value.toInt ≤ 0 then none
  else some (Calls.semDown sem k).1

/-- The next step of a process in its loop: `none` when it is blocked or has left the loop. -/
def Loop.next (l : Loop) (k : Calls.State) (p : Proc) : Option (Calls.State × Proc × List Line) :=
  match p.pc with
  | .head => if 0 < p.n then (semDown l.down k).map fun k' => (k', ⟨.print, p.n - 1⟩, []) else none
  | .print => some (k, ⟨.up, p.n⟩, [l.line])
  | .up => some ((Calls.semUp l.up k).1, ⟨.head, p.n⟩, [])

/-- The loop of the parent. -/
def parentLoop (r t : Int) : Loop := ⟨r, .ping, t⟩

/-- The loop of the child. -/
def childLoop (r t : Int) : Loop := ⟨t, .pong, r⟩

/-- One step of the system. -/
def step (r t : Int) (s : State) : Side → Option (State × List Line)
  | .parent => ((parentLoop r t).next s.kernel s.parent).map fun (k, p, lines) =>
      (⟨k, p, s.child⟩, lines)
  | .child => ((childLoop r t).next s.kernel s.child).map fun (k, p, lines) =>
      (⟨k, s.parent, p⟩, lines)

/-- Both processes after the `fork`. -/
def start (k : Calls.State) (n : Nat) : State := ⟨k, ⟨.head, n⟩, ⟨.head, n⟩⟩

/-- A process has left its loop. -/
def Proc.Finished (p : Proc) : Prop := p.pc = .head ∧ p.n = 0

/-- The lines of `n` rounds. -/
def rounds (n : Nat) : List Line := (List.replicate n [Line.ping, Line.pong]).flatten

/-- Another round of the game. -/
theorem rounds_succ (n : Nat) : rounds (n + 1) = rounds n ++ [.ping, .pong] := by
  rw [rounds, List.replicate_succ', List.flatten_append]
  rfl

/-- Each round prints two lines. -/
@[simp] theorem length_rounds (n : Nat) : (rounds n).length = 2 * n := by
  induction n with
  | zero => rfl
  | succ n ih =>
      rw [rounds_succ, List.length_append, ih]
      simp only [List.length_cons, List.length_nil]
      omega

/-- Fewer rounds come first. -/
theorem rounds_isPrefix {m n : Nat} (h : m ≤ n) : rounds m <+: rounds n := by
  induction n, h using Nat.le_induction with
  | base => exact List.prefix_rfl
  | succ n _ ih =>
      rw [rounds_succ]
      exact ih.trans (List.prefix_append _ _)

/-! ## The phases of a round -/

/-- An open semaphore with a value. -/
def Holds (k : Calls.State) (sem : Int) (value : BitVec 32) : Prop :=
  (k.semaphores sem).isOpen = true ∧ (k.semaphores sem).value = value

/-- The states of a run of `n` rounds, by who holds the turn: `m` is the number of rounds that the
parent has not begun. -/
inductive Phase (r t : Int) (n : Nat) : List Line → State → Prop
  | parentTurn {k : Calls.State} {m : Nat} (hm : m ≤ n) (hr : Holds k r 1) (ht : Holds k t 0) :
      Phase r t n (rounds (n - m)) ⟨k, ⟨.head, m⟩, ⟨.head, m⟩⟩
  | parentPrint {k : Calls.State} {m : Nat} (hm : m < n) (hr : Holds k r 0) (ht : Holds k t 0) :
      Phase r t n (rounds (n - (m + 1))) ⟨k, ⟨.print, m⟩, ⟨.head, m + 1⟩⟩
  | parentUp {k : Calls.State} {m : Nat} (hm : m < n) (hr : Holds k r 0) (ht : Holds k t 0) :
      Phase r t n (rounds (n - (m + 1)) ++ [.ping]) ⟨k, ⟨.up, m⟩, ⟨.head, m + 1⟩⟩
  | childTurn {k : Calls.State} {m : Nat} (hm : m < n) (hr : Holds k r 0) (ht : Holds k t 1) :
      Phase r t n (rounds (n - (m + 1)) ++ [.ping]) ⟨k, ⟨.head, m⟩, ⟨.head, m + 1⟩⟩
  | childPrint {k : Calls.State} {m : Nat} (hm : m < n) (hr : Holds k r 0) (ht : Holds k t 0) :
      Phase r t n (rounds (n - (m + 1)) ++ [.ping]) ⟨k, ⟨.head, m⟩, ⟨.print, m⟩⟩
  | childUp {k : Calls.State} {m : Nat} (hm : m < n) (hr : Holds k r 0) (ht : Holds k t 0) :
      Phase r t n (rounds (n - m)) ⟨k, ⟨.head, m⟩, ⟨.up, m⟩⟩

section Steps

variable {r t sem other : Int} {n m : Nat} {k : Calls.State} {lines new : List Line} {s s' : State}
  {side : Side}

/-- The semaphore with value 0 blocks. -/
theorem semDown_zero (h : Holds k sem 0) : semDown sem k = none := by
  obtain ⟨hopen, hval⟩ := h
  rw [semDown, if_pos ⟨hopen, by rw [hval]; decide⟩]

/-- A `sem_down` of the semaphore with value 1. -/
theorem semDown_one (h : Holds k sem 1) : ∃ k', semDown sem k = some k' ∧ Holds k' sem 0 ∧
    ∀ other value, other ≠ sem → Holds k other value → Holds k' other value := by
  obtain ⟨hopen, hval⟩ := h
  have hpos : ¬ (k.semaphores sem).value.toInt ≤ 0 := by
    rw [hval]
    decide
  refine ⟨(Calls.semDown sem k).1, by rw [semDown, if_neg fun h => hpos h.2], ?_⟩
  simp only [Calls.semDown, if_pos hopen, if_neg hpos]
  constructor
  · rw [Holds, Calls.State.set_self]
    exact ⟨hopen, by rw [hval]; rfl⟩
  · rintro other value hne ⟨ho, hv⟩
    rw [Holds, Calls.State.set_of_ne hne]
    exact ⟨ho, hv⟩

/-- A `sem_up` of the semaphore with value 0. -/
theorem semUp_zero (h : Holds k sem 0) : Holds (Calls.semUp sem k).1 sem 1 ∧
    ∀ other value, other ≠ sem → Holds k other value → Holds (Calls.semUp sem k).1 other value := by
  obtain ⟨hopen, hval⟩ := h
  simp only [Calls.semUp, if_pos hopen]
  constructor
  · rw [Holds, Calls.State.set_self]
    exact ⟨hopen, by rw [hval]; rfl⟩
  · rintro other value hne ⟨ho, hv⟩
    rw [Holds, Calls.State.set_of_ne hne]
    exact ⟨ho, hv⟩

/-- A blocked `sem_down` blocks the loop. -/
theorem next_head_blocked {l : Loop} {p : Proc} (hpc : p.pc = .head) (h : Holds k l.down 0) :
    l.next k p = none := by
  simp only [Loop.next, hpc, semDown_zero h, Option.map_none, ite_self]

/-- A `sem_down` that returns lets a process that is not finished go on to its print. -/
theorem next_head {l : Loop} (h : Holds k l.down 1) (m : Nat) : ∃ k',
    l.next k ⟨.head, m + 1⟩ = some (k', ⟨.print, m⟩, []) ∧ Holds k' l.down 0 ∧
      ∀ other value, other ≠ l.down → Holds k other value → Holds k' other value := by
  obtain ⟨k', hdown, hrest⟩ := semDown_one h
  refine ⟨k', ?_, hrest⟩
  simp only [Loop.next, hdown, Option.map_some, Nat.succ_pos, if_true, Nat.add_sub_cancel]

/-- What one step preserves. -/
theorem phase_step (hne : r ≠ t) (h : Phase r t n lines s) (hs : step r t s side = some (s', new)) :
    Phase r t n (lines ++ new) s' := by
  -- a side at the head of its loop can go on only when its semaphore is 1
  have hblockParent {k : Calls.State} {p c : Proc} {r' : State × List Line} (hpc : p.pc = .head)
      (hr : Holds k r 0) (hs : step r t ⟨k, p, c⟩ .parent = some r') : False := by
    rw [step, next_head_blocked (l := parentLoop r t) hpc hr] at hs
    cases hs
  have hblockChild {k : Calls.State} {p c : Proc} {r' : State × List Line} (hpc : c.pc = .head)
      (ht : Holds k t 0) (hs : step r t ⟨k, p, c⟩ .child = some r') : False := by
    rw [step, next_head_blocked (l := childLoop r t) hpc ht] at hs
    cases hs
  cases h with
  | @parentTurn k m hm hr ht =>
      cases side with
      | child => exact (hblockChild rfl ht hs).elim
      | parent =>
          cases m with
          | zero => cases hs
          | succ m =>
              obtain ⟨k', hnext, hr', hkeep⟩ := next_head (l := parentLoop r t) hr m
              rw [step, hnext] at hs
              cases hs
              rw [List.append_nil]
              exact .parentPrint hm hr' (hkeep t 0 hne.symm ht)
  | parentPrint hm hr ht =>
      cases side with
      | child => exact (hblockChild rfl ht hs).elim
      | parent =>
          cases hs
          exact .parentUp hm hr ht
  | parentUp hm hr ht =>
      cases side with
      | child => exact (hblockChild rfl ht hs).elim
      | parent =>
          obtain ⟨ht', hkeep⟩ := semUp_zero ht
          cases hs
          rw [List.append_nil]
          exact .childTurn hm (hkeep r 0 hne hr) ht'
  | @childTurn k m hm hr ht =>
      cases side with
      | parent => exact (hblockParent rfl hr hs).elim
      | child =>
          obtain ⟨k', hnext, ht', hkeep⟩ := next_head (l := childLoop r t) ht m
          rw [step, hnext] at hs
          cases hs
          rw [List.append_nil]
          exact .childPrint hm (hkeep r 0 hne hr) ht'
  | @childPrint k m hm hr ht =>
      cases side with
      | parent => exact (hblockParent rfl hr hs).elim
      | child =>
          cases hs
          have hround : rounds (n - (m + 1)) ++ [.ping] ++ [.pong] = rounds (n - m) := by
            rw [List.append_assoc, ← Nat.succ_sub_succ n m, Nat.succ_sub hm]
            exact (rounds_succ _).symm
          show Phase r t n (rounds (n - (m + 1)) ++ [.ping] ++ [.pong]) _
          rw [hround]
          exact .childUp hm hr ht
  | childUp hm hr ht =>
      cases side with
      | parent => exact (hblockParent rfl hr hs).elim
      | child =>
          obtain ⟨hr', hkeep⟩ := semUp_zero hr
          cases hs
          rw [List.append_nil]
          exact .parentTurn (Nat.le_of_lt hm) hr' (hkeep t 0 hne.symm ht)

/-- Some process can take a step until both have finished. -/
theorem phase_progress (h : Phase r t n lines s) (hstuck : ∀ side, step r t s side = none) :
    s.parent.Finished ∧ s.child.Finished ∧ lines = rounds n := by
  have hparent := hstuck .parent
  have hchild := hstuck .child
  cases h with
  | @parentTurn k m hm hr ht =>
      cases m with
      | zero => exact ⟨⟨rfl, rfl⟩, ⟨rfl, rfl⟩, rfl⟩
      | succ m =>
          obtain ⟨k', hnext, -⟩ := next_head (l := parentLoop r t) hr m
          rw [step, hnext] at hparent
          cases hparent
  | parentPrint => cases hparent
  | parentUp => cases hparent
  | @childTurn k m hm hr ht =>
      obtain ⟨k', hnext, -⟩ := next_head (l := childLoop r t) ht m
      rw [step, hnext] at hchild
      cases hchild
  | childPrint => cases hchild
  | childUp => cases hchild

/-- The lines of a phase. -/
theorem Phase.isPrefix (h : Phase r t n lines s) : lines <+: rounds n := by
  have hping {m : Nat} (hm : m < n) : rounds (n - (m + 1)) ++ [.ping] <+: rounds n := by
    have hround : rounds (n - (m + 1) + 1) <+: rounds n := rounds_isPrefix (by omega)
    rw [rounds_succ] at hround
    refine (List.prefix_append_right_inj _).mpr ?_ |>.trans hround
    exact ⟨[.pong], rfl⟩
  cases h with
  | parentTurn | parentPrint | childUp => exact rounds_isPrefix (Nat.sub_le _ _)
  | parentUp hm | childTurn hm | childPrint hm => exact hping hm

/-! ## Termination -/

/-- The steps a process has left. -/
def Proc.left (p : Proc) : Nat :=
  3 * p.n + match p.pc with
    | .head => 0
    | .print => 2
    | .up => 1

/-- A step of a side that moves leaves it one step less. -/
theorem next_left {l : Loop} {p p' : Proc} {k' : Calls.State} (h : l.next k p = some (k', p', new)) :
    p'.left + 1 = p.left := by
  obtain ⟨pc, m⟩ := p
  cases pc with
  | head =>
      simp only [Loop.next] at h
      split_ifs at h with hm
      obtain ⟨_, -, heq⟩ := Option.map_eq_some_iff.mp h
      cases heq
      simp only [Proc.left]
      omega
  | print =>
      cases h
      rfl
  | up =>
      cases h
      rfl

/-- A step of the game leaves one step less. -/
theorem step_left (h : step r t s side = some (s', new)) :
    s'.parent.left + s'.child.left + 1 = s.parent.left + s.child.left := by
  cases side with
  | parent =>
      obtain ⟨⟨k', p', new'⟩, hnext, heq⟩ := Option.map_eq_some_iff.mp h
      cases heq
      have := next_left hnext
      simp only
      omega
  | child =>
      obtain ⟨⟨k', p', new'⟩, hnext, heq⟩ := Option.map_eq_some_iff.mp h
      cases heq
      have := next_left hnext
      simp only
      omega

/-- The length of a run. -/
theorem exec_length {as : List Side}
    (h : Transition.exec (step r t) new s as = some (lines, s')) :
    as.length + (s'.parent.left + s'.child.left) = s.parent.left + s.child.left := by
  induction as generalizing new s with
  | nil =>
      cases h
      simp
  | cons side as ih =>
      obtain ⟨u, more, hstep, hrest⟩ := Transition.exec_cons_eq_some.mp h
      have := ih hrest
      have := step_left hstep
      rw [List.length_cons]
      omega

end Steps

/-- **`pingpong`.** The lines printed are at every moment the beginning of `n` rounds; a run in which no
process can take a step has printed all of them and left both loops; and a run has at most three steps
for each line. -/
theorem pingpong_alternates {k : Calls.State} {r t : Int} (hne : r ≠ t) (hr : Holds k r 1)
    (ht : Holds k t 0) (n : Nat) {as : List Side} {lines : List Line} {s : State}
    (hrun : Transition.exec (step r t) [] (start k n) as = some (lines, s)) :
    lines <+: rounds n ∧
    ((∀ side, step r t s side = none) →
      s.parent.Finished ∧ s.child.Finished ∧ lines = rounds n ∧ lines.length = 2 * n) ∧
    as.length ≤ 6 * n := by
  have hstart : Phase r t n [] (start k n) := by
    have h := Phase.parentTurn (Nat.le_refl n) hr ht
    rwa [Nat.sub_self] at h
  have hphase : Phase r t n lines s := by
    refine Transition.exec_invariant (C := fun _ _ _ => True) (I := Phase r t n) ?_ hstart
      (Transition.meets_of_forall_mem fun _ _ => trivial) hrun
    intro evs s side s' new hs _ hstep
    exact phase_step hne hs hstep
  refine ⟨hphase.isPrefix, fun hstuck => ?_, ?_⟩
  · obtain ⟨hp, hc, hlines⟩ := phase_progress hphase hstuck
    exact ⟨hp, hc, hlines, by rw [hlines, length_rounds]⟩
  · have hlength := exec_length hrun
    simp only [start, Proc.left] at hlength
    omega

/-- Two semaphores just opened by two calls. -/
def openedPair : Calls.State :=
  (Calls.semOpen 1 0 (Calls.semOpen 0 1 (Calls.boot (fun _ => ⟨false, 0, none⟩) [1, 2])).1).1

/-- Two rounds, run to their end. -/
theorem pingpong_alternates_twice :
    ∃ s, Transition.exec (step 0 1) [] (start openedPair 2)
        [.parent, .parent, .parent, .child, .child, .child, .parent, .parent, .parent, .child, .child, .child] =
          some ([.ping, .pong, .ping, .pong], s) ∧
      s.parent.Finished ∧ s.child.Finished ∧ [Line.ping, .pong, .ping, .pong] = rounds 2 := by
  obtain ⟨s, hrun, hstuck⟩ : ∃ s, Transition.exec (step 0 1) [] (start openedPair 2)
      [.parent, .parent, .parent, .child, .child, .child, .parent, .parent, .parent, .child, .child, .child] =
        some ([.ping, .pong, .ping, .pong], s) ∧ step 0 1 s .parent = none ∧ step 0 1 s .child = none :=
    ⟨_, rfl, rfl, rfl⟩
  obtain ⟨hparent, hchild⟩ := hstuck
  have hboth (side : Side) : step 0 1 s side = none := by
    cases side with
    | parent => exact hparent
    | child => exact hchild
  obtain ⟨-, hend, -⟩ := pingpong_alternates (k := openedPair) (by decide : (0 : Int) ≠ 1) ⟨rfl, rfl⟩ ⟨rfl, rfl⟩ 2
    hrun
  obtain ⟨hp, hc, hlines, -⟩ := hend hboth
  exact ⟨s, hrun, hp, hc, hlines⟩

end PingPong

end Kernel

end OsLabs
