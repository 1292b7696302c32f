import OsLabs.Lib.Simulation
import Mathlib.Data.Finset.Card

/-! # Spin locks and interrupts

`acquire`, `release`, `holding`, `push_off` and `pop_off`, one access to a lock or to the state of the hart at a
time, on any number of harts. A hart can be interrupted wherever its interrupts are on; the handler uses locks
as well, and returns when it holds none. Switching a hart to another process while it holds a lock is left out.

The specification (`Spec`) knows who holds which locks, and whether interrupts would be on if the hart held
none. `spinlock_refines`: the events of every run are those of the specification, whatever the order of the
accesses; so a lock has one holder, `holding` tells exactly who it is, and interrupts are off as long as a hart
holds a lock and go back to what they were when it has released all of them. -/

namespace OsLabs.Kernel

namespace Spin

open Transition

/-! ## State -/

/-- `struct spinlock`. -/
structure Lock (H : Type) where
  locked : Bool
  cpu : Option H

/-- What the code on a hart can call. `myproc` disables interrupts around a read of its own. -/
inductive Call (L : Type)
  | acquire (lk : L)
  | release (lk : L)
  | myproc
  deriving DecidableEq

/-- The callers of `push_off`. -/
inductive Pusher (L : Type)
  | acquire (lk : L)
  | myproc
  deriving DecidableEq

/-- The callers of `holding`. -/
inductive Asker
  | acquire
  | release
  deriving DecidableEq

/-- What a hart does next. -/
inductive Pc (L : Type)
  | caller
  | pushGet (k : Pusher L)
  | pushOff (k : Pusher L) (old : Bool)
  | pushCount (k : Pusher L) (old : Bool)
  | holdingLocked (k : Asker) (lk : L)
  | holdingCpu (k : Asker) (lk : L)
  | swap (lk : L)
  | setCpu (lk : L)
  | clearCpu (lk : L)
  | clearLocked (lk : L)
  | popCount
  | popRestore
  | panicked
  deriving DecidableEq

/-- A hart: whether its interrupts are on, `noff` and `intena` of its `struct cpu`, what it does next, and where
the interrupted code goes on. -/
structure Hart (L : Type) where
  intr : Bool
  noff : Nat
  intena : Bool
  pc : Pc L
  saved : List (Pc L)

/-- The locks and the harts. -/
structure State (H L : Type) where
  lock : L → Lock H
  hart : H → Hart L

/-- What a run reports. -/
inductive Event (H L : Type)
  | acquired (c : H) (lk : L)
  | released (c : H) (lk : L)
  | panics (c : H) (k : Call L)
  | popPanics (c : H)
  | interrupts (c : H) (on : Bool)
  deriving DecidableEq

variable {H L : Type}

section Code

variable [DecidableEq H] [DecidableEq L]

/-- Assign to a hart. -/
def State.setHart (s : State H L) (c : H) (x : Hart L) : State H L :=
  { s with hart := Function.update s.hart c x }

/-- Assign to a lock. -/
def State.setLock (s : State H L) (lk : L) (y : Lock H) : State H L :=
  { s with lock := Function.update s.lock lk y }

/-- A hart goes on at another place. -/
def State.goto (s : State H L) (c : H) (pc : Pc L) : State H L := s.setHart c { s.hart c with pc := pc }

/-! ## Code -/

/-- What follows `push_off`. -/
def Pusher.pushed : Pusher L → Pc L
  | .acquire lk => .holdingLocked .acquire lk
  | .myproc => .popCount

/-- What follows `holding`, by its result; a panic is reported. -/
def answered (s : State H L) (c : H) (lk : L) : Asker → Bool → State H L × List (Event H L)
  | .acquire, true => (s.goto c .panicked, [.panics c (.acquire lk)])
  | .acquire, false => (s.goto c (.swap lk), [])
  | .release, true => (s.goto c (.clearCpu lk), [])
  | .release, false => (s.goto c .panicked, [.panics c (.release lk)])

/-- The next access of a hart. -/
def next (s : State H L) (c : H) : Option (State H L × List (Event H L)) :=
  let x := s.hart c
  match x.pc with
  | .caller | .panicked => none
  | .pushGet k => some (s.goto c (.pushOff k x.intr), [])
  | .pushOff k old => some (s.setHart c { x with intr := false, pc := .pushCount k old }, [])
  | .pushCount k old =>
      some (s.setHart c { x with
        intena := if x.noff = 0 then old else x.intena, noff := x.noff + 1, pc := k.pushed }, [])
  | .holdingLocked k lk =>
      some (if (s.lock lk).locked then (s.goto c (.holdingCpu k lk), []) else answered s c lk k false)
  | .holdingCpu k lk => some (answered s c lk k ((s.lock lk).cpu = some c))
  | .swap lk =>
      if (s.lock lk).locked then some (s, [])
      else some ((s.setLock lk { s.lock lk with locked := true }).goto c (.setCpu lk), [.acquired c lk])
  | .setCpu lk => some ((s.setLock lk { s.lock lk with cpu := some c }).goto c .caller, [])
  | .clearCpu lk => some ((s.setLock lk { s.lock lk with cpu := none }).goto c (.clearLocked lk), [])
  | .clearLocked lk =>
      some ((s.setLock lk { s.lock lk with locked := false }).goto c .popCount, [.released c lk])
  | .popCount =>
      if x.intr ∨ x.noff < 1 then some (s.goto c .panicked, [.popPanics c])
      else some (s.setHart c { x with noff := x.noff - 1, pc := .popRestore }, [])
  | .popRestore =>
      some (s.setHart c { x with intr := if x.noff = 0 ∧ x.intena then true else x.intr, pc := .caller }, [])

/-- Where a call begins. -/
def Call.entry : Call L → Pc L
  | .acquire lk => .pushGet (.acquire lk)
  | .release lk => .holdingLocked .release lk
  | .myproc => .pushGet .myproc

/-- What can happen next on a hart. -/
inductive Action (H L : Type)
  | call (c : H) (k : Call L)
  | run (c : H)
  | trap (c : H)
  | sret (c : H)
  | setIntr (c : H) (on : Bool)
  deriving DecidableEq

/-- One step. An interrupt saves what the hart was doing and turns interrupts off; its handler returns, and other
code turns interrupts on or off, where no lock is held. -/
def step (s : State H L) : Action H L → Option (State H L × List (Event H L))
  | .call c k => if (s.hart c).pc = .caller then some (s.goto c k.entry, []) else none
  | .run c => next s c
  | .trap c =>
      let x := s.hart c
      if x.intr ∧ x.pc ≠ .panicked then
        some (s.setHart c { x with intr := false, pc := .caller, saved := x.pc :: x.saved }, [.interrupts c false])
      else none
  | .sret c =>
      let x := s.hart c
      match x.saved with
      | [] => none
      | pc :: saved =>
          if x.pc = .caller ∧ x.noff = 0 then
            some (s.setHart c { x with intr := true, pc := pc, saved := saved }, [.interrupts c true])
          else none
  | .setIntr c on =>
      let x := s.hart c
      if x.pc = .caller ∧ x.noff = 0 ∧ x.saved = [] then
        some (s.setHart c { x with intr := on }, [.interrupts c on])
      else none

/-- Locks after `initlock`, harts outside all calls. -/
def boot : State H L where
  lock _ := ⟨false, none⟩
  hart _ := ⟨false, 0, false, .caller, []⟩

/-! ## The specification -/

/-- Who holds which locks, and whether the interrupts of a hart would be on if it held none. -/
structure Spec (H L : Type) where
  held : H → Finset L
  enabled : H → Bool

/-- What can happen. A lock is acquired if nobody holds it, and released by its holder; `acquire` panics on a lock
that the hart holds, and `release` on one that it does not hold. -/
inductive Spec.Step (v : Spec H L) : Event H L → Spec H L → Prop
  | acquired {c : H} {lk : L} (hfree : ∀ d, lk ∉ v.held d) :
      Step v (.acquired c lk) { v with held := Function.update v.held c (insert lk (v.held c)) }
  | released {c : H} {lk : L} (hheld : lk ∈ v.held c) :
      Step v (.released c lk) { v with held := Function.update v.held c ((v.held c).erase lk) }
  | panicAcquire {c : H} {lk : L} (hheld : lk ∈ v.held c) : Step v (.panics c (.acquire lk)) v
  | panicRelease {c : H} {lk : L} (hfree : lk ∉ v.held c) : Step v (.panics c (.release lk)) v
  | interrupts {c : H} {on : Bool} (hnone : v.held c = ∅) :
      Step v (.interrupts c on) { v with enabled := Function.update v.enabled c on }

/-- Nobody holds a lock. -/
def Spec.init : Spec H L := ⟨fun _ => ∅, fun _ => false⟩

/-- The call that asks. -/
def Asker.call (lk : L) : Asker → Call L
  | .acquire => .acquire lk
  | .release => .release lk

/-- The lock is one that the hart must not call with: it holds the one that it acquires, or does not hold the one
that it releases. -/
def Asker.Misuses (v : Spec H L) (c : H) (lk : L) : Asker → Prop
  | .acquire => lk ∈ v.held c
  | .release => lk ∉ v.held c

end Code

/-! ## The simulation -/

/-- Interrupts are off if a lock is held, and as the code left them otherwise. -/
structure Hart.Open (x : Hart L) (held : Finset L) (enabled : Bool) : Prop where
  noff : x.noff = held.card
  on : x.noff = 0 → x.intr = enabled
  off : x.noff ≠ 0 → x.intr = false ∧ x.intena = enabled

/-- Interrupts are off, and `intena` is what they go back to; `extra` locks are on their way. -/
structure Hart.Closed (x : Hart L) (held : Finset L) (enabled : Bool) (extra : Nat) : Prop where
  noff : x.noff = held.card + extra
  pos : 0 < x.noff
  intr : x.intr = false
  intena : x.intena = enabled

/-- The state of a hart at the place where it is. -/
def Hart.At (x : Hart L) (held : Finset L) (enabled : Bool) : Pc L → Prop
  | .caller | .pushGet _ | .holdingLocked .release _ | .holdingCpu .release _ => x.Open held enabled
  | .pushOff _ old => x.Open held enabled ∧ old = x.intr
  | .pushCount _ old => x.noff = held.card ∧ x.intr = false ∧ (x.noff = 0 → old = enabled) ∧
      (x.noff ≠ 0 → x.intena = enabled)
  | .holdingLocked .acquire _ | .holdingCpu .acquire _ | .popCount => x.Closed held enabled 1
  | .swap lk => x.Closed held enabled 1 ∧ lk ∉ held
  | .setCpu lk | .clearCpu lk | .clearLocked lk => x.Closed held enabled 0 ∧ lk ∈ held
  | .popRestore => x.noff = held.card ∧ x.intr = false ∧ x.intena = enabled
  | .panicked => True

/-- Where interrupts can find a hart. -/
def Pc.Calm : Pc L → Prop
  | .caller | .pushGet _ | .pushOff _ true | .holdingLocked .release _ | .holdingCpu .release _ => True
  | _ => False

/-- The hart is where it is, and was interrupted once at most. -/
structure Hart.Ok (x : Hart L) (held : Finset L) (enabled : Bool) : Prop where
  place : x.At held enabled x.pc
  saved : x.saved = [] ∨ enabled = false ∧ ∃ pc, x.saved = [pc] ∧ pc.Calm

/-- The hart writes `lk->cpu`, or has just taken it back. -/
def Pc.Hides (lk : L) (pc : Pc L) : Prop := pc = .setCpu lk ∨ pc = .clearLocked lk

/-- The state refines the specification. -/
structure Refines (v : Spec H L) (s : State H L) : Prop where
  apart : ∀ c d, c ≠ d → Disjoint (v.held c) (v.held d)
  locked : ∀ lk, (s.lock lk).locked = true ↔ ∃ c, lk ∈ v.held c
  cpu : ∀ lk c, (s.lock lk).cpu = some c ↔ lk ∈ v.held c ∧ ¬ (s.hart c).pc.Hides lk
  hart : ∀ c, (s.hart c).Ok (v.held c) (v.enabled c)

section Harts

variable [DecidableEq H] {s : State H L} {c d : H} {x : Hart L} {pc : Pc L}

/-- The hart that was set. -/
@[simp] theorem setHart_hart_self : (s.setHart c x).hart c = x := Function.update_self ..

/-- The other harts stay. -/
@[simp] theorem setHart_hart_ne (h : d ≠ c) : (s.setHart c x).hart d = s.hart d := Function.update_of_ne h ..

/-- Setting a hart leaves the locks alone. -/
@[simp] theorem setHart_lock : (s.setHart c x).lock = s.lock := rfl

/-- Going on is setting the program counter. -/
@[simp] theorem goto_eq : s.goto c pc = s.setHart c { s.hart c with pc := pc } := rfl

end Harts

section Locks

variable [DecidableEq L] {s : State H L} {lk : L} {y : Lock H}

/-- The lock that was set. -/
@[simp] theorem setLock_lock_self : (s.setLock lk y).lock lk = y := Function.update_self ..

/-- The other locks stay. -/
@[simp] theorem setLock_lock_ne {lk' : L} (h : lk' ≠ lk) : (s.setLock lk y).lock lk' = s.lock lk' :=
  Function.update_of_ne h ..

/-- Setting a lock leaves the harts alone. -/
@[simp] theorem setLock_hart : (s.setLock lk y).hart = s.hart := rfl

end Locks

section Places

variable {x y : Hart L} {held : Finset L} {enabled : Bool} {lk : L}

/-- The place of a hart depends on its counters only. -/
theorem Hart.At.congr {pc : Pc L} (h : x.At held enabled pc) (hintr : y.intr = x.intr) (hnoff : y.noff = x.noff)
    (hintena : y.intena = x.intena) : y.At held enabled pc := by
  cases pc with
  | holdingLocked k _ | holdingCpu k _ =>
      cases k with
      | acquire => exact ⟨hnoff ▸ h.noff, hnoff ▸ h.pos, hintr ▸ h.intr, hintena ▸ h.intena⟩
      | release => exact ⟨hnoff ▸ h.noff, hnoff ▸ hintr ▸ h.on, hnoff ▸ hintr ▸ hintena ▸ h.off⟩
  | caller | pushGet => exact ⟨hnoff ▸ h.noff, hnoff ▸ hintr ▸ h.on, hnoff ▸ hintr ▸ hintena ▸ h.off⟩
  | pushOff =>
      exact ⟨⟨hnoff ▸ h.1.noff, hnoff ▸ hintr ▸ h.1.on, hnoff ▸ hintr ▸ hintena ▸ h.1.off⟩, hintr ▸ h.2⟩
  | pushCount => exact ⟨hnoff ▸ h.1, hintr ▸ h.2.1, hnoff ▸ h.2.2.1, hnoff ▸ hintena ▸ h.2.2.2⟩
  | swap | setCpu | clearCpu | clearLocked =>
      exact ⟨⟨hnoff ▸ h.1.noff, hnoff ▸ h.1.pos, hintr ▸ h.1.intr, hintena ▸ h.1.intena⟩, h.2⟩
  | popCount => exact ⟨hnoff ▸ h.noff, hnoff ▸ h.pos, hintr ▸ h.intr, hintena ▸ h.intena⟩
  | popRestore => exact ⟨hnoff ▸ h.1, hintr ▸ h.2.1, hintena ▸ h.2.2⟩
  | panicked => trivial

/-- A hart that holds a lock has its interrupts off. -/
theorem Hart.Open.closed (h : x.Open held enabled) (hlk : lk ∈ held) : x.Closed held enabled 0 := by
  have hpos : 0 < x.noff := by
    rw [h.noff]
    exact Finset.card_pos.mpr ⟨lk, hlk⟩
  have hoff := h.off (Nat.ne_of_gt hpos)
  exact ⟨h.noff, hpos, hoff.1, hoff.2⟩

/-- With no further lock on its way, the hart is in order as one that is not at work on a lock. -/
theorem Hart.Closed.open (h : x.Closed held enabled 0) : x.Open held enabled :=
  ⟨h.noff, fun hzero => absurd hzero (Nat.ne_of_gt h.pos), fun _ => ⟨h.intr, h.intena⟩⟩

/-- A hart with its interrupts on is at a place where they can find it, and holds no lock. -/
theorem Hart.At.calm (h : x.At held enabled x.pc) (hintr : x.intr = true) (hpc : x.pc ≠ .panicked) :
    x.pc.Calm ∧ held = ∅ ∧ enabled = true ∧ x.noff = 0 := by
  have hopen (ho : x.Open held enabled) : held = ∅ ∧ enabled = true ∧ x.noff = 0 := by
    have hzero : x.noff = 0 := by
      by_contra hne
      rw [(ho.off hne).1] at hintr
      cases hintr
    refine ⟨?_, ?_, hzero⟩
    · rw [← Finset.card_eq_zero, ← ho.noff, hzero]
    · rw [← ho.on hzero, hintr]
  have hclosed {n : Nat} (hc : x.Closed held enabled n) : False := by
    rw [hc.intr] at hintr
    cases hintr
  -- the places where interrupts are on are the calm ones; at the others `intr` is false
  cases hx : x.pc with
  | caller | pushGet => exact ⟨trivial, hopen (by rwa [hx] at h)⟩
  | pushOff k old =>
      rw [hx] at h
      obtain ⟨ho, rfl⟩ := h
      rw [hintr]
      exact ⟨trivial, hopen ho⟩
  | pushCount =>
      rw [hx] at h
      rw [h.2.1] at hintr
      cases hintr
  | holdingLocked k | holdingCpu k =>
      rw [hx] at h
      cases k with
      | acquire => exact (hclosed h).elim
      | release => exact ⟨trivial, hopen h⟩
  | swap | setCpu | clearCpu | clearLocked =>
      rw [hx] at h
      exact (hclosed h.1).elim
  | popCount =>
      rw [hx] at h
      exact (hclosed h).elim
  | popRestore =>
      rw [hx] at h
      rw [h.2.1] at hintr
      cases hintr
  | panicked => exact absurd hx hpc

/-- Where an interrupted hart goes on when its handler has returned. -/
theorem Pc.Calm.resumes {pc : Pc L} (h : pc.Calm) (hintr : x.intr = true) (hnoff : x.noff = 0) :
    x.At ∅ true pc := by
  have hopen : x.Open ∅ true := ⟨by rw [hnoff, Finset.card_empty], fun _ => hintr, fun hne => absurd hnoff hne⟩
  cases pc with
  | caller | pushGet => exact hopen
  | pushOff k old =>
      cases old with
      | true => exact ⟨hopen, hintr.symm⟩
      | false => exact h.elim
  | holdingLocked k | holdingCpu k =>
      cases k with
      | acquire => exact h.elim
      | release => exact hopen
  | _ => exact h.elim

/-- Interrupts never find a hart at the lines that hide a lock. -/
theorem Pc.Calm.not_hides {pc : Pc L} (h : pc.Calm) : ¬ pc.Hides lk := by
  rintro (rfl | rfl)
  · exact h
  · exact h

end Places

section Simulation

variable {v : Spec H L} {s : State H L} {c : H} {x : Hart L} {lk : L}

/-- A lock that a hart holds is not held by another one. -/
theorem Refines.holder (h : Refines v s) {d : H} (hc : lk ∈ v.held c) (hd : lk ∈ v.held d) : d = c := by
  by_contra hne
  exact Finset.disjoint_left.mp (h.apart d c hne) hd hc

/-- `holding` is right at a place that is not in the middle of `acquire` or `release`. -/
theorem Refines.cpu_iff (h : Refines v s) (hpc : ¬ (s.hart c).pc.Hides lk) :
    (s.lock lk).cpu = some c ↔ lk ∈ v.held c := by
  rw [h.cpu]
  exact and_iff_left hpc

/-- A lock that is not locked is held by nobody. -/
theorem Refines.free (h : Refines v s) (hlk : (s.lock lk).locked = false) (d : H) : lk ∉ v.held d := by
  intro hd
  rw [(h.locked lk).mpr ⟨d, hd⟩] at hlk
  cases hlk

/-- The kernel starts with the specification. -/
theorem refines_boot : Refines (Spec.init : Spec H L) boot where
  apart _ _ _ := Finset.disjoint_empty_left _
  locked lk := by simp [boot, Spec.init]
  cpu lk c := by simp [boot, Spec.init]
  hart c := ⟨⟨rfl, fun _ => rfl, fun hne => absurd rfl hne⟩, .inl rfl⟩

variable [DecidableEq H]

/-- A hart goes on without touching a lock. -/
theorem Refines.moves (h : Refines v s) (hx : x.Ok (v.held c) (v.enabled c))
    (hold : ∀ lk, ¬ (s.hart c).pc.Hides lk) (hnew : ∀ lk, ¬ x.pc.Hides lk) : Refines v (s.setHart c x) where
  apart := h.apart
  locked := h.locked
  cpu lk d := by
    by_cases hd : d = c
    · subst hd
      rw [setHart_lock, setHart_hart_self, h.cpu]
      exact and_congr_right fun _ => iff_of_true (hold lk) (hnew lk)
    · rw [setHart_lock, setHart_hart_ne hd, h.cpu]
  hart d := by
    by_cases hd : d = c
    · subst hd
      rwa [setHart_hart_self]
    · rw [setHart_hart_ne hd]
      exact h.hart d

/-- A hart whose interrupts are turned on or off by its caller. -/
theorem Refines.interrupts (h : Refines v s) {on : Bool} (hx : x.Ok (v.held c) on)
    (hold : ∀ lk, ¬ (s.hart c).pc.Hides lk) (hnew : ∀ lk, ¬ x.pc.Hides lk) :
    Refines { v with enabled := Function.update v.enabled c on } (s.setHart c x) where
  apart := h.apart
  locked := h.locked
  cpu lk d := by
    by_cases hd : d = c
    · subst hd
      rw [setHart_lock, setHart_hart_self, h.cpu]
      exact and_congr_right fun _ => iff_of_true (hold lk) (hnew lk)
    · rw [setHart_lock, setHart_hart_ne hd, h.cpu]
  hart d := by
    by_cases hd : d = c
    · subst hd
      rw [setHart_hart_self]
      show x.Ok (v.held d) (Function.update v.enabled d on d)
      rwa [Function.update_self]
    · rw [setHart_hart_ne hd]
      show (s.hart d).Ok (v.held d) (Function.update v.enabled c on d)
      rw [Function.update_of_ne hd]
      exact h.hart d

variable [DecidableEq L]

/-- A hart writes `lk->cpu` of a lock that it holds. -/
theorem Refines.writesCpu (h : Refines v s) {owner : Option H} (hheld : lk ∈ v.held c)
    (hpc : ∀ lk', (s.hart c).pc.Hides lk' → lk' = lk) (hx : x.Ok (v.held c) (v.enabled c))
    (hnew : ∀ lk', x.pc.Hides lk' → lk' = lk) (howner : owner = some c ∧ ¬ x.pc.Hides lk ∨
      owner = none ∧ x.pc.Hides lk) :
    Refines v ((s.setLock lk { s.lock lk with cpu := owner }).setHart c x) where
  apart := h.apart
  -- the flag of the lock is not written
  locked lk' := by
    by_cases hlk : lk' = lk
    · subst hlk
      rw [setHart_lock, setLock_lock_self]
      exact h.locked lk'
    · rw [setHart_lock, setLock_lock_ne hlk]
      exact h.locked lk'
  -- only the owner of `lk` is written, and the hart that writes it hides it just as long
  cpu lk' d := by
    by_cases hd : d = c
    · subst hd
      rw [setHart_lock, setHart_hart_self]
      by_cases hlk : lk' = lk
      · subst hlk
        rw [setLock_lock_self]
        rcases howner with ⟨rfl, hshows⟩ | ⟨rfl, hhides⟩
        · simp [hheld, hshows]
        · simp [hhides]
      · rw [setLock_lock_ne hlk, h.cpu]
        exact and_congr_right fun _ => iff_of_true (mt (hpc lk') hlk) (mt (hnew lk') hlk)
    · rw [setHart_lock, setHart_hart_ne hd]
      by_cases hlk : lk' = lk
      · subst hlk
        rw [setLock_lock_self]
        have hnot : lk' ∉ v.held d := fun hmem => hd (h.holder hheld hmem)
        rcases howner with ⟨rfl, -⟩ | ⟨rfl, -⟩
        · simp [hnot, Ne.symm hd]
        · simp [hnot]
      · rw [setLock_lock_ne hlk]
        exact h.cpu lk' d
  hart d := by
    by_cases hd : d = c
    · subst hd
      rwa [setHart_hart_self]
    · rw [setHart_hart_ne hd]
      exact h.hart d

/-- A hart takes a free lock, or gives one back. -/
theorem Refines.changes (h : Refines v s) {held : Finset L} {locked : Bool}
    (hpc : ∀ lk', (s.hart c).pc.Hides lk' → lk' = lk) (hx : x.Ok held (v.enabled c))
    (hnew : ∀ lk', x.pc.Hides lk' → lk' = lk)
    (hsame : ∀ lk', lk' ≠ lk → (lk' ∈ held ↔ lk' ∈ v.held c))
    (hlk : locked = true ↔ lk ∈ held) (hothers : ∀ d, d ≠ c → lk ∉ v.held d)
    (hhidden : lk ∈ held → x.pc.Hides lk) (hcpu : (s.lock lk).cpu ≠ some c) :
    Refines { v with held := Function.update v.held c held }
      ((s.setLock lk { s.lock lk with locked := locked }).setHart c x) where
  apart := by
    have hdisj : ∀ d, d ≠ c → Disjoint held (v.held d) := by
      intro d hd
      refine Finset.disjoint_left.mpr fun lk' hmem hmem' => ?_
      -- `lk` was nobody else's; the other locks of `c` were its own before
      by_cases heq : lk' = lk
      · exact hothers d hd (heq ▸ hmem')
      · exact Finset.disjoint_left.mp (h.apart c d (Ne.symm hd)) ((hsame lk' heq).mp hmem) hmem'
    intro d e hde
    show Disjoint (Function.update v.held c held d) (Function.update v.held c held e)
    by_cases hd : d = c
    · rw [hd, Function.update_self, Function.update_of_ne fun heq => hde (hd.trans heq.symm)]
      exact hdisj e fun heq => hde (hd.trans heq.symm)
    · rw [Function.update_of_ne hd]
      by_cases he : e = c
      · rw [he, Function.update_self]
        exact (hdisj d hd).symm
      · rw [Function.update_of_ne he]
        exact h.apart d e hde
  locked lk' := by
    show _ ↔ ∃ d, lk' ∈ Function.update v.held c held d
    by_cases heq : lk' = lk
    · subst heq
      rw [setHart_lock, setLock_lock_self]
      show locked = true ↔ _
      rw [hlk]
      refine ⟨fun hmem => ⟨c, by rwa [Function.update_self]⟩, ?_⟩
      rintro ⟨d, hd⟩
      by_cases hdc : d = c
      · rwa [hdc, Function.update_self] at hd
      · rw [Function.update_of_ne hdc] at hd
        exact absurd hd (hothers d hdc)
    · rw [setHart_lock, setLock_lock_ne heq, h.locked lk']
      refine exists_congr fun d => ?_
      by_cases hdc : d = c
      · rw [hdc, Function.update_self, hsame lk' heq]
      · rw [Function.update_of_ne hdc]
  cpu lk' d := by
    show _ ↔ lk' ∈ Function.update v.held c held d ∧ _
    -- `cpu` is not written: the flag of `lk` is, or nothing
    have hcpus : (((s.setLock lk { s.lock lk with locked := locked }).setHart c x).lock lk').cpu =
        (s.lock lk').cpu := by
      by_cases heq : lk' = lk
      · subst heq
        rw [setHart_lock, setLock_lock_self]
      · rw [setHart_lock, setLock_lock_ne heq]
    rw [hcpus]
    by_cases hdc : d = c
    · subst hdc
      rw [Function.update_self, setHart_hart_self]
      by_cases heq : lk' = lk
      -- `lk` is not shown as held by `c`: before the step it was free or hidden, and it is hidden now
      · subst heq
        exact iff_of_false hcpu fun hmem => hmem.2 (hhidden hmem.1)
      · rw [h.cpu, hsame lk' heq]
        exact and_congr_right fun _ => iff_of_true (mt (hpc lk') heq) (mt (hnew lk') heq)
    · rw [Function.update_of_ne hdc, setHart_hart_ne hdc]
      exact h.cpu lk' d
  hart d := by
    show Hart.Ok _ (Function.update v.held c held d) (v.enabled d)
    by_cases hd : d = c
    · subst hd
      rwa [setHart_hart_self, Function.update_self]
    · rw [setHart_hart_ne hd, Function.update_of_ne hd]
      exact h.hart d

/-- What `holding` answers decides what follows. -/
theorem Refines.answers (h : Refines v s) {k : Asker} {b : Bool}
    (hplace : (s.hart c).At (v.held c) (v.enabled c) (.holdingCpu k lk))
    (hpc : ∀ lk', ¬ (s.hart c).pc.Hides lk') (hb : b = true ↔ lk ∈ v.held c) :
    ∃ w, Accepted Spec.Step v (answered s c lk k b).2 w ∧ Refines w (answered s c lk k b).1 := by
  have hsaved := (h.hart c).saved
  cases k with
  | acquire =>
      cases b with
      | true =>
          refine ⟨v, .one (.panicAcquire (hb.mp rfl)), h.moves ⟨trivial, hsaved⟩ hpc fun lk' => ?_⟩
          rintro (heq | heq) <;> cases heq
      | false =>
          have hfree : lk ∉ v.held c := fun hmem => by simpa using hb.mpr hmem
          refine ⟨v, .nil v, h.moves ⟨⟨⟨hplace.noff, hplace.pos, hplace.intr, hplace.intena⟩, hfree⟩, hsaved⟩
            hpc fun lk' => ?_⟩
          rintro (heq | heq) <;> cases heq
  | release =>
      cases b with
      | true =>
          have hclosed := hplace.closed (hb.mp rfl)
          refine ⟨v, .nil v, h.moves ⟨⟨⟨hclosed.noff, hclosed.pos, hclosed.intr, hclosed.intena⟩, hb.mp rfl⟩,
            hsaved⟩ hpc fun lk' => ?_⟩
          rintro (heq | heq) <;> cases heq
      | false =>
          have hfree : lk ∉ v.held c := fun hmem => by simpa using hb.mpr hmem
          refine ⟨v, .one (.panicRelease hfree), h.moves ⟨trivial, hsaved⟩ hpc fun lk' => ?_⟩
          rintro (heq | heq) <;> cases heq

/-- One access of a hart is a step of the specification, or none. -/
theorem Refines.next {u : State H L} {new : List (Event H L)} (h : Refines v s)
    (hs : Spin.next s c = some (u, new)) : ∃ w, Accepted Spec.Step v new w ∧ Refines w u := by
  have hplace := (h.hart c).place
  have hsaved := (h.hart c).saved
  -- only two places hide a lock, and the others are told apart from them by their constructor
  have hplain {pc : Pc L} (hpc : (s.hart c).pc = pc) (hpc' : ∀ lk, pc ≠ .setCpu lk ∧ pc ≠ .clearLocked lk)
      (lk : L) : ¬ (s.hart c).pc.Hides lk := by
    rintro (heq | heq)
    · exact (hpc' lk).1 (hpc.symm.trans heq)
    · exact (hpc' lk).2 (hpc.symm.trans heq)
  unfold Spin.next at hs
  dsimp only at hs
  cases hpc : (s.hart c).pc with
  | caller =>
      rw [hpc] at hs
      cases hs
  | panicked =>
      rw [hpc] at hs
      cases hs
  | pushGet k =>
      rw [hpc] at hs hplace
      cases hs
      refine ⟨v, .nil v, h.moves ⟨⟨⟨hplace.noff, hplace.on, hplace.off⟩, rfl⟩, hsaved⟩
        (hplain hpc (by simp)) ?_⟩
      -- the interrupt flag is read: nothing changes for the abstract table
      rintro lk (heq | heq) <;> cases heq
  | pushOff k old =>
      rw [hpc] at hs hplace
      cases hs
      obtain ⟨hopen, rfl⟩ := hplace
      refine ⟨v, .nil v, h.moves ⟨⟨hopen.noff, rfl, hopen.on, fun hne => (hopen.off hne).2⟩, hsaved⟩
        (hplain hpc (by simp)) ?_⟩
      rintro lk (heq | heq) <;> cases heq
  -- the count goes up, and the first lock remembers what interrupts were
  | pushCount k old =>
      rw [hpc] at hs hplace
      cases hs
      obtain ⟨hnoff, hintr, hzero, hpos⟩ := hplace
      have hclosed : Hart.Closed { s.hart c with
          intena := if (s.hart c).noff = 0 then old else (s.hart c).intena, noff := (s.hart c).noff + 1,
          pc := k.pushed } (v.held c) (v.enabled c) 1 := by
        refine ⟨by rw [← hnoff], Nat.succ_pos _, hintr, ?_⟩
        dsimp only
        split_ifs with heq
        · exact hzero heq
        · exact hpos heq
      refine ⟨v, .nil v, h.moves ⟨?_, hsaved⟩ (hplain hpc (by simp)) ?_⟩
      · cases k <;> exact hclosed
      · rintro lk (heq | heq) <;> cases k <;> cases heq
  -- `lk->locked` is 0: `holding` answers no at once
  | holdingLocked k lk =>
      rw [hpc] at hs hplace
      dsimp only at hs
      have hplace' : (s.hart c).At (v.held c) (v.enabled c) (.holdingCpu k lk) := by
        cases k <;> exact hplace
      have heq := Option.some.inj hs
      split_ifs at heq with hlocked
      · cases heq
        refine ⟨v, .nil v, h.moves ⟨hplace'.congr rfl rfl rfl, hsaved⟩ (hplain hpc (by simp)) ?_⟩
        rintro lk (heq | heq) <;> cases heq
      · have hfree := h.free (by simpa using hlocked) c
        have hanswer := h.answers (b := false) hplace' (hplain hpc (by simp)) (iff_of_false (by simp) hfree)
        rwa [heq] at hanswer
  -- `holding` answers what `lk->cpu` says, and this is the abstract table
  | holdingCpu k lk =>
      rw [hpc] at hs hplace
      dsimp only at hs
      have hcalm := hplain hpc (by simp)
      have hanswer := h.answers (b := decide ((s.lock lk).cpu = some c)) hplace hcalm
        (by rw [decide_eq_true_eq, h.cpu_iff (hcalm lk)])
      rwa [Option.some.inj hs] at hanswer
  | swap lk =>
      rw [hpc] at hs hplace
      dsimp only at hs
      -- the test and set: it spins while the lock is held, and takes a free one
      split_ifs at hs with hlocked
      · cases hs
        exact ⟨v, .nil v, h⟩
      · cases hs
        obtain ⟨hclosed, hnot⟩ := hplace
        have hfree := h.free (by simpa using hlocked)
        refine ⟨_, .one (.acquired hfree), h.changes ?_ ⟨⟨⟨?_, hclosed.pos, hclosed.intr, hclosed.intena⟩, ?_⟩,
          hsaved⟩ ?_ ?_ ?_ (fun d _ => hfree d) (fun _ => .inl rfl) ?_⟩
        · exact fun lk' hhides => absurd hhides (hplain hpc (by simp) lk')
        · rw [Finset.card_insert_of_notMem hnot]
          exact hclosed.noff
        · exact Finset.mem_insert_self lk _
        · rintro lk' (heq | heq) <;> cases heq
          rfl
        · exact fun lk' hne => by simp [hne]
        · simp
        · exact fun hcpu => hnot ((h.cpu lk c).mp hcpu).1
  -- the lock is in the table since the swap; from here on `lk->cpu` shows it
  | setCpu lk =>
      rw [hpc] at hs hplace
      cases hs
      obtain ⟨hclosed, hheld⟩ := hplace
      have hopen := hclosed.open
      refine ⟨v, .nil v, h.writesCpu hheld ?_ ⟨⟨hopen.noff, hopen.on, hopen.off⟩, hsaved⟩ ?_ (.inl ⟨rfl, ?_⟩)⟩
      · rw [hpc]
        rintro lk' (heq | heq) <;> cases heq
        rfl
      · rintro lk' (heq | heq) <;> cases heq
      · rintro (heq | heq) <;> cases heq
  | clearCpu lk =>
      rw [hpc] at hs hplace
      cases hs
      obtain ⟨hclosed, hheld⟩ := hplace
      refine ⟨v, .nil v, h.writesCpu hheld (fun lk' hhides => absurd hhides (hplain hpc (by simp) lk'))
        ⟨⟨⟨hclosed.noff, hclosed.pos, hclosed.intr, hclosed.intena⟩, hheld⟩, hsaved⟩ ?_
        (.inr ⟨rfl, .inr rfl⟩)⟩
      rintro lk' (heq | heq) <;> cases heq
      rfl
  -- the release: the lock leaves the table before interrupts may come back
  | clearLocked lk =>
      rw [hpc] at hs hplace
      cases hs
      obtain ⟨hclosed, hheld⟩ := hplace
      refine ⟨_, .one (.released hheld), h.changes ?_ ⟨⟨?_, hclosed.pos, hclosed.intr, hclosed.intena⟩, hsaved⟩
        ?_ ?_ ?_ ?_ ?_ ?_⟩
      · rw [hpc]
        rintro lk' (heq | heq) <;> cases heq
        rfl
      · rw [Finset.card_erase_of_mem hheld]
        have hnoff := hclosed.noff
        have hpos := hclosed.pos
        show (s.hart c).noff = _
        omega
      · rintro lk' (heq | heq) <;> cases heq
      · exact fun lk' hne => by simp [hne]
      · simp
      · exact fun d hd hmem => hd (h.holder hheld hmem)
      · simp
      · exact fun hcpu => ((h.cpu lk c).mp hcpu).2 (.inr hpc)
  -- `pop_off` never panics: interrupts are off, and the count is positive
  | popCount =>
      rw [hpc] at hs hplace
      dsimp only at hs
      have hgood : ¬ ((s.hart c).intr = true ∨ (s.hart c).noff < 1) := by
        have hpos := hplace.pos
        rw [hplace.intr]
        simp
        omega
      rw [if_neg hgood] at hs
      cases hs
      refine ⟨v, .nil v, h.moves ⟨⟨?_, hplace.intr, hplace.intena⟩, hsaved⟩ (hplain hpc (by simp)) ?_⟩
      · show (s.hart c).noff - 1 = _
        rw [hplace.noff, Nat.add_sub_cancel]
      · rintro lk (heq | heq) <;> cases heq
  -- the last lock turns interrupts back to what they were
  | popRestore =>
      rw [hpc] at hs hplace
      cases hs
      obtain ⟨hnoff, hintr, hintena⟩ := hplace
      refine ⟨v, .nil v, h.moves ⟨⟨hnoff, fun hzero => ?_, fun hne => ⟨?_, hintena⟩⟩, hsaved⟩
        (hplain hpc (by simp)) ?_⟩
      · replace hzero : (s.hart c).noff = 0 := hzero
        show (if (s.hart c).noff = 0 ∧ (s.hart c).intena then true else (s.hart c).intr) = v.enabled c
        rw [hintr, hintena, hzero]
        cases v.enabled c <;> rfl
      · replace hne : (s.hart c).noff ≠ 0 := hne
        show (if (s.hart c).noff = 0 ∧ (s.hart c).intena then true else (s.hart c).intr) = false
        rw [if_neg fun hand => hne hand.1, hintr]
      · rintro lk (heq | heq) <;> cases heq

/-- Every step is one of the specification, or none. -/
theorem Refines.step {u : State H L} {a : Action H L} {new : List (Event H L)} (h : Refines v s)
    (hs : Spin.step s a = some (u, new)) : ∃ w, Accepted Spec.Step v new w ∧ Refines w u := by
  -- what a hart outside the functions of the lock is: open, and hiding nothing
  have hcaller {c : H} (hpc : (s.hart c).pc = .caller) : (s.hart c).Open (v.held c) (v.enabled c) ∧
      ∀ lk, ¬ (s.hart c).pc.Hides lk := by
    have hplace := (h.hart c).place
    rw [hpc] at hplace
    refine ⟨hplace, fun lk => ?_⟩
    rw [hpc]
    rintro (heq | heq) <;> cases heq
  have hempty {c : H} (hopen : (s.hart c).Open (v.held c) (v.enabled c)) (hzero : (s.hart c).noff = 0) :
      v.held c = ∅ := by
    rw [← Finset.card_eq_zero, ← hopen.noff, hzero]
  cases a with
  | run c => exact h.next hs
  | call c k =>
      unfold Spin.step at hs
      dsimp only at hs
      split_ifs at hs with hpc
      cases hs
      obtain ⟨hopen, hplain⟩ := hcaller hpc
      refine ⟨v, .nil v, h.moves ⟨?_, (h.hart c).saved⟩ hplain fun lk => ?_⟩
      · cases k <;> exact ⟨hopen.noff, hopen.on, hopen.off⟩
      · rintro (heq | heq) <;> cases k <;> cases heq
  | trap c =>
      unfold Spin.step at hs
      dsimp only at hs
      split_ifs at hs with hcan
      cases hs
      -- an interrupt finds a hart that holds no lock
      obtain ⟨hcalm, hheld, henabled, hzero⟩ := (h.hart c).place.calm hcan.1 hcan.2
      have hsaved : (s.hart c).saved = [] := by
        refine (h.hart c).saved.resolve_right fun hfalse => ?_
        rw [henabled] at hfalse
        cases hfalse.1
      refine ⟨_, .one (.interrupts hheld), h.interrupts ⟨⟨?_, fun _ => rfl, fun hne => absurd hzero hne⟩,
        .inr ⟨rfl, _, ?_, hcalm⟩⟩ (fun lk => hcalm.not_hides) fun lk => ?_⟩
      · rw [hheld, Finset.card_empty]
        exact hzero
      · rw [hsaved]
      · rintro (heq | heq) <;> cases heq
  | sret c =>
      unfold Spin.step at hs
      dsimp only at hs
      cases hsaved : (s.hart c).saved with
      | nil =>
          rw [hsaved] at hs
          cases hs
      | cons pc saved =>
          rw [hsaved] at hs
          dsimp only at hs
          split_ifs at hs with hdone
          cases hs
          -- the handler returns with no lock left, to a place that hides none
          obtain ⟨hopen, hplain⟩ := hcaller hdone.1
          have hheld := hempty hopen hdone.2
          obtain ⟨-, pc', heq, hcalm⟩ := (h.hart c).saved.resolve_left (by simp [hsaved])
          rw [hsaved] at heq
          cases heq
          refine ⟨_, .one (.interrupts hheld), h.interrupts ⟨?_, .inl rfl⟩ hplain fun lk => hcalm.not_hides⟩
          rw [hheld]
          exact hcalm.resumes rfl hdone.2
  | setIntr c on =>
      unfold Spin.step at hs
      dsimp only at hs
      split_ifs at hs with hcan
      cases hs
      obtain ⟨hpc, hzero, hsaved⟩ := hcan
      obtain ⟨hopen, hplain⟩ := hcaller hpc
      refine ⟨_, .one (.interrupts (hempty hopen hzero)), h.interrupts ⟨?_, .inl hsaved⟩ hplain hplain⟩
      show Hart.At _ (v.held c) on (s.hart c).pc
      rw [hpc]
      exact ⟨hopen.noff, fun _ => rfl, fun hne => absurd hzero hne⟩

/-- The hart that reads `lk->cpu` for a wrong call panics. -/
theorem Refines.panics_of_holdingCpu (h : Refines v s) {k : Asker} (hpc : (s.hart c).pc = .holdingCpu k lk)
    (hwrong : k.Misuses v c lk) : Spin.next s c = some (s.goto c .panicked, [.panics c (k.call lk)]) := by
  have hcpu : (s.lock lk).cpu = some c ↔ lk ∈ v.held c := h.cpu_iff (by
    rw [hpc]
    rintro (heq | heq) <;> cases heq)
  unfold Spin.next
  dsimp only
  rw [hpc]
  dsimp only
  cases k with
  | acquire =>
      rw [decide_eq_true (hcpu.mpr hwrong)]
      rfl
  | release =>
      rw [decide_eq_false (mt hcpu.mp hwrong)]
      rfl

/-- The hart that reads `lk->locked` for a wrong call goes on to `lk->cpu`, or panics. -/
theorem Refines.panics_of_holdingLocked (h : Refines v s) {k : Asker} (hpc : (s.hart c).pc = .holdingLocked k lk)
    (hwrong : k.Misuses v c lk) :
    Spin.next s c = some (s.goto c (.holdingCpu k lk), []) ∨
      Spin.next s c = some (s.goto c .panicked, [.panics c (k.call lk)]) := by
  unfold Spin.next
  dsimp only
  rw [hpc]
  dsimp only
  cases hlk : (s.lock lk).locked with
  | true => exact .inl rfl
  | false =>
      cases k with
      | acquire => exact absurd hwrong (h.free hlk c)
      | release => exact .inr rfl

/-- **Spin locks are locks.** Whatever the order in which the harts make their accesses and are interrupted, a
lock is only acquired when nobody holds it, and only released by its holder; `acquire` panics only on a lock
that the hart holds, `release` only on one that it does not hold, and `pop_off` never; a lock word is set
while somebody holds the lock. A hart in `holding` for such a wrong call panics at its next access or the one
after. A hart whose interrupts are on holds no lock, and outside all calls `noff` is the
number of its locks, and its interrupts are on if it holds none and they were enabled. -/
theorem spinlock_refines {as : List (Action H L)} {evs : List (Event H L)} {t : State H L}
    (hrun : Transition.exec Spin.step [] boot as = some (evs, t)) :
    ∃ v, Accepted Spec.Step Spec.init evs v ∧ (∀ c d, c ≠ d → Disjoint (v.held c) (v.held d)) ∧
      (∀ lk, (t.lock lk).locked = true ↔ ∃ c, lk ∈ v.held c) ∧
      (∀ c lk, ∀ k : Asker, k.Misuses v c lk →
        ((t.hart c).pc = .holdingCpu k lk → next t c = some (t.goto c .panicked, [.panics c (k.call lk)])) ∧
        ((t.hart c).pc = .holdingLocked k lk → next t c = some (t.goto c (.holdingCpu k lk), []) ∨
          next t c = some (t.goto c .panicked, [.panics c (k.call lk)]))) ∧
      ∀ c, ((t.hart c).intr = true → (t.hart c).pc ≠ .panicked → v.held c = ∅) ∧
        ((t.hart c).pc = .caller → (t.hart c).noff = (v.held c).card ∧
          ((t.hart c).intr = true ↔ v.held c = ∅ ∧ v.enabled c = true)) := by
  obtain ⟨v, hevs, h⟩ := exec_accepted (fun v s a u new hR hs => Refines.step hR hs) (.nil Spec.init)
    refines_boot hrun
  refine ⟨v, hevs, h.apart, h.locked,
    fun c lk k hwrong => ⟨fun hpc => h.panics_of_holdingCpu hpc hwrong,
      fun hpc => h.panics_of_holdingLocked hpc hwrong⟩,
    fun c => ⟨fun hintr hpc => ((h.hart c).place.calm hintr hpc).2.1, fun hpc => ?_⟩⟩
  have hplace := (h.hart c).place
  refine ⟨?_, fun hintr => ?_, ?_⟩
  · rw [hpc] at hplace
    exact hplace.noff
  · obtain ⟨-, hheld, henabled, -⟩ := hplace.calm hintr (by rw [hpc]; simp)
    exact ⟨hheld, henabled⟩
  · rintro ⟨hheld, henabled⟩
    rw [hpc] at hplace
    rw [hplace.on (by rw [hplace.noff, hheld, Finset.card_empty]), henabled]

/-- The first of two harts. -/
def hart0 : Fin 2 := ⟨0, Nat.two_pos⟩

/-- The second one. -/
def hart1 : Fin 2 := ⟨1, Nat.one_lt_two⟩

/-- Two harts, a lock that both want, and an interrupt in the middle of `push_off`. -/
def contended : List (Action (Fin 2) Bool) :=
  [.setIntr hart0 true, .call hart0 (.acquire true), .run hart0, .trap hart0, .call hart0 (.acquire false)] ++
    List.replicate 6 (.run hart0) ++ .call hart0 (.release false) :: List.replicate 6 (.run hart0) ++
    .sret hart0 :: List.replicate 4 (.run hart0) ++ .call hart1 (.acquire true) :: List.replicate 6 (.run hart1) ++
    .run hart0 :: .call hart0 (.acquire true) :: List.replicate 5 (.run hart0)

/-- A hart is interrupted, takes a lock in the handler, and panics when it takes its own lock again.
-/
theorem spinlock_refines_contended : ∃ evs t, Transition.exec Spin.step [] boot contended = some (evs, t) ∧
    evs = [.interrupts hart0 true, .interrupts hart0 false, .acquired hart0 false, .released hart0 false,
      .interrupts hart0 true, .acquired hart0 true, .panics hart0 (.acquire true)] ∧
    ∃ v, Accepted Spec.Step Spec.init evs v ∧ (∀ c d, c ≠ d → Disjoint (v.held c) (v.held d)) ∧
      (∀ lk, (t.lock lk).locked = true ↔ ∃ c, lk ∈ v.held c) ∧
      (∀ c lk, ∀ k : Asker, k.Misuses v c lk →
        ((t.hart c).pc = .holdingCpu k lk → next t c = some (t.goto c .panicked, [.panics c (k.call lk)])) ∧
        ((t.hart c).pc = .holdingLocked k lk → next t c = some (t.goto c (.holdingCpu k lk), []) ∨
          next t c = some (t.goto c .panicked, [.panics c (k.call lk)]))) ∧
      ∀ c, ((t.hart c).intr = true → (t.hart c).pc ≠ .panicked → v.held c = ∅) ∧
        ((t.hart c).pc = .caller → (t.hart c).noff = (v.held c).card ∧
          ((t.hart c).intr = true ↔ v.held c = ∅ ∧ v.enabled c = true)) := by
  have hevents : (Transition.exec Spin.step [] boot contended).map Prod.fst =
      some [.interrupts hart0 true, .interrupts hart0 false, .acquired hart0 false, .released hart0 false,
        .interrupts hart0 true, .acquired hart0 true, .panics hart0 (.acquire true)] := by
    decide +kernel
  obtain ⟨⟨evs, t⟩, hrun, heq⟩ := Option.map_eq_some_iff.mp hevents
  exact ⟨evs, t, hrun, heq, spinlock_refines hrun⟩

end Simulation

end Spin

end OsLabs.Kernel
