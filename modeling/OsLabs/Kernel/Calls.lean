import OsLabs.Lib.Transition
import Mathlib

/-! # The table of semaphores and its system calls

The array `semaphores` of `kernel/proc.c` with the calls `sys_sem_open`, `sys_sem_close`, `sys_sem_up`
and `sys_sem_down` on arbitrary arguments. The calls are executed one at a time, so the lock of a slot
is free whenever a call begins; a process blocked in `sem_down` waits without the lock and goes on when
it finds the value positive.

The memory around the array is part of the state: an index outside `[0, NSEM)` reads and writes
whatever is there. -/

namespace OsLabs

namespace Kernel

namespace Calls

/-- `NSEM`. -/
def nsem : Int := 10

/-- The indices of the array `semaphores`. -/
def InArray (index : Int) : Prop := 0 ≤ index ∧ index < nsem

instance (index : Int) : Decidable (InArray index) := inferInstanceAs (Decidable (_ ∧ _))

/-- `struct semaphore`; of `locked` only the page its name is in. -/
structure Semaphore where
  isOpen : Bool
  value : BitVec 32
  name : Option Nat

/-- The array with the memory around it, the pages `kalloc` can hand out, and the indices of the
processes that wait in `sem_down`. -/
structure State where
  semaphores : Int → Semaphore
  freelist : List Nat
  waiting : List Int
  panicked : Bool

/-- What a step lets an observer see. -/
inductive Event
  | accessed (index : Int)
  | kalloc (page : Nat)
  | kfree (page : Nat)
  | returned (ret : Nat)
  deriving DecidableEq, Repr

/-- The system calls, with the arguments `argint` reads. -/
inductive Call
  | semOpen (sem value : BitVec 32)
  | semClose (sem : BitVec 32)
  | semUp (sem : BitVec 32)
  | semDown (sem : BitVec 32)
  deriving DecidableEq, Repr

/-- The semaphore number of a call. -/
def Call.sem : Call → Int
  | .semOpen sem _ | .semClose sem | .semUp sem | .semDown sem => sem.toInt

/-- A call, a process that goes on in `sem_down`, or the rest of the kernel taking pages and giving
pages back. -/
inductive Action
  | call (c : Call)
  | resume (index : Int)
  | pages (freelist : List Nat)
  deriving DecidableEq, Repr

/-! ## The code -/

/-- Replace the semaphore at an index. -/
def State.set (k : State) (index : Int) (s : Semaphore) : State :=
  { k with semaphores := Function.update k.semaphores index s }

/-- `sem_open`. -/
def semOpen (sem : Int) (value : BitVec 32) (k : State) : State × List Event :=
  match k.freelist with
  | [] => (k, [.returned 0])
  | page :: rest =>
      if sem < 0 ∨ sem > nsem then
        ({ k with freelist := rest }, [.kalloc page, .returned 0])
      else if (k.semaphores sem).isOpen then
        (k, [.kalloc page, .accessed sem, .kfree page, .returned 0])
      else
        (State.set { k with freelist := rest } sem ⟨true, value, some page⟩,
          [.kalloc page, .accessed sem, .returned 1])

/-- `sem_close`; `kfree` panics on a null pointer. -/
def semClose (sem : Int) (k : State) : State × List Event :=
  let s := k.semaphores sem
  if s.isOpen then
    match s.name with
    | none => ({ k.set sem { s with isOpen := false } with panicked := true }, [.accessed sem])
    | some page =>
        (State.set { k with freelist := page :: k.freelist } sem { s with isOpen := false },
          [.accessed sem, .kfree page, .returned 1])
  else (k, [.accessed sem, .returned 0])

/-- `sem_up`. -/
def semUp (sem : Int) (k : State) : State × List Event :=
  let s := k.semaphores sem
  if s.isOpen then (k.set sem { s with value := s.value + 1 }, [.accessed sem, .returned 1])
  else (k, [.accessed sem, .returned 0])

/-- `sem_down`. -/
def semDown (sem : Int) (k : State) : State × List Event :=
  let s := k.semaphores sem
  if s.isOpen then
    if s.value.toInt ≤ 0 then ({ k with waiting := sem :: k.waiting }, [.accessed sem])
    else (k.set sem { s with value := s.value - 1 }, [.accessed sem, .returned 1])
  else (k, [.accessed sem, .returned 0])

/-- The loop of `sem_down` after `sleep`: it ends when the value is positive. -/
def semDownResume (sem : Int) (k : State) : Option (State × List Event) :=
  let s := k.semaphores sem
  if sem ∈ k.waiting ∧ 0 < s.value.toInt then
    some (State.set { k with waiting := k.waiting.erase sem } sem { s with value := s.value - 1 },
      [.accessed sem, .returned 1])
  else none

/-- `syscall`, for the calls on semaphores. -/
def syscall : Call → State → State × List Event
  | .semOpen sem value => semOpen sem.toInt value
  | .semClose sem => semClose sem.toInt
  | .semUp sem => semUp sem.toInt
  | .semDown sem => semDown sem.toInt

/-- One step of the system. -/
def step (k : State) (a : Action) : Option (State × List Event) :=
  if k.panicked then none
  else
    match a with
    | .call c => some (syscall c k)
    | .resume index => semDownResume index k
    | .pages freelist => some ({ k with freelist := freelist }, [])

/-- The array as it is zeroed at boot, with the memory around it and the free pages. -/
def boot (around : Int → Semaphore) (freelist : List Nat) : State where
  semaphores index := if InArray index then ⟨false, 0, none⟩ else around index
  freelist := freelist
  waiting := []
  panicked := false

/-! ## What the calls guarantee -/

/-- No open semaphore has a negative value. -/
def NonNegative (k : State) : Prop :=
  ∀ index, InArray index → (k.semaphores index).isOpen = true → 0 ≤ (k.semaphores index).value.toInt

/-- A step that is safe for arbitrary arguments: it accesses the array only inside its bounds, a call
with a number outside them returns 0 and changes no semaphore, and no open semaphore has a negative
value after it. -/
structure SafeStep (k : State) (a : Action) (k' : State) (evs : List Event) : Prop where
  accesses : ∀ index, Event.accessed index ∈ evs → InArray index
  rejects : ∀ c, a = .call c → ¬ InArray c.sem →
    Event.returned 0 ∈ evs ∧ k'.semaphores = k.semaphores
  nonNegative : NonNegative k'

/-- The step from a state is safe, if there is one. -/
def Safe (k : State) (a : Action) : Prop :=
  ∀ k' evs, step k a = some (k', evs) → SafeStep k a k' evs

/-- The calls that the code handles as it says: the semaphore number is in the array, except for a
`sem_open` that gives up before it uses the number; a new semaphore does not start negative, and an
open one is not incremented at the top of the range of `int`. -/
def WithinLimits (k : State) : Action → Prop
  | .call (.semOpen sem value) =>
      k.freelist = [] ∨ sem.toInt < 0 ∨ nsem < sem.toInt ∨
        InArray sem.toInt ∧ ((k.semaphores sem.toInt).isOpen = true ∨ 0 ≤ value.toInt)
  | .call (.semClose sem) | .call (.semDown sem) => InArray sem.toInt
  | .call (.semUp sem) =>
      InArray sem.toInt ∧ ((k.semaphores sem.toInt).isOpen = true →
        (k.semaphores sem.toInt).value.toInt ≠ 2 ^ 31 - 1)
  | .resume _ | .pages _ => True

/-! ## Reading updates -/

section Lemmas

variable {k k' : State} {index j : Int} {evs : List Event}

/-- The semaphore that was set. -/
@[simp] theorem State.set_self (s : Semaphore) : (k.set index s).semaphores index = s :=
  Function.update_self ..

/-- The other semaphores stay. -/
theorem State.set_of_ne (h : j ≠ index) (s : Semaphore) :
    (k.set index s).semaphores j = k.semaphores j :=
  Function.update_of_ne h ..

/-- One semaphore is replaced by one that is closed or not negative. -/
theorem NonNegative.set (h : NonNegative k) {s : Semaphore}
    (hs : InArray index → s.isOpen = true → 0 ≤ s.value.toInt) : NonNegative (k.set index s) := by
  intro j hj hopen
  by_cases heq : j = index
  · subst heq
    rw [State.set_self] at hopen ⊢
    exact hs hj hopen
  · rw [State.set_of_ne heq] at hopen ⊢
    exact h j hj hopen

/-! ## Outcomes of `sem_open` and `sem_close` -/

section Outcomes

variable {sem : Int} {page : Nat} {rest : List Nat}

/-- `sem_open` without a free page returns 0. -/
theorem semOpen_noPage (hl : k.freelist = []) (value : BitVec 32) :
    semOpen sem value k = (k, [.returned 0]) := by
  simp only [semOpen, hl]

/-- `sem_open` of an invalid number takes a page and keeps it. -/
theorem semOpen_rejects (hl : k.freelist = page :: rest) (hsem : sem < 0 ∨ sem > nsem)
    (value : BitVec 32) :
    semOpen sem value k = ({ k with freelist := rest }, [.kalloc page, .returned 0]) := by
  simp only [semOpen, hl, if_pos hsem]

/-- `sem_open` of an open semaphore takes a page and gives it back. -/
theorem semOpen_busy (hl : k.freelist = page :: rest) (hsem : ¬ (sem < 0 ∨ sem > nsem))
    (hopen : (k.semaphores sem).isOpen = true) (value : BitVec 32) :
    semOpen sem value k = (k, [.kalloc page, .accessed sem, .kfree page, .returned 0]) := by
  simp only [semOpen, hl, if_neg hsem, if_pos hopen]

/-- `sem_open` of a closed semaphore opens it with a page for its name. -/
theorem semOpen_opens (hl : k.freelist = page :: rest) (hsem : ¬ (sem < 0 ∨ sem > nsem))
    (hopen : ¬ (k.semaphores sem).isOpen = true) (value : BitVec 32) :
    semOpen sem value k = (State.set { k with freelist := rest } sem ⟨true, value, some page⟩,
      [.kalloc page, .accessed sem, .returned 1]) := by
  simp only [semOpen, hl, if_neg hsem, if_neg hopen]

/-- `sem_close` of a closed semaphore returns 0. -/
theorem semClose_closed (hopen : ¬ (k.semaphores sem).isOpen = true) :
    semClose sem k = (k, [.accessed sem, .returned 0]) := by
  simp only [semClose, if_neg hopen]

/-- `sem_close` of an open semaphore without a name panics in `kfree`. -/
theorem semClose_unnamed (hopen : (k.semaphores sem).isOpen = true)
    (hname : (k.semaphores sem).name = none) :
    semClose sem k = ({ k.set sem { k.semaphores sem with isOpen := false } with panicked := true },
      [.accessed sem]) := by
  simp only [semClose, if_pos hopen, hname]

/-- `sem_close` of an open semaphore gives the page of its name back. -/
theorem semClose_closes (hopen : (k.semaphores sem).isOpen = true)
    (hname : (k.semaphores sem).name = some page) :
    semClose sem k = (State.set { k with freelist := page :: k.freelist } sem
      { k.semaphores sem with isOpen := false }, [.accessed sem, .kfree page, .returned 1]) := by
  simp only [semClose, if_pos hopen, hname]

end Outcomes

/-! ## Values -/

/-- One unit, as an `int`. -/
theorem toInt_one : (1 : BitVec 32).toInt = 1 := by decide

/-- The largest `int` bounds every value. -/
theorem toInt_le (v : BitVec 32) : v.toInt ≤ 2 ^ 31 - 1 := by
  have := BitVec.toInt_lt (x := v)
  omega

/-- An increment below the top of the range. -/
theorem toInt_add_one {v : BitVec 32} (h : 0 ≤ v.toInt) (hmax : v.toInt ≠ 2 ^ 31 - 1) :
    0 ≤ (v + 1).toInt := by
  have hle := toInt_le v
  rw [BitVec.toInt_add, toInt_one, Int.bmod_eq_of_le] <;> omega

/-- An increment at the top of the range wraps. -/
theorem toInt_add_one_of_max {v : BitVec 32} (h : v.toInt = 2 ^ 31 - 1) : (v + 1).toInt < 0 := by
  rw [BitVec.toInt_add, toInt_one, h]
  decide

/-- A decrement of a positive value. -/
theorem toInt_sub_one {v : BitVec 32} (h : 0 < v.toInt) : (v - 1).toInt = v.toInt - 1 := by
  have hle := toInt_le v
  rw [BitVec.toInt_sub, toInt_one, Int.bmod_eq_of_le] <;> omega

/-! ## The invariant of runs within the limits -/

/-- No open semaphore is negative, each has the page of its name, the processes that wait do so on
semaphores of the array, and the kernel runs. -/
structure Sound (k : State) : Prop where
  nonNegative : NonNegative k
  named : ∀ index, InArray index → (k.semaphores index).isOpen = true →
    ∃ page, (k.semaphores index).name = some page
  waiting : ∀ index ∈ k.waiting, InArray index
  runs : k.panicked = false

/-- No semaphore is open at boot. -/
theorem isOpen_boot (around : Int → Semaphore) (freelist : List Nat) (h : InArray index) :
    ((boot around freelist).semaphores index).isOpen = false := by
  show Semaphore.isOpen (if InArray index then _ else _) = false
  rw [if_pos h]

/-- At boot every semaphore is closed and nobody waits. -/
theorem sound_boot (around : Int → Semaphore) (freelist : List Nat) :
    Sound (boot around freelist) := by
  refine ⟨fun index h hopen => ?_, fun index h hopen => ?_, nofun, rfl⟩
  · rw [isOpen_boot around freelist h] at hopen
    cases hopen
  · rw [isOpen_boot around freelist h] at hopen
    cases hopen

/-- A semaphore of the array is replaced by one that is closed, or named and not negative. -/
theorem Sound.set (h : Sound k) {s : Semaphore}
    (hs : s.isOpen = true → 0 ≤ s.value.toInt ∧ ∃ page, s.name = some page) :
    Sound (k.set index s) := by
  refine ⟨h.nonNegative.set fun _ hopen => (hs hopen).1, fun j hj hopen => ?_, h.waiting, h.runs⟩
  by_cases heq : j = index
  · subst heq
    rw [State.set_self] at hopen ⊢
    exact (hs hopen).2
  · rw [State.set_of_ne heq] at hopen ⊢
    exact h.named j hj hopen

/-- Free pages and waiting processes of the array do not matter. -/
theorem Sound.with (h : Sound k) (freelist : List Nat) {waiting : List Int}
    (hw : ∀ index ∈ waiting, InArray index) :
    Sound { k with freelist := freelist, waiting := waiting } :=
  ⟨h.nonNegative, h.named, hw, h.runs⟩

/-! ## Steps within the limits -/

variable {a : Action}

/-- While the kernel runs, a call is carried out. -/
theorem step_call (h : k.panicked = false) (c : Call) : step k (.call c) = some (syscall c k) := by
  simp [step, h]

/-- `sem_open` within the limits keeps the invariant. -/
theorem sound_semOpen (h : Sound k) {sem value : BitVec 32}
    (hc : WithinLimits k (.call (.semOpen sem value))) : Sound (semOpen sem.toInt value k).1 := by
  unfold semOpen
  cases hfree : k.freelist with
  | nil => exact h
  | cons page rest =>
      simp only
      split_ifs with hsem hopen
      · exact h.with rest h.waiting
      · exact h
      · -- the slot is closed, so the limits bound the value
        have hval : 0 ≤ value.toInt := by
          simp only [WithinLimits, hfree, reduceCtorEq, false_or] at hc
          obtain hlt | hgt | ⟨-, hopen' | hval⟩ := hc
          · exact absurd (.inl hlt) hsem
          · exact absurd (.inr hgt) hsem
          · exact absurd hopen' hopen
          · exact hval
        exact (h.with rest h.waiting).set fun _ => ⟨hval, page, rfl⟩

/-- `sem_close` of a semaphore of the array keeps the invariant. -/
theorem sound_semClose (h : Sound k) (hc : InArray index) : Sound (semClose index k).1 := by
  unfold semClose
  simp only
  split_ifs with hopen
  · obtain ⟨page, hname⟩ := h.named index hc hopen
    rw [hname]
    exact (h.with (page :: k.freelist) h.waiting).set nofun
  · exact h

/-- `sem_up` below the largest `int` keeps the invariant. -/
theorem sound_semUp (h : Sound k) (hc : InArray index)
    (hmax : (k.semaphores index).isOpen = true → (k.semaphores index).value.toInt ≠ 2 ^ 31 - 1) :
    Sound (semUp index k).1 := by
  unfold semUp
  simp only
  split_ifs with hopen
  · have hval := h.nonNegative index hc hopen
    exact h.set fun _ => ⟨toInt_add_one hval (hmax hopen), h.named index hc hopen⟩
  · exact h

/-- A decrement of a positive value leaves a semaphore that is not negative. -/
theorem Sound.decremented (h : Sound k) (hc : InArray index)
    (hpos : 0 < (k.semaphores index).value.toInt) :
    Sound (k.set index { k.semaphores index with value := (k.semaphores index).value - 1 }) := by
  refine h.set fun hopen => ⟨?_, h.named index hc hopen⟩
  rw [toInt_sub_one hpos]
  omega

/-- `sem_down` of a semaphore of the array keeps the invariant. -/
theorem sound_semDown (h : Sound k) (hc : InArray index) : Sound (semDown index k).1 := by
  unfold semDown
  simp only
  split_ifs with hopen hval
  · refine h.with k.freelist fun j hj => ?_
    obtain rfl | hj := List.mem_cons.mp hj
    · exact hc
    · exact h.waiting j hj
  · exact h.decremented hc (by omega)
  · exact h

/-- A process that wakes in `sem_down` keeps the invariant. -/
theorem sound_semDownResume (h : Sound k) (hs : semDownResume index k = some (k', evs)) :
    Sound k' := by
  unfold semDownResume at hs
  simp only at hs
  split_ifs at hs with hwait
  cases hs
  have herase : ∀ j ∈ k.waiting.erase index, InArray j := fun j hj =>
    h.waiting j (List.mem_of_mem_erase hj)
  exact (h.with k.freelist herase).decremented (h.waiting index hwait.1) hwait.2

/-- A step within the limits. -/
theorem sound_step (h : Sound k) (hc : WithinLimits k a) (hs : step k a = some (k', evs)) :
    Sound k' := by
  simp only [step, h.runs, Bool.false_eq_true, if_false] at hs
  cases a with
  | call c =>
      obtain rfl : (syscall c k).1 = k' := congrArg Prod.fst (Option.some.inj hs)
      cases c with
      | semOpen sem value => exact sound_semOpen h hc
      | semClose sem => exact sound_semClose h hc
      | semUp sem => exact sound_semUp h hc.1 hc.2
      | semDown sem => exact sound_semDown h hc
  | resume index => exact sound_semDownResume h hs
  | pages freelist =>
      cases hs
      exact ⟨h.nonNegative, h.named, h.waiting, rfl⟩

/-! ## Safety of a step -/

/-- Every call but a rejected `sem_open` accesses the semaphore with its number. -/
theorem accessed_syscall (c : Call) (k : State) (hc : ∀ sem value, c = .semOpen sem value →
    k.freelist ≠ [] ∧ ¬ (sem.toInt < 0 ∨ sem.toInt > nsem)) :
    .accessed c.sem ∈ (syscall c k).2 := by
  cases c with
  | semOpen sem value =>
      obtain ⟨hfree, hsem⟩ := hc sem value rfl
      cases hl : k.freelist with
      | nil => exact absurd hl hfree
      | cons page rest =>
          simp only [syscall, semOpen, hl, if_neg hsem, Call.sem]
          split_ifs <;> simp
  | semClose sem =>
      simp only [syscall, semClose, Call.sem]
      split_ifs
      · cases (k.semaphores sem.toInt).name <;> simp
      · simp
  | semUp sem =>
      simp only [syscall, semUp, Call.sem]
      split_ifs <;> simp
  | semDown sem =>
      simp only [syscall, semDown, Call.sem]
      split_ifs <;> simp

/-- A call accesses no other semaphore. -/
theorem eq_of_accessed {c : Call} (h : .accessed index ∈ (syscall c k).2) : index = c.sem := by
  cases c with
  | semOpen sem value =>
      simp only [syscall, semOpen, Call.sem] at h ⊢
      cases hl : k.freelist with
      | nil => simp [hl] at h
      | cons page rest =>
          simp only [hl] at h
          split_ifs at h
          · simp at h
          · simpa using h
          · simpa using h
  | semClose sem =>
      simp only [syscall, semClose, Call.sem] at h ⊢
      split_ifs at h
      · cases hn : (k.semaphores sem.toInt).name <;> simpa [hn] using h
      · simpa using h
  | semUp sem =>
      simp only [syscall, semUp, Call.sem] at h ⊢
      split_ifs at h <;> simpa using h
  | semDown sem =>
      simp only [syscall, semDown, Call.sem] at h ⊢
      split_ifs at h <;> simpa using h

/-- A `sem_open` that finds no page or a number it rejects. -/
theorem semOpen_rejected {sem : Int} (value : BitVec 32)
    (h : k.freelist = [] ∨ sem < 0 ∨ sem > nsem) :
    .returned 0 ∈ (semOpen sem value k).2 ∧ (semOpen sem value k).1.semaphores = k.semaphores := by
  unfold semOpen
  cases hl : k.freelist with
  | nil => simp
  | cons page rest =>
      have hsem : sem < 0 ∨ sem > nsem := h.resolve_left (by simp [hl])
      simp [if_pos hsem]

/-- A `sem_open` within the limits is rejected or its number is in the array. -/
theorem withinLimits_semOpen {sem value : BitVec 32}
    (hc : WithinLimits k (.call (.semOpen sem value))) :
    (k.freelist = [] ∨ sem.toInt < 0 ∨ sem.toInt > nsem) ∨ InArray sem.toInt := by
  obtain hfree | hlt | hgt | ⟨hsem, -⟩ := hc
  · exact .inl (.inl hfree)
  · exact .inl (.inr (.inl hlt))
  · exact .inl (.inr (.inr hgt))
  · exact .inr hsem

/-- A call within the limits accesses the array only. -/
theorem accesses_of_withinLimits {c : Call} (hc : WithinLimits k (.call c))
    (h : .accessed index ∈ (syscall c k).2) : InArray index := by
  have heq := eq_of_accessed h
  cases c with
  | semOpen sem value =>
      obtain hrej | hsem := withinLimits_semOpen hc
      · -- a rejected call accesses nothing
        simp only [syscall, semOpen] at h
        cases hl : k.freelist with
        | nil => simp [hl] at h
        | cons page rest =>
            have hsem := hrej.resolve_left (by simp [hl])
            simp [hl, if_pos hsem] at h
      · exact heq ▸ hsem
  | semClose sem => exact heq ▸ hc
  | semUp sem => exact heq ▸ hc.1
  | semDown sem => exact heq ▸ hc

/-- A call within the limits whose number is not in the array is a rejected `sem_open`. -/
theorem rejects_of_withinLimits {c : Call} (hc : WithinLimits k (.call c)) (hout : ¬ InArray c.sem) :
    .returned 0 ∈ (syscall c k).2 ∧ (syscall c k).1.semaphores = k.semaphores := by
  cases c with
  | semOpen sem value => exact semOpen_rejected value ((withinLimits_semOpen hc).resolve_right hout)
  | semClose sem => exact absurd hc hout
  | semUp sem => exact absurd hc.1 hout
  | semDown sem => exact absurd hc hout

/-- A step is safe when it is within the limits. -/
theorem safe_of_withinLimits (h : Sound k) (hc : WithinLimits k a) : Safe k a := by
  intro k' evs hs
  refine ⟨fun index hacc => ?_, fun c hac hout => ?_, (sound_step h hc hs).nonNegative⟩
  · simp only [step, h.runs, Bool.false_eq_true, if_false] at hs
    cases a with
    | call c =>
        obtain rfl : (syscall c k).2 = evs := congrArg Prod.snd (Option.some.inj hs)
        exact accesses_of_withinLimits hc hacc
    | resume j =>
        simp only [semDownResume] at hs
        split_ifs at hs with hwait
        cases hs
        obtain rfl : index = j := by simpa using hacc
        exact h.waiting index hwait.1
    | pages freelist =>
        cases hs
        simp at hacc
  · subst hac
    have hs := Option.some.inj ((step_call h.runs c).symm.trans hs)
    obtain rfl : (syscall c k).1 = k' := congrArg Prod.fst hs
    obtain rfl : (syscall c k).2 = evs := congrArg Prod.snd hs
    exact rejects_of_withinLimits hc hout

/-- A safe step is within the limits. -/
theorem withinLimits_of_safe (h : Sound k) (hsafe : Safe k a) : WithinLimits k a := by
  cases a with
  | resume j => trivial
  | pages freelist => trivial
  | call c =>
      have hstep : SafeStep k (.call c) (syscall c k).1 (syscall c k).2 :=
        hsafe _ _ (step_call h.runs c)
      cases c with
      | semOpen sem value =>
          by_cases hrej : k.freelist = [] ∨ sem.toInt < 0 ∨ sem.toInt > nsem
          · obtain hfree | hlt | hgt := hrej
            · exact .inl hfree
            · exact .inr (.inl hlt)
            · exact .inr (.inr (.inl hgt))
          · rw [not_or] at hrej
            have hsem : InArray sem.toInt :=
              hstep.accesses _ (accessed_syscall (.semOpen sem value) k fun _ _ heq => by
                cases heq
                exact hrej)
            refine .inr (.inr (.inr ⟨hsem, ?_⟩))
            by_cases hopen : (k.semaphores sem.toInt).isOpen = true
            · exact .inl hopen
            · -- the slot is opened with the value of the call
              have hval := hstep.nonNegative _ hsem
              cases hl : k.freelist with
              | nil => exact absurd hl hrej.1
              | cons page rest =>
                  simp only [syscall, semOpen, hl, if_neg hrej.2, if_neg hopen, State.set_self,
                    forall_const] at hval
                  exact .inr hval
      | semClose sem => exact hstep.accesses _ (accessed_syscall (.semClose sem) k nofun)
      | semUp sem =>
          have hsem : InArray sem.toInt := hstep.accesses _ (accessed_syscall (.semUp sem) k nofun)
          refine ⟨hsem, fun hopen hmax => ?_⟩
          have hval := hstep.nonNegative _ hsem
          simp only [syscall, semUp, if_pos hopen, State.set_self] at hval
          have hneg := toInt_add_one_of_max hmax
          have := hval hopen
          omega
      | semDown sem => exact hstep.accesses _ (accessed_syscall (.semDown sem) k nofun)

end Lemmas

/-- **Arbitrary arguments.** The steps of a run are safe exactly when they are within the limits. -/
theorem meets_safe_iff (around : Int → Semaphore) (freelist : List Nat) (as : List Action) :
    Transition.Meets step (fun _ k a => Safe k a) [] (boot around freelist) as ↔
      Transition.Meets step (fun _ k a => WithinLimits k a) [] (boot around freelist) as := by
  refine Transition.meets_congr (I := fun _ k => Sound k) ?_ ?_ (sound_boot around freelist)
  · intro _ k a k' evs hk hsafe hs
    exact sound_step hk (withinLimits_of_safe hk hsafe) hs
  · intro _ k a hk
    exact ⟨withinLimits_of_safe hk, safe_of_withinLimits hk⟩

/-- `sem_open(NSEM, 0)` accesses the memory behind the array. -/
theorem not_safe_semOpen_nsem :
    ¬ ∀ (around : Int → Semaphore) (freelist : List Nat) (as : List Action),
      Transition.Meets step (fun _ k a => Safe k a) [] (boot around freelist) as := by
  intro hall
  have hrun := hall (fun _ => ⟨false, 0, none⟩) [1] [.call (.semOpen 10 0)]
  have hstep := hrun.1 _ _ rfl
  have hindex := hstep.accesses 10 (by decide)
  exact absurd hindex (by decide)

/-! ## Pages -/

/-- A page has been taken from `kalloc`. -/
def Event.isKalloc : Event → Bool
  | .kalloc _ => true
  | _ => false

/-- A page has been given back by `kfree`. -/
def Event.isKfree : Event → Bool
  | .kfree _ => true
  | _ => false

/-- The open semaphores. -/
def State.opened (k : State) : Finset Int :=
  ((Finset.range nsem.toNat).image fun index : Nat => (index : Int)).filter fun index =>
    (k.semaphores index).isOpen

/-- The pages taken and not yet given back are as many as the open semaphores. -/
def Balanced (evs : List Event) (k : State) : Prop :=
  evs.countP Event.isKalloc = evs.countP Event.isKfree + k.opened.card

/-- The step from a state keeps the balance, if there is one, and a `sem_open` that returns 0 leaves
as many free pages as it found. -/
def Keeps (evs : List Event) (k : State) (a : Action) : Prop :=
  ∀ k' new, step k a = some (k', new) → Balanced (evs ++ new) k' ∧
    ∀ sem value, a = .call (.semOpen sem value) → Event.returned 0 ∈ new →
      k'.freelist.length = k.freelist.length

/-- The calls that account for their page: a `sem_open` that finds no page, one of a semaphore of the
array, and one that finds the memory behind the array open; a `sem_close` of a semaphore of the array,
and one that does not find an open semaphore with a name elsewhere. -/
def Accounts (k : State) : Action → Prop
  | .call (.semOpen sem _) =>
      k.panicked = true ∨ k.freelist = [] ∨ InArray sem.toInt ∨
        sem.toInt = nsem ∧ (k.semaphores nsem).isOpen = true
  | .call (.semClose sem) =>
      k.panicked = true ∨ InArray sem.toInt ∨ (k.semaphores sem.toInt).isOpen = false ∨
        (k.semaphores sem.toInt).name = none
  | .call (.semUp _) | .call (.semDown _) | .resume _ | .pages _ => True

section Pages

variable {k k' : State} {index : Int} {evs new : List Event} {s : Semaphore}

/-- The open semaphores are those of the array whose flag is set. -/
theorem mem_opened : index ∈ k.opened ↔ InArray index ∧ (k.semaphores index).isOpen = true := by
  rw [State.opened, Finset.mem_filter, Finset.mem_image]
  refine and_congr_left' ?_
  constructor
  · rintro ⟨i, hi, rfl⟩
    rw [Finset.mem_range] at hi
    constructor <;> omega
  · rintro ⟨h0, hlt⟩
    refine ⟨index.toNat, ?_, by omega⟩
    rw [Finset.mem_range]
    omega

/-- The open semaphores after a change at an index. -/
theorem opened_set (k : State) (index : Int) (s : Semaphore) : (k.set index s).opened =
    if InArray index ∧ s.isOpen = true then insert index k.opened else k.opened.erase index := by
  ext j
  rw [mem_opened]
  by_cases heq : j = index
  · subst heq
    rw [State.set_self]
    split_ifs with h
    · simp [h]
    · simpa using h
  · rw [State.set_of_ne heq, ← mem_opened]
    split_ifs <;> simp [heq]

/-- A change that does not open or close a semaphore of the array. -/
theorem opened_set_of_same (h : InArray index → s.isOpen = (k.semaphores index).isOpen) :
    (k.set index s).opened = k.opened := by
  rw [opened_set]
  by_cases hmem : index ∈ k.opened
  · obtain ⟨hin, hopen⟩ := mem_opened.mp hmem
    rw [if_pos ⟨hin, (h hin).trans hopen⟩, Finset.insert_eq_of_mem hmem]
  · rw [if_neg, Finset.erase_eq_of_notMem hmem]
    rintro ⟨hin, hopen⟩
    exact hmem (mem_opened.mpr ⟨hin, (h hin).symm.trans hopen⟩)

/-- A semaphore of the array is opened. -/
theorem card_opened_open (hin : InArray index) (hclosed : (k.semaphores index).isOpen ≠ true)
    (hs : s.isOpen = true) : (k.set index s).opened.card = k.opened.card + 1 := by
  rw [opened_set, if_pos ⟨hin, hs⟩, Finset.card_insert_of_notMem]
  exact fun hmem => hclosed (mem_opened.mp hmem).2

/-- A semaphore of the array is closed. -/
theorem card_opened_close (hin : InArray index) (hopen : (k.semaphores index).isOpen = true)
    (hs : s.isOpen = false) : (k.set index s).opened.card + 1 = k.opened.card := by
  rw [opened_set, if_neg (by simp [hs])]
  exact Finset.card_erase_add_one (mem_opened.mpr ⟨hin, hopen⟩)

/-- The balance after a step, from the pages it takes and gives back. -/
theorem balanced_append (h : Balanced evs k) : Balanced (evs ++ new) k' ↔
    new.countP Event.isKalloc + k.opened.card = new.countP Event.isKfree + k'.opened.card := by
  unfold Balanced at h ⊢
  rw [List.countP_append, List.countP_append]
  omega

/-- A call keeps the balance when its pages do. -/
theorem keeps_call (h : Balanced evs k) (hp : k.panicked = false) (c : Call)
    (hrun : syscall c k = (k', new)) :
    Keeps evs k (.call c) ↔
      new.countP Event.isKalloc + k.opened.card = new.countP Event.isKfree + k'.opened.card ∧
      ∀ sem value, c = .semOpen sem value → Event.returned 0 ∈ new →
        k'.freelist.length = k.freelist.length := by
  have hstep : step k (.call c) = some (k', new) := (step_call hp c).trans (congrArg some hrun)
  unfold Keeps
  rw [hstep, ← balanced_append h]
  constructor
  · intro hkeeps
    obtain ⟨hbal, hlen⟩ := hkeeps _ _ rfl
    exact ⟨hbal, fun sem value hc => hlen sem value (congrArg Action.call hc)⟩
  · rintro ⟨hbal, hlen⟩ _ _ ⟨⟩
    exact ⟨hbal, fun sem value hc => hlen sem value (Action.call.inj hc)⟩

/-- `sem_open` keeps the balance just if it accounts for its page. -/
theorem keeps_semOpen (h : Balanced evs k) (hp : k.panicked = false) (sem value : BitVec 32) :
    Keeps evs k (.call (.semOpen sem value)) ↔ Accounts k (.call (.semOpen sem value)) := by
  have haccounts : Accounts k (.call (.semOpen sem value)) ↔ k.freelist = [] ∨ InArray sem.toInt ∨
      sem.toInt = nsem ∧ (k.semaphores nsem).isOpen = true := by
    simp [Accounts, hp]
  rw [haccounts]
  cases hl : k.freelist with
  | nil =>
      rw [keeps_call h hp (.semOpen sem value) (semOpen_noPage hl value)]
      simp [Event.isKalloc, Event.isKfree]
  | cons page rest =>
      by_cases hsem : sem.toInt < 0 ∨ sem.toInt > nsem
      · -- the page is not given back
        rw [keeps_call h hp (.semOpen sem value) (semOpen_rejects hl hsem value)]
        have hopened : ({ k with freelist := rest } : State).opened = k.opened := rfl
        have hin : ¬ InArray sem.toInt := by
          rintro ⟨h0, h1⟩
          omega
        have hne : sem.toInt ≠ nsem := by
          unfold nsem at *
          omega
        simp [hopened, List.countP_cons, Event.isKalloc, Event.isKfree, hin, hne]
      · by_cases hopen : (k.semaphores sem.toInt).isOpen = true
        · rw [keeps_call h hp (.semOpen sem value) (semOpen_busy hl hsem hopen value)]
          have hin : InArray sem.toInt ∨ sem.toInt = nsem ∧ (k.semaphores nsem).isOpen = true := by
            by_cases heq : sem.toInt = nsem
            · exact .inr ⟨heq, heq ▸ hopen⟩
            · exact .inl ⟨by omega, by omega⟩
          simp [List.countP_cons, Event.isKalloc, Event.isKfree, hin]
        · rw [keeps_call h hp (.semOpen sem value) (semOpen_opens hl hsem hopen value)]
          have hopened : (State.set { k with freelist := rest } sem.toInt
              ⟨true, value, some page⟩).opened = (k.set sem.toInt ⟨true, value, some page⟩).opened := rfl
          have hnot : ¬ (sem.toInt = nsem ∧ (k.semaphores nsem).isOpen = true) := fun ⟨heq, ho⟩ =>
            hopen (heq ▸ ho)
          by_cases hin : InArray sem.toInt
          · rw [hopened, card_opened_open hin hopen rfl]
            simp [List.countP_cons, Event.isKalloc, Event.isKfree, hin]
            omega
          · rw [hopened, opened_set_of_same fun hin' => absurd hin' hin]
            simp [List.countP_cons, Event.isKalloc, Event.isKfree, hin, hnot]

/-- `sem_close` keeps the balance just if it accounts for its page. -/
theorem keeps_semClose (h : Balanced evs k) (hp : k.panicked = false)
    (hnamed : ∀ index, InArray index → (k.semaphores index).isOpen = true →
      ∃ page, (k.semaphores index).name = some page) (sem : BitVec 32) :
    Keeps evs k (.call (.semClose sem)) ↔ Accounts k (.call (.semClose sem)) := by
  have haccounts : Accounts k (.call (.semClose sem)) ↔ InArray sem.toInt ∨
      (k.semaphores sem.toInt).isOpen = false ∨ (k.semaphores sem.toInt).name = none := by
    simp [Accounts, hp]
  rw [haccounts]
  by_cases hopen : (k.semaphores sem.toInt).isOpen = true
  · cases hname : (k.semaphores sem.toInt).name with
    | none =>
        rw [keeps_call h hp (.semClose sem) (semClose_unnamed hopen hname)]
        have hin : ¬ InArray sem.toInt := fun hin => by
          obtain ⟨page, hpage⟩ := hnamed _ hin hopen
          rw [hname] at hpage
          cases hpage
        have hopened : ({ k.set sem.toInt { k.semaphores sem.toInt with isOpen := false } with
            panicked := true } : State).opened = k.opened :=
          opened_set_of_same fun hin' => absurd hin' hin
        simp [hopened, Event.isKalloc, Event.isKfree]
    | some page =>
        rw [keeps_call h hp (.semClose sem) (semClose_closes hopen hname)]
        have hopened : (State.set { k with freelist := page :: k.freelist } sem.toInt
            { k.semaphores sem.toInt with isOpen := false }).opened =
          (k.set sem.toInt { k.semaphores sem.toInt with isOpen := false }).opened := rfl
        rw [hopened]
        by_cases hin : InArray sem.toInt
        · rw [← card_opened_close (s := { k.semaphores sem.toInt with isOpen := false }) hin hopen rfl]
          simp [List.countP_cons, Event.isKalloc, Event.isKfree, hin, Nat.add_comm]
        · rw [opened_set_of_same fun hin' => absurd hin' hin]
          simp [List.countP_cons, Event.isKalloc, Event.isKfree, hin, hopen]
  · rw [keeps_call h hp (.semClose sem) (semClose_closed hopen)]
    simp [Event.isKalloc, Event.isKfree, hopen]

/-- Semaphores of the array that are open have a name, and the pages are balanced unless the kernel
has stopped. -/
structure Paged (evs : List Event) (k : State) : Prop where
  balanced : k.panicked = false → Balanced evs k
  named : ∀ index, InArray index → (k.semaphores index).isOpen = true →
    ∃ page, (k.semaphores index).name = some page

/-- At boot no page is taken and no semaphore is open. -/
theorem paged_boot (around : Int → Semaphore) (freelist : List Nat) :
    Paged [] (boot around freelist) := by
  have hsound := sound_boot around freelist
  refine ⟨fun _ => ?_, hsound.named⟩
  have hempty : (boot around freelist).opened = ∅ := by
    refine Finset.eq_empty_of_forall_notMem fun index hmem => ?_
    obtain ⟨hin, hopen⟩ := mem_opened.mp hmem
    rw [isOpen_boot around freelist hin] at hopen
    cases hopen
  rw [Balanced, hempty]
  rfl

/-- A semaphore keeps its flag and its name. -/
theorem flags_set (k : State) {index : Int} {s : Semaphore}
    (hopen : s.isOpen = (k.semaphores index).isOpen) (hname : s.name = (k.semaphores index).name)
    (j : Int) : ((k.set index s).semaphores j).isOpen = (k.semaphores j).isOpen ∧
      ((k.set index s).semaphores j).name = (k.semaphores j).name := by
  by_cases heq : j = index
  · subst heq
    rw [State.set_self]
    exact ⟨hopen, hname⟩
  · rw [State.set_of_ne heq]
    exact ⟨rfl, rfl⟩

/-- A kernel that takes a step has not panicked. -/
theorem runs_of_step {a : Action} {r : State × List Event} (hs : step k a = some r) :
    k.panicked = false := by
  cases hp : k.panicked with
  | false => rfl
  | true => simp [step, hp] at hs

/-- `sem_up`, `sem_down` and the steps beside the calls take no page and give none back. -/
theorem other_step {a : Action} (hs : step k a = some (k', new))
    (ha : (∀ sem value, a ≠ .call (.semOpen sem value)) ∧ ∀ sem, a ≠ .call (.semClose sem)) :
    (∀ j, (k'.semaphores j).isOpen = (k.semaphores j).isOpen ∧
      (k'.semaphores j).name = (k.semaphores j).name) ∧ k'.panicked = k.panicked ∧
    new.countP Event.isKalloc = 0 ∧ new.countP Event.isKfree = 0 := by
  have hrun := runs_of_step hs
  simp only [step, hrun, Bool.false_eq_true, if_false] at hs
  cases a with
  | call c =>
      cases c with
      | semOpen sem value => exact absurd rfl (ha.1 sem value)
      | semClose sem => exact absurd rfl (ha.2 sem)
      | semUp sem =>
          simp only [syscall, semUp] at hs
          split_ifs at hs <;> cases hs
          · exact ⟨flags_set k rfl rfl, rfl, rfl, rfl⟩
          · exact ⟨fun _ => ⟨rfl, rfl⟩, rfl, rfl, rfl⟩
      | semDown sem =>
          simp only [syscall, semDown] at hs
          split_ifs at hs <;> cases hs
          · exact ⟨fun _ => ⟨rfl, rfl⟩, rfl, rfl, rfl⟩
          · exact ⟨flags_set k rfl rfl, rfl, rfl, rfl⟩
          · exact ⟨fun _ => ⟨rfl, rfl⟩, rfl, rfl, rfl⟩
  | resume index =>
      simp only [semDownResume] at hs
      split_ifs at hs
      cases hs
      exact ⟨flags_set { k with waiting := k.waiting.erase index } rfl rfl, rfl, rfl, rfl⟩
  | pages freelist =>
      cases hs
      exact ⟨fun _ => ⟨rfl, rfl⟩, hrun.symm, rfl, rfl⟩

/-- Semaphores keep their names when one is replaced by one that is closed or has a name. -/
theorem named_set (h : ∀ j, InArray j → (k.semaphores j).isOpen = true →
      ∃ page, (k.semaphores j).name = some page)
    (hs : s.isOpen = true → ∃ page, s.name = some page) (j : Int) (hin : InArray j)
    (hopen : ((k.set index s).semaphores j).isOpen = true) :
    ∃ page, ((k.set index s).semaphores j).name = some page := by
  by_cases heq : j = index
  · subst heq
    rw [State.set_self] at hopen ⊢
    exact hs hopen
  · rw [State.set_of_ne heq] at hopen ⊢
    exact h j hin hopen

/-- A step that keeps the balance. -/
theorem paged_step {a : Action} (h : Paged evs k) (hkeeps : Keeps evs k a)
    (hs : step k a = some (k', new)) : Paged (evs ++ new) k' := by
  refine ⟨fun _ => (hkeeps k' new hs).1, ?_⟩
  -- only `sem_open` and `sem_close` touch the flag and the name
  by_cases hother : (∀ sem value, a ≠ .call (.semOpen sem value)) ∧ ∀ sem, a ≠ .call (.semClose sem)
  · obtain ⟨hflag, -⟩ := other_step hs hother
    intro j hin hopen
    rw [(hflag j).1] at hopen
    rw [(hflag j).2]
    exact h.named j hin hopen
  · simp only [not_and_or, not_forall, not_not] at hother
    have hrun := runs_of_step hs
    obtain ⟨sem, value, rfl⟩ | ⟨sem, rfl⟩ := hother
    · have hk := Option.some.inj ((step_call hrun _).symm.trans hs)
      obtain rfl : (semOpen sem.toInt value k).1 = k' := congrArg Prod.fst hk
      cases hl : k.freelist with
      | nil =>
          rw [semOpen_noPage hl]
          exact h.named
      | cons page rest =>
          by_cases hsem : sem.toInt < 0 ∨ sem.toInt > nsem
          · rw [semOpen_rejects hl hsem]
            exact h.named
          · by_cases hopen : (k.semaphores sem.toInt).isOpen = true
            · rw [semOpen_busy hl hsem hopen]
              exact h.named
            · rw [semOpen_opens hl hsem hopen]
              exact named_set (k := { k with freelist := rest }) h.named fun _ => ⟨page, rfl⟩
    · have hk := Option.some.inj ((step_call hrun _).symm.trans hs)
      obtain rfl : (semClose sem.toInt k).1 = k' := congrArg Prod.fst hk
      by_cases hopen : (k.semaphores sem.toInt).isOpen = true
      · cases hname : (k.semaphores sem.toInt).name with
        | none =>
            rw [semClose_unnamed hopen hname]
            exact named_set h.named nofun
        | some page =>
            rw [semClose_closes hopen hname]
            exact named_set (k := { k with freelist := page :: k.freelist }) h.named nofun
      · rw [semClose_closed hopen]
        exact h.named

/-- A step keeps the balance exactly when it accounts for its page. -/
theorem keeps_iff_accounts (h : Paged evs k) (a : Action) : Keeps evs k a ↔ Accounts k a := by
  cases hp : k.panicked with
  | true =>
      have hkeeps : Keeps evs k a := fun k' new hs => by
        rw [runs_of_step hs] at hp
        cases hp
      refine iff_of_true hkeeps ?_
      cases a with
      | call c => cases c <;> first | exact .inl hp | trivial
      | resume index => trivial
      | pages freelist => trivial
  | false =>
      have hother (ha : (∀ sem value, a ≠ .call (.semOpen sem value)) ∧
          ∀ sem, a ≠ .call (.semClose sem)) : Keeps evs k a := by
        intro k' new hs
        obtain ⟨hflag, -, htaken, hgiven⟩ := other_step hs ha
        have hopened : k'.opened = k.opened := by
          ext j
          rw [mem_opened, mem_opened, (hflag j).1]
        refine ⟨?_, fun sem value hc => absurd hc (ha.1 sem value)⟩
        rw [balanced_append (h.balanced hp), hopened, htaken, hgiven]
      cases a with
      | call c =>
          cases c with
          | semOpen sem value => exact keeps_semOpen (h.balanced hp) hp sem value
          | semClose sem => exact keeps_semClose (h.balanced hp) hp h.named sem
          | semUp sem => exact iff_of_true (hother ⟨nofun, nofun⟩) trivial
          | semDown sem => exact iff_of_true (hother ⟨nofun, nofun⟩) trivial
      | resume index => exact iff_of_true (hother ⟨nofun, nofun⟩) trivial
      | pages freelist => exact iff_of_true (hother ⟨nofun, nofun⟩) trivial

end Pages

/-- **Pages.** The steps of a run keep the balance of pages and open semaphores exactly when they
account for their pages. -/
theorem meets_keeps_iff (around : Int → Semaphore) (freelist : List Nat) (as : List Action) :
    Transition.Meets step Keeps [] (boot around freelist) as ↔
      Transition.Meets step (fun _ k a => Accounts k a) [] (boot around freelist) as := by
  refine Transition.meets_congr (I := Paged) ?_ ?_ (paged_boot around freelist)
  · intro evs k a k' new hk hkeeps hs
    exact paged_step hk hkeeps hs
  · intro evs k a hk
    exact keeps_iff_accounts hk a

/-- `sem_open(NSEM + 1, 0)` returns 0 and keeps its page. -/
theorem not_keeps_semOpen :
    ¬ ∀ (around : Int → Semaphore) (freelist : List Nat) (as : List Action),
      (∀ a ∈ as, (∃ sem value, a = .call (.semOpen sem value)) ∨ (∃ sem, a = .call (.semClose sem)) ∨
        ∃ pages, a = .pages pages) →
      Transition.Meets step Keeps [] (boot around freelist) as := by
  intro hall
  have hrun := hall (fun _ => ⟨false, 0, none⟩) [1] [.call (.semOpen 11 0)] (by simp)
  obtain ⟨-, hlen⟩ := hrun.1 _ _ rfl
  exact absurd (hlen 11 0 rfl (by decide)) (by decide)

end Calls

end Kernel

end OsLabs
