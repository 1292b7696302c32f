import OsLabs.Lib.Chain
import OsLabs.Lib.Transition
import Mathlib.Data.List.Range

/-! # The page allocator

`kalloc` and `kfree` by any number of callers, one access at a time; the free pages are linked through their first
words, behind `kmem.freelist`, which `kmem.lock` protects. `kinit` links all pages between the end of the kernel
and `PHYSTOP`. A page is written and freed only while it is allocated.

* `kinit_linked`: `kinit` links every page once;
* `kalloc_owned`: in every run, a page is given to one owner at a time, `kfree` does not panic, `kalloc` finds a
  page unless all are given away or on their way in a call, and a free list without calls holds the rest;
* `owned_kept`: an allocated page changes only by the writes to it. -/

namespace OsLabs.Kernel

namespace Pages

open Transition

/-! ## State -/

/-- `PGSIZE`. -/
def pgsize : Nat := 4096

/-- `PHYSTOP`. -/
def phystop : Nat := 0x80000000 + 128 * 1024 * 1024

/-- `PGROUNDUP`. -/
def pgroundup (a : Nat) : Nat := (a + pgsize - 1) / pgsize * pgsize

/-- The page that an address is in. -/
def pageOf (a : Nat) : Nat := a / pgsize * pgsize

/-- The address of a page that `kfree` accepts; `kend` is `end`. -/
def IsPage (kend pa : Nat) : Prop := pa % pgsize = 0 ∧ kend ≤ pa ∧ pa < phystop

instance (kend pa : Nat) : Decidable (IsPage kend pa) := inferInstanceAs (Decidable (_ ∧ _ ∧ _))

/-- What a caller does next. -/
inductive Pc
  | caller
  | freeFill (pa : Nat)
  | freeAcquire (pa : Nat)
  | freeNext (pa : Nat)
  | freeHead (pa : Nat)
  | freeRelease
  | allocAcquire
  | allocHead
  | allocNext (r : Nat)
  | allocRelease (r : Nat)
  | allocFill (r : Nat)
  | panicked
  deriving DecidableEq, Repr

/-- The memory in words of eight bytes, each at its address, `kmem`, and the callers. -/
structure State (H : Type) where
  mem : Nat → Nat
  freelist : Nat
  lock : Option H
  pc : H → Pc

/-- What happens to a page. -/
inductive Event (H : Type)
  | allocated (c : H) (pa : Nat)
  | exhausted (c : H)
  | freed (c : H) (pa : Nat)
  | panics (c : H) (pa : Nat)
  deriving DecidableEq, Repr

/-! ## Code -/

variable {H : Type}

/-- `memset` of a page with a byte eight times in a word. -/
def fill (mem : Nat → Nat) (pa byte : Nat) : Nat → Nat := fun a =>
  if pa ≤ a ∧ a < pa + pgsize then byte * 0x0101010101010101 else mem a

/-- `kfree` of an accepted page with nobody else running. -/
def kfreeAlone (kend : Nat) (pa : Nat) (s : State H) : Option (State H) :=
  if IsPage kend pa then
    some { s with mem := Function.update (fill s.mem pa 1) pa s.freelist, freelist := pa }
  else none

/-- The loop of `freerange` up to `PHYSTOP`; `none` is a panic of `kfree`. -/
def freerange (kend : Nat) : Nat → Nat → State H → Option (State H)
  | 0, _, _ => none
  | fuel + 1, p, s =>
      if p + pgsize ≤ phystop then (kfreeAlone kend p s).bind (freerange kend fuel (p + pgsize)) else some s

/-- `kinit`, with the memory before. -/
def kinit (kend : Nat) (mem : Nat → Nat) : Option (State H) :=
  freerange kend (phystop + 1) (pgroundup kend) ⟨mem, 0, none, fun _ => .caller⟩

section Steps

variable [DecidableEq H]

/-- A caller goes on at another place. -/
def State.goto (s : State H) (c : H) (pc : Pc) : State H := { s with pc := Function.update s.pc c pc }

/-- The next access of a caller. One that finds the lock taken tries again. -/
def next (s : State H) (c : H) : Option (State H × List (Event H)) :=
  match s.pc c with
  | .caller | .panicked => none
  | .freeFill pa => some ({ s with mem := fill s.mem pa 1 }.goto c (.freeAcquire pa), [])
  | .freeAcquire pa =>
      if s.lock = none then some ({ s with lock := some c }.goto c (.freeNext pa), []) else some (s, [])
  | .freeNext pa => some ({ s with mem := Function.update s.mem pa s.freelist }.goto c (.freeHead pa), [])
  | .freeHead pa => some ({ s with freelist := pa }.goto c .freeRelease, [])
  | .freeRelease => some ({ s with lock := none }.goto c .caller, [])
  | .allocAcquire =>
      if s.lock = none then some ({ s with lock := some c }.goto c .allocHead, []) else some (s, [])
  | .allocHead =>
      if s.freelist = 0 then some (s.goto c (.allocRelease 0), [.exhausted c])
      else some (s.goto c (.allocNext s.freelist), [])
  | .allocNext r => some ({ s with freelist := s.mem r }.goto c (.allocRelease r), [])
  | .allocRelease r => some ({ s with lock := none }.goto c (.allocFill r), [])
  | .allocFill r =>
      if r = 0 then some (s.goto c .caller, [])
      else some ({ s with mem := fill s.mem r 5 }.goto c .caller, [.allocated c r])

/-- What can happen next: a call, an access of a call, or a write of the code outside. -/
inductive Action (H : Type)
  | kalloc (c : H)
  | kfree (c : H) (pa : Nat)
  | run (c : H)
  | write (c : H) (a v : Nat)
  deriving DecidableEq, Repr

/-- One step. -/
def step (kend : Nat) (s : State H) : Action H → Option (State H × List (Event H))
  | .kalloc c => if s.pc c = .caller then some (s.goto c .allocAcquire, []) else none
  | .kfree c pa =>
      if s.pc c = .caller then
        if IsPage kend pa then some (s.goto c (.freeFill pa), [.freed c pa])
        else some (s.goto c .panicked, [.panics c pa])
      else none
  | .run c => next s c
  | .write c a v => if s.pc c = .caller then some ({ s with mem := Function.update s.mem a v }, []) else none

end Steps

/-! ## Owners -/

/-- The page is given away. -/
def Event.gives (pa : Nat) : Event H → Bool
  | .allocated _ q => q = pa
  | _ => false

/-- The page is given back. -/
def Event.takes (pa : Nat) : Event H → Bool
  | .freed _ q => q = pa
  | _ => false

/-- The page has an owner: it was allocated and not freed since. -/
def Owned (evs : List (Event H)) (pa : Nat) : Prop := since (Event.gives pa) (Event.takes pa) evs = true

instance (evs : List (Event H)) (pa : Nat) : Decidable (Owned evs pa) :=
  inferInstanceAs (Decidable (_ = true))

/-- A page is freed, and its words are written, only while it has an owner. -/
def ByOwner (evs : List (Event H)) (_ : State H) : Action H → Prop
  | .kfree _ pa => Owned evs pa
  | .write _ a _ => Owned evs (pageOf a)
  | _ => True

instance (evs : List (Event H)) (s : State H) : (a : Action H) → Decidable (ByOwner evs s a)
  | .kfree _ pa => inferInstanceAs (Decidable (Owned evs pa))
  | .write _ a _ => inferInstanceAs (Decidable (Owned evs (pageOf a)))
  | .kalloc _ | .run _ => inferInstanceAs (Decidable True)

/-! ## The invariant -/

/-- A pointer read from memory. -/
def ptr (v : Nat) : Option Nat := if v = 0 then none else some v

/-- The page that a call has on its way. -/
def Pc.hand : Pc → Option Nat
  | .freeFill pa | .freeAcquire pa | .freeNext pa | .freeHead pa => some pa
  | .allocRelease r | .allocFill r => ptr r
  | _ => none

/-- The caller holds `kmem.lock`. -/
def Pc.inside : Pc → Bool
  | .freeNext _ | .freeHead _ | .freeRelease | .allocHead | .allocNext _ | .allocRelease _ => true
  | _ => false

/-- What a call relies on. -/
def Pc.Relies (s : State H) : Pc → Prop
  | .freeHead pa => s.mem pa = s.freelist
  | .allocNext r => r ≠ 0 ∧ s.freelist = r
  | _ => True

/-- Where a page is. -/
inductive Place (H : Type)
  | free
  | owned
  | hand (c : H)

/-- The free list holds the pages `l`, and every page is in one place: on the list, with an owner, or on its
way. -/
structure Shared (kend : Nat) (evs : List (Event H)) (s : State H) (l : List Nat) (place : Nat → Place H) :
    Prop where
  chain : Chain (fun a => ptr (s.mem a)) (ptr s.freelist) l
  free : ∀ pa, pa ∈ l ↔ IsPage kend pa ∧ place pa = .free
  owned : ∀ pa, Owned evs pa ↔ IsPage kend pa ∧ place pa = .owned
  hand : ∀ c pa, (s.pc c).hand = some pa ↔ IsPage kend pa ∧ place pa = .hand c
  lock : ∀ c, s.lock = some c ↔ (s.pc c).inside = true
  relies : ∀ c, (s.pc c).Relies s

/-! ### Pages -/

/-- A page is not at address 0. -/
theorem IsPage.ne_zero {kend pa : Nat} (h : IsPage kend pa) (hk : 0 < kend) : pa ≠ 0 := by
  have hge := h.2.1
  omega

/-- A pointer to a page is a word that is not 0. -/
theorem ptr_eq_some {v pa : Nat} : ptr v = some pa ↔ v = pa ∧ pa ≠ 0 := by
  unfold ptr
  split_ifs with hv
  · constructor
    · intro h
      cases h
    · rintro ⟨rfl, h⟩
      exact absurd hv h
  · rw [Option.some.injEq]
    constructor
    · rintro rfl
      exact ⟨rfl, hv⟩
    · exact And.left

/-- The address of a page, read from memory, is a pointer to it. -/
theorem IsPage.ptr {kend pa : Nat} (h : IsPage kend pa) (hk : 0 < kend) : Pages.ptr pa = some pa :=
  ptr_eq_some.mpr ⟨rfl, h.ne_zero hk⟩

/-- `NULL` is the word 0. -/
theorem ptr_zero_iff {v : Nat} : ptr v = none ↔ v = 0 := by
  unfold ptr
  split_ifs with hv <;> simp [hv]

/-- A page holds the addresses from its own to the next one. -/
theorem IsPage.mem_iff {kend pa a : Nat} (h : IsPage kend pa) : pageOf a = pa ↔ pa ≤ a ∧ a < pa + pgsize := by
  have hal := h.1
  unfold pageOf pgsize at *
  omega

/-- A page is the page of its address. -/
theorem IsPage.pageOf_self {kend pa : Nat} (h : IsPage kend pa) : pageOf pa = pa :=
  h.mem_iff.mpr ⟨Nat.le_refl pa, Nat.lt_add_of_pos_right (by decide)⟩

/-- Filling a page writes its words. -/
theorem fill_eq {kend pa : Nat} (h : IsPage kend pa) (mem : Nat → Nat) (byte a : Nat) :
    fill mem pa byte a = if pageOf a = pa then byte * 0x0101010101010101 else mem a := by
  unfold fill
  exact if_congr h.mem_iff.symm rfl rfl

/-- Filling a page leaves the words of the others alone. -/
theorem fill_of_ne {kend pa q : Nat} (h : IsPage kend pa) (hq : IsPage kend q) (hne : q ≠ pa) (mem : Nat → Nat)
    (byte : Nat) : fill mem pa byte q = mem q := by
  rw [fill_eq h, hq.pageOf_self, if_neg hne]

/-! ### Booting -/

section Booting

variable {s t : State H} {l : List Nat} {kend : Nat}

/-- A page not on the list is linked in front. -/
theorem kfreeAlone_linked {pa : Nat} (hk : 0 < kend) (hpage : IsPage kend pa)
    (hchain : Chain (fun a => ptr (s.mem a)) (ptr s.freelist) l) (hl : ∀ q ∈ l, IsPage kend q ∧ q ≠ pa) :
    ∃ t, kfreeAlone kend pa s = some t ∧ Chain (fun a => ptr (t.mem a)) (ptr t.freelist) (pa :: l) ∧
      t.lock = s.lock ∧ t.pc = s.pc := by
  refine ⟨_, if_pos hpage, ⟨hpage.ptr hk, ?_⟩, rfl, rfl⟩
  show Chain _ (ptr (Function.update (fill s.mem pa 1) pa s.freelist pa)) l
  rw [Function.update_self]
  apply hchain.congr
  intro q hq
  obtain ⟨hq, hne⟩ := hl q hq
  dsimp only
  rw [Function.update_of_ne hne, fill_of_ne hpage hq hne]

/-- `freerange` links the pages from its start to `PHYSTOP`, the last one first. -/
theorem freerange_linked (hk : 0 < kend) (fuel : Nat) {p : Nat} (hp : p % pgsize = 0) (hge : kend ≤ p)
    (hfuel : phystop < p + fuel) (hchain : Chain (fun a => ptr (s.mem a)) (ptr s.freelist) l)
    (hl : ∀ q, q ∈ l ↔ IsPage kend q ∧ q < p) :
    ∃ t l', freerange kend (fuel + 1) p s = some t ∧ Chain (fun a => ptr (t.mem a)) (ptr t.freelist) l' ∧
      (∀ q, q ∈ l' ↔ IsPage kend q) ∧ t.lock = s.lock ∧ t.pc = s.pc := by
  have htop : phystop % pgsize = 0 := rfl
  -- by induction on the addresses left; the list holds the pages below `p`
  induction fuel generalizing p s l with
  | zero =>
      have hlast : ¬ p + pgsize ≤ phystop := by omega
      refine ⟨s, l, if_neg hlast, hchain, fun q => ?_, rfl, rfl⟩
      rw [hl]
      refine ⟨And.left, fun hq => ⟨hq, ?_⟩⟩
      have hlt := hq.2.2
      omega
  | succ fuel ih =>
      unfold freerange
      split_ifs with hnext
      · have hpage : IsPage kend p := by
          refine ⟨hp, hge, ?_⟩
          unfold pgsize at hnext
          omega
        obtain ⟨u, hu, hchain', hlock, hpc⟩ := kfreeAlone_linked hk hpage hchain fun q hq =>
          ⟨((hl q).mp hq).1, Nat.ne_of_lt ((hl q).mp hq).2⟩
        have hl' : ∀ q, q ∈ p :: l ↔ IsPage kend q ∧ q < p + pgsize := by
          intro q
          rw [List.mem_cons, hl]
          constructor
          · rintro (rfl | ⟨hq, hlt⟩)
            · exact ⟨hpage, Nat.lt_add_of_pos_right (by decide)⟩
            · exact ⟨hq, Nat.lt_add_right _ hlt⟩
          · rintro ⟨hq, hlt⟩
            -- between `p` and the next page there is no other address of a page
            have hal := hq.1
            by_cases heq : q = p
            · exact .inl heq
            · refine .inr ⟨hq, ?_⟩
              unfold pgsize at *
              omega
        obtain ⟨t, l', ht, hrest⟩ := ih (by rw [Nat.add_mod_right]; exact hp) (Nat.le_add_right_of_le hge)
          (by unfold pgsize; omega) hchain' hl'
        refine ⟨t, l', by rw [hu, Option.bind_some, ht], ?_⟩
        rwa [hlock, hpc] at hrest
      · refine ⟨s, l, rfl, hchain, fun q => ?_, rfl, rfl⟩
        rw [hl]
        refine ⟨And.left, fun hq => ⟨hq, ?_⟩⟩
        obtain ⟨hal, -, hlt⟩ := hq
        unfold pgsize at *
        omega

/-- **`kinit`** links every page once and leaves `kmem.lock` free. -/
theorem kinit_linked (hk : 0 < kend) (mem : Nat → Nat) :
    ∃ (s : State H) (l : List Nat), kinit kend mem = some s ∧ Shared kend [] s l (fun _ => .free) := by
  have hround : pgroundup kend % pgsize = 0 := Nat.mul_mod_left _ _
  have hge : kend ≤ pgroundup kend := by
    unfold pgroundup pgsize
    omega
  let boot : State H := ⟨mem, 0, none, fun _ => .caller⟩
  obtain ⟨s, l, hs, hchain, hl, hlock, hpc⟩ := freerange_linked (s := boot) (l := []) hk phystop hround hge
    (by omega) rfl fun q => by
      refine ⟨fun hq => absurd hq List.not_mem_nil, ?_⟩
      rintro ⟨⟨hal, hge', -⟩, hlt⟩
      unfold pgroundup pgsize at *
      omega
  refine ⟨s, l, hs, hchain, fun q => ?_, fun q => ?_, fun c q => ?_, fun c => ?_, fun c => ?_⟩
  · rw [hl, and_iff_left rfl]
  · simp [Owned]
  · simp [hpc, Pc.hand]
  · simp [hlock, hpc, Pc.inside]
  · rw [hpc]
    trivial

end Booting

/-! ### Steps -/

section Steps

variable {s t : State H} {l l' : List Nat} {kend : Nat} {evs evs' : List (Event H)} {place place' : Nat → Place H}

/-- A caller that relies on something holds the lock. -/
theorem Pc.relies_of_not_inside {pc : Pc} (h : pc.inside = false) : pc.Relies s := by
  cases pc <;> trivial

/-- What a call relies on is the free list and the page in its hand. -/
theorem Pc.Relies.congr {pc : Pc} (h : pc.Relies s) (hfree : t.freelist = s.freelist)
    (hmem : ∀ pa, pc.hand = some pa → t.mem pa = s.mem pa) : pc.Relies t := by
  cases pc with
  | freeHead pa =>
      show t.mem pa = t.freelist
      rw [hmem pa rfl, hfree]
      exact h
  | allocNext r => exact ⟨h.1, hfree.trans h.2⟩
  | _ => trivial

/-- A step of one caller: what it does to the list, to its own page, and to what the others rely on. -/
theorem Shared.moves (h : Shared kend evs s l place) {c : H}
    (hchain : Chain (fun a => ptr (t.mem a)) (ptr t.freelist) l')
    (hfree : ∀ pa, pa ∈ l' ↔ IsPage kend pa ∧ place' pa = .free)
    (howned : ∀ pa, Owned evs' pa ↔ IsPage kend pa ∧ place' pa = .owned)
    (hhand : ∀ pa, (t.pc c).hand = some pa ↔ IsPage kend pa ∧ place' pa = .hand c)
    (hrelies : (t.pc c).Relies t)
    (hlock : ∀ d, t.lock = some d ↔ (t.pc d).inside = true)
    (hpc : ∀ d, d ≠ c → t.pc d = s.pc d)
    (hothers : ∀ d, d ≠ c → ∀ pa, place' pa = .hand d ↔ place pa = .hand d)
    (hkept : (s.pc c).inside = true ∨ t.freelist = s.freelist)
    (hmem : ∀ d, d ≠ c → ∀ pa, IsPage kend pa → place pa = .hand d → t.mem pa = s.mem pa) :
    Shared kend evs' t l' place' := by
  refine ⟨hchain, hfree, howned, fun d pa => ?_, hlock, fun d => ?_⟩
  · by_cases hd : d = c
    · rw [hd]
      exact hhand pa
    · rw [hpc d hd, h.hand, hothers d hd]
  · by_cases hd : d = c
    · rw [hd]
      exact hrelies
    · rw [hpc d hd]
      rcases hkept with hinside | hfree
      · -- only one caller is inside
        have hlocked := (h.lock c).mpr hinside
        apply Pc.relies_of_not_inside
        by_contra hin
        rw [Bool.not_eq_false, ← h.lock, hlocked] at hin
        exact hd (Option.some.inj hin).symm
      · refine (h.relies d).congr hfree fun pa hpa => ?_
        obtain ⟨hpage, hplace⟩ := (h.hand d pa).mp hpa
        exact hmem d hd pa hpage hplace

/-- A step that leaves every page where it is. -/
theorem Shared.stays (h : Shared kend evs s l place) {c : H}
    (howned : ∀ pa, Owned evs' pa ↔ Owned evs pa) (hhand : (t.pc c).hand = (s.pc c).hand)
    (hrelies : (t.pc c).Relies t) (hlock : ∀ d, t.lock = some d ↔ (t.pc d).inside = true)
    (hpc : ∀ d, d ≠ c → t.pc d = s.pc d) (hfree : t.freelist = s.freelist)
    (hmem : ∀ pa, IsPage kend pa → place pa ≠ .owned → place pa ≠ .hand c → t.mem pa = s.mem pa) :
    Shared kend evs' t l place := by
  refine h.moves ?_ h.free (fun pa => (howned pa).trans (h.owned pa)) (fun pa => ?_) hrelies hlock hpc
    (fun d _ pa => Iff.rfl) (.inr hfree) fun d hd pa hpage hplace => ?_
  · rw [hfree]
    apply h.chain.congr
    intro pa hpa
    obtain ⟨hpage, hplace⟩ := (h.free pa).mp hpa
    rw [hmem pa hpage (by simp [hplace]) (by simp [hplace])]
  · rw [hhand, h.hand]
  · exact hmem pa hpage (by simp [hplace]) (by simp [hplace, hd])

/-- A step with which one page goes from the caller or to the caller. -/
theorem Shared.carries (h : Shared kend evs s l place) {c : H} [DecidableEq H] {pa : Nat} {x : Place H}
    (hpage : IsPage kend pa)
    (hx : ∀ d, d ≠ c → x ≠ .hand d) (hold : ∀ d, d ≠ c → place pa ≠ .hand d)
    (hchain : Chain (fun a => ptr (t.mem a)) (ptr t.freelist) l')
    (hfree : ∀ q, q ∈ l' ↔ if q = pa then x = .free else q ∈ l)
    (howned : ∀ q, Owned evs' q ↔ if q = pa then x = .owned else Owned evs q)
    (hhand : ∀ q, (t.pc c).hand = some q ↔ q = pa ∧ x = .hand c)
    (hpast : ∀ q, (s.pc c).hand = some q → q = pa)
    (hrelies : (t.pc c).Relies t)
    (hlock : ∀ d, t.lock = some d ↔ (t.pc d).inside = true)
    (hpc : ∀ d, d ≠ c → t.pc d = s.pc d)
    (hkept : (s.pc c).inside = true ∨ t.freelist = s.freelist)
    (hmem : ∀ q, IsPage kend q → q ≠ pa → t.mem q = s.mem q) :
    Shared kend evs' t l' (Function.update place pa x) := by
  -- only the place of `pa` and the list change; each part of the invariant is read at `pa` and elsewhere
  refine h.moves hchain (fun q => ?_) (fun q => ?_) (fun q => ?_) hrelies hlock hpc (fun d hd q => ?_) hkept
    fun d hd q hq hplace => ?_
  · rw [hfree, Function.update_apply]
    split_ifs with heq
    · rw [heq, and_iff_right hpage]
    · exact h.free q
  · rw [howned, Function.update_apply]
    split_ifs with heq
    · rw [heq, and_iff_right hpage]
    · exact h.owned q
  · rw [hhand, Function.update_apply]
    split_ifs with heq
    · rw [heq, and_iff_right hpage, and_iff_right rfl]
    · refine iff_of_false (fun hq => heq hq.1) fun hq => heq ?_
      exact hpast q ((h.hand c q).mpr hq)
  · rw [Function.update_apply]
    split_ifs with heq
    · rw [heq]
      exact iff_of_false (hx d hd) (hold d hd)
    · exact Iff.rfl
  · apply hmem q hq
    rintro rfl
    exact hold d hd hplace

/-- A step inside or outside the lock. -/
theorem Shared.lock_same (h : Shared kend evs s l place) {c : H} (hlock : t.lock = s.lock)
    (hpc : ∀ d, d ≠ c → t.pc d = s.pc d) (hinside : (t.pc c).inside = (s.pc c).inside) (d : H) :
    t.lock = some d ↔ (t.pc d).inside = true := by
  rw [hlock, h.lock]
  by_cases hd : d = c
  · rw [hd, hinside]
  · rw [hpc d hd]

/-- The lock is taken when nobody has it. -/
theorem Shared.lock_taken (h : Shared kend evs s l place) {c : H} (hfree : s.lock = none) (hlock : t.lock = some c)
    (hpc : ∀ d, d ≠ c → t.pc d = s.pc d) (hinside : (t.pc c).inside = true) (d : H) :
    t.lock = some d ↔ (t.pc d).inside = true := by
  rw [hlock]
  by_cases hd : d = c
  · rw [hd]
    exact iff_of_true rfl hinside
  · rw [hpc d hd, ← h.lock, hfree]
    exact iff_of_false (fun heq => hd (Option.some.inj heq).symm) (by simp)

/-- The lock is given back by the one who has it. -/
theorem Shared.lock_left (h : Shared kend evs s l place) {c : H} (hholds : (s.pc c).inside = true)
    (hlock : t.lock = none) (hpc : ∀ d, d ≠ c → t.pc d = s.pc d) (hinside : (t.pc c).inside = false) (d : H) :
    t.lock = some d ↔ (t.pc d).inside = true := by
  rw [hlock]
  by_cases hd : d = c
  · rw [hd, hinside]
    simp
  · rw [hpc d hd, ← h.lock, (h.lock c).mpr hholds]
    exact iff_of_false (by simp) fun heq => hd (Option.some.inj heq).symm

/-- Events that neither give nor take pages. -/
theorem owned_append {new : List (Event H)} (hnew : ∀ e ∈ new, ∀ pa, e.gives pa = false ∧ e.takes pa = false)
    (pa : Nat) : Owned (evs ++ new) pa ↔ Owned evs pa := by
  unfold Owned
  rw [since_append_of_none fun e he => hnew e he pa]

/-- A page that was just given out has an owner, and the others keep theirs. -/
theorem owned_allocated (c : H) (pa q : Nat) :
    Owned (evs ++ [.allocated c pa]) q ↔ if q = pa then True else Owned evs q := by
  unfold Owned
  rw [since_concat]
  split_ifs with heq
  · simp [Event.gives, heq]
  · simp [Event.gives, Event.takes, Ne.symm heq]

/-- A page that was just freed has no owner, and the others keep theirs. -/
theorem owned_freed (c : H) (pa q : Nat) :
    Owned (evs ++ [.freed c pa]) q ↔ if q = pa then False else Owned evs q := by
  unfold Owned
  rw [since_concat]
  split_ifs with heq
  · simp [Event.gives, Event.takes, heq]
  · simp [Event.gives, Event.takes, Ne.symm heq]

variable [DecidableEq H]

/-- A caller that goes on leaves the others where they are. -/
theorem goto_others (s : State H) (c : H) (pc : Pc) (d : H) (hd : d ≠ c) : (s.goto c pc).pc d = s.pc d := by
  unfold State.goto
  exact Function.update_of_ne hd _ _

/-- A hart that goes on does not write. -/
@[simp] theorem goto_mem (s : State H) (c : H) (pc : Pc) : (s.goto c pc).mem = s.mem := rfl

/-- A hart that goes on leaves the free list alone. -/
@[simp] theorem goto_freelist (s : State H) (c : H) (pc : Pc) : (s.goto c pc).freelist = s.freelist := rfl

/-- A hart that goes on leaves the lock alone. -/
@[simp] theorem goto_lock (s : State H) (c : H) (pc : Pc) : (s.goto c pc).lock = s.lock := rfl

/-- A hart that goes on is where it went. -/
@[simp] theorem goto_self (s : State H) (c : H) (pc : Pc) : (s.goto c pc).pc c = pc := by
  unfold State.goto
  exact Function.update_self c _ _

/-- Every access of a call keeps the pages apart. -/
theorem Shared.next (hk : 0 < kend) (h : Shared kend evs s l place) {c : H} {new : List (Event H)}
    (hs : Pages.next s c = some (t, new)) : ∃ l' place', Shared kend (evs ++ new) t l' place' := by
  -- most steps give and take no page, so the owners stay
  have hsame (pa : Nat) : Owned (evs ++ []) pa ↔ Owned evs pa := owned_append (by simp) pa
  have hhand (pa : Nat) (hpa : (s.pc c).hand = some pa) := (h.hand c pa).mp hpa
  have hrelies := h.relies c
  unfold Pages.next at hs
  cases hpc : s.pc c with
  | caller =>
      rw [hpc] at hs
      cases hs
  | panicked =>
      rw [hpc] at hs
      cases hs
  -- `memset` of the page that is freed: nobody else reads it
  | freeFill pa =>
      rw [hpc] at hs
      cases hs
      obtain ⟨hpage, hplace⟩ := hhand pa (by rw [hpc]; rfl)
      refine ⟨l, place, h.stays (c := c) hsame (by rw [hpc, goto_self]; rfl) (by rw [goto_self]; trivial)
        (h.lock_same rfl (goto_others _ c _) (by rw [hpc, goto_self]; rfl)) (goto_others _ c _) rfl
        fun q hq hfree hne => ?_⟩
      apply fill_of_ne hpage hq
      rintro rfl
      exact hne hplace
  | freeAcquire pa =>
      rw [hpc] at hs
      dsimp only at hs
      split_ifs at hs with hfree
      · cases hs
        exact ⟨l, place, h.stays (c := c) hsame (by rw [hpc, goto_self]; rfl) (by rw [goto_self]; trivial)
          (h.lock_taken hfree rfl (goto_others _ c _) (by rw [goto_self]; rfl)) (goto_others _ c _) rfl
          fun q hq _ _ => rfl⟩
      · cases hs
        rw [List.append_nil]
        exact ⟨l, place, h⟩
  -- `r->next = kmem.freelist` is written into the page in hand
  | freeNext pa =>
      rw [hpc] at hs
      cases hs
      obtain ⟨hpage, hplace⟩ := hhand pa (by rw [hpc]; rfl)
      refine ⟨l, place, h.stays (c := c) hsame (by rw [hpc, goto_self]; rfl) ?_
        (h.lock_same rfl (goto_others _ c _) (by rw [hpc, goto_self]; rfl)) (goto_others _ c _) rfl
        fun q hq hfree hne => ?_⟩
      · rw [goto_self]
        exact Function.update_self pa s.freelist s.mem
      · apply Function.update_of_ne
        rintro rfl
        exact hne hplace
  -- the page becomes the head of the free list and leaves the hand
  | freeHead pa =>
      rw [hpc] at hs hrelies
      cases hs
      obtain ⟨hpage, hplace⟩ := hhand pa (by rw [hpc]; rfl)
      have hnotfree : ¬ pa ∈ l := fun hmem => by
        rw [h.free, hplace] at hmem
        cases hmem.2
      have hnotowned : ¬ Owned evs pa := fun hmem => by
        rw [h.owned, hplace] at hmem
        cases hmem.2
      refine ⟨pa :: l, Function.update place pa .free, h.carries (c := c) hpage (by simp) (fun d hd => ?_)
        ⟨hpage.ptr hk, ?_⟩ (fun q => ?_) (fun q => ?_) (fun q => ?_) (fun q => ?_) (by rw [goto_self]; trivial)
        (h.lock_same rfl (goto_others _ c _) (by rw [hpc, goto_self]; rfl)) (goto_others _ c _)
        (.inl (by rw [hpc]; rfl)) fun q _ _ => rfl⟩
      · rw [hplace]
        exact fun heq => hd (Place.hand.inj heq).symm
      · show Chain _ (ptr (s.mem pa)) l
        rw [show s.mem pa = s.freelist from hrelies]
        exact h.chain
      · rw [List.mem_cons]
        split_ifs with heq
        · exact iff_of_true (.inl heq) rfl
        · exact or_iff_right heq
      · rw [hsame]
        split_ifs with heq
        · rw [heq]
          exact iff_of_false hnotowned (by simp)
        · exact Iff.rfl
      · rw [goto_self]
        exact iff_of_false (by simp [Pc.hand]) (by simp)
      · rw [hpc]
        exact fun heq => (Option.some.inj heq).symm
  | freeRelease =>
      rw [hpc] at hs
      cases hs
      exact ⟨l, place, h.stays (c := c) hsame (by rw [hpc, goto_self]; rfl) (by rw [goto_self]; trivial)
        (h.lock_left (c := c) (by rw [hpc]; rfl) rfl (goto_others _ c _) (by rw [goto_self]; rfl))
        (goto_others _ c _) rfl fun q hq _ _ => rfl⟩
  | allocAcquire =>
      rw [hpc] at hs
      dsimp only at hs
      split_ifs at hs with hfree
      · cases hs
        exact ⟨l, place, h.stays (c := c) hsame (by rw [hpc, goto_self]; rfl) (by rw [goto_self]; trivial)
          (h.lock_taken hfree rfl (goto_others _ c _) (by rw [goto_self]; rfl)) (goto_others _ c _) rfl
          fun q hq _ _ => rfl⟩
      · cases hs
        rw [List.append_nil]
        exact ⟨l, place, h⟩
  -- `kmem.freelist` is read under the lock, so it stays until the lock is released
  | allocHead =>
      rw [hpc] at hs
      dsimp only at hs
      split_ifs at hs with hnull
      · cases hs
        exact ⟨l, place, h.stays (c := c) (owned_append (by simp [Event.gives, Event.takes]))
          (by rw [hpc, goto_self]; rfl) (by rw [goto_self]; trivial)
          (h.lock_same rfl (goto_others _ c _) (by rw [hpc, goto_self]; rfl)) (goto_others _ c _) rfl
          fun q hq _ _ => rfl⟩
      · cases hs
        exact ⟨l, place, h.stays (c := c) hsame (by rw [hpc, goto_self]; rfl)
          (by rw [goto_self]; exact ⟨hnull, rfl⟩)
          (h.lock_same rfl (goto_others _ c _) (by rw [hpc, goto_self]; rfl)) (goto_others _ c _) rfl
          fun q hq _ _ => rfl⟩
  -- the head of the list leaves it for the hand
  | allocNext r =>
      rw [hpc] at hs hrelies
      cases hs
      obtain ⟨hne, hhead⟩ := hrelies
      have hptr : ptr s.freelist = some r := ptr_eq_some.mpr ⟨hhead, hne⟩
      have hchain := h.chain
      cases l with
      | nil =>
          rw [chain_nil_iff, hptr] at hchain
          cases hchain
      | cons r' l =>
          obtain ⟨heq, hrest⟩ := hchain
          rw [hptr] at heq
          cases heq
          obtain ⟨hpage, hplace⟩ := (h.free r).mp List.mem_cons_self
          have hnodup := List.nodup_cons.mp h.chain.nodup
          have hnotowned : ¬ Owned evs r := fun hmem => by
            rw [h.owned, hplace] at hmem
            cases hmem.2
          refine ⟨l, Function.update place r (.hand c), h.carries (c := c) hpage (fun d hd heq => ?_)
            (by simp [hplace]) hrest (fun q => ?_) (fun q => ?_) (fun q => ?_) (by simp [hpc, Pc.hand])
            (by rw [goto_self]; trivial) (h.lock_same rfl (goto_others _ c _) (by rw [hpc, goto_self]; rfl))
            (goto_others _ c _) (.inl (by rw [hpc]; rfl)) fun q _ _ => rfl⟩
          · exact hd (Place.hand.inj heq).symm
          · split_ifs with heq
            · rw [heq]
              exact iff_of_false hnodup.1 (by simp)
            · rw [List.mem_cons, or_iff_right heq]
          · rw [hsame]
            split_ifs with heq
            · rw [heq]
              exact iff_of_false hnotowned (by simp)
            · exact Iff.rfl
          · rw [goto_self, and_iff_left rfl]
            show ptr r = some q ↔ q = r
            rw [hpage.ptr hk, Option.some.injEq, eq_comm]
  | allocRelease r =>
      rw [hpc] at hs
      cases hs
      exact ⟨l, place, h.stays (c := c) hsame (by rw [hpc, goto_self]; rfl) (by rw [goto_self]; trivial)
        (h.lock_left (c := c) (by rw [hpc]; rfl) rfl (goto_others _ c _) (by rw [goto_self]; rfl))
        (goto_others _ c _) rfl fun q hq _ _ => rfl⟩
  -- a page that was found is filled, and is given to the caller
  | allocFill r =>
      rw [hpc] at hs
      dsimp only at hs
      split_ifs at hs with hnull
      · cases hs
        exact ⟨l, place, h.stays (c := c) hsame (by rw [hpc, goto_self, hnull]; rfl) (by rw [goto_self]; trivial)
          (h.lock_same rfl (goto_others _ c _) (by rw [hpc, goto_self]; rfl)) (goto_others _ c _) rfl
          fun q hq _ _ => rfl⟩
      · cases hs
        have hptr : ptr r = some r := ptr_eq_some.mpr ⟨rfl, hnull⟩
        obtain ⟨hpage, hplace⟩ := hhand r (by rw [hpc]; exact hptr)
        have hkeep {q : Nat} (hq : IsPage kend q) (hne : q ≠ r) : fill s.mem r 5 q = s.mem q :=
          fill_of_ne hpage hq hne s.mem 5
        have hnotfree : ¬ r ∈ l := fun hmem => by
          rw [h.free, hplace] at hmem
          cases hmem.2
        refine ⟨l, Function.update place r .owned, h.carries (c := c) hpage (by simp) (fun d hd => ?_)
          (h.chain.congr fun q hq => ?_) (fun q => ?_) (fun q => ?_) (fun q => ?_) (fun q => ?_)
          (by rw [goto_self]; trivial) (h.lock_same rfl (goto_others _ c _) (by rw [hpc, goto_self]; rfl))
          (goto_others _ c _) (.inr rfl) fun q hq hne => hkeep hq hne⟩
        · rw [hplace]
          exact fun heq => hd (Place.hand.inj heq).symm
        · show ptr (fill s.mem r 5 q) = ptr (s.mem q)
          rw [hkeep ((h.free q).mp hq).1 fun heq => hnotfree (heq ▸ hq)]
        · split_ifs with heq
          · rw [heq]
            exact iff_of_false hnotfree (by simp)
          · exact Iff.rfl
        · rw [owned_allocated]
          simp
        · rw [goto_self]
          exact iff_of_false (by simp [Pc.hand]) (by simp)
        · rw [hpc]
          show ptr r = some q → q = r
          rw [hptr]
          exact fun heq => (Option.some.inj heq).symm

/-- Every step of a disciplined run keeps the pages apart. -/
theorem Shared.step (hk : 0 < kend) (h : Shared kend evs s l place) {a : Action H} {new : List (Event H)}
    (howner : ByOwner evs s a) (hs : Pages.step kend s a = some (t, new)) :
    ∃ l' place', Shared kend (evs ++ new) t l' place' := by
  have hsame (pa : Nat) : Owned (evs ++ []) pa ↔ Owned evs pa := owned_append (by simp) pa
  unfold Pages.step at hs
  cases a with
  | run c => exact h.next hk hs
  | kalloc c =>
      dsimp only at hs
      split_ifs at hs with hpc
      cases hs
      exact ⟨l, place, h.stays (c := c) hsame (by rw [hpc, goto_self]; rfl) (by rw [goto_self]; trivial)
        (h.lock_same rfl (goto_others _ c _) (by rw [hpc, goto_self]; rfl)) (goto_others _ c _) rfl
        fun q hq _ _ => rfl⟩
  -- only the owner frees, so the page is neither free nor in a hand
  | kfree c pa =>
      obtain ⟨hpage, hplace⟩ := (h.owned pa).mp howner
      dsimp only at hs
      split_ifs at hs with hpc
      cases hs
      have hnotfree : ¬ pa ∈ l := fun hmem => by
        rw [h.free, hplace] at hmem
        cases hmem.2
      refine ⟨l, Function.update place pa (.hand c), h.carries (c := c) hpage (fun d hd heq => ?_) (by simp [hplace])
        h.chain (fun q => ?_) (fun q => ?_) (fun q => ?_) (by simp [hpc, Pc.hand]) (by rw [goto_self]; trivial)
        (h.lock_same rfl (goto_others _ c _) (by rw [hpc, goto_self]; rfl)) (goto_others _ c _) (.inr rfl)
        fun q _ _ => rfl⟩
      · exact hd (Place.hand.inj heq).symm
      · split_ifs with heq
        · rw [heq]
          exact iff_of_false hnotfree (by simp)
        · exact Iff.rfl
      · rw [owned_freed]
        simp
      · rw [goto_self, and_iff_left rfl]
        exact ⟨fun heq => (Option.some.inj heq).symm, fun heq => congrArg some heq.symm⟩
  | write c a v =>
      obtain ⟨hpage, hplace⟩ := (h.owned (pageOf a)).mp howner
      dsimp only at hs
      split_ifs at hs with hpc
      cases hs
      refine ⟨l, place, h.stays (c := c) hsame rfl (h.relies c |>.congr rfl fun q hq => ?_)
        (h.lock_same (c := c) rfl (fun d _ => rfl) rfl) (fun d _ => rfl) rfl fun q hq howned _ => ?_⟩
      · rw [hpc] at hq
        cases hq
      · apply Function.update_of_ne
        rintro rfl
        rw [hq.pageOf_self] at hplace
        exact howned hplace

/-- A page is only given away by a call that has it in its hand, and only `kfree` panics. -/
theorem step_events {a : Action H} {new : List (Event H)} (hs : Pages.step kend s a = some (t, new)) :
    new = [] ∨ (∃ c, new = [.exhausted c]) ∨
      (∃ c pa, new = [.allocated c pa] ∧ (s.pc c).hand = some pa) ∨
      (∃ c pa, new = [.freed c pa]) ∨ ∃ c pa, a = .kfree c pa ∧ ¬ IsPage kend pa := by
  unfold Pages.step at hs
  cases a with
  | kalloc c =>
      dsimp only at hs
      split_ifs at hs with hpc
      cases hs
      exact .inl rfl
  | kfree c pa =>
      dsimp only at hs
      split_ifs at hs with hpc hpage
      · cases hs
        exact .inr (.inr (.inr (.inl ⟨c, pa, rfl⟩)))
      · exact .inr (.inr (.inr (.inr ⟨c, pa, rfl, hpage⟩)))
  | write c a v =>
      dsimp only at hs
      split_ifs at hs with hpc
      cases hs
      exact .inl rfl
  | run c =>
      replace hs : Pages.next s c = some (t, new) := hs
      unfold Pages.next at hs
      -- a page is given out at the end of `kalloc`, and only when one was found
      cases hpc : s.pc c with
      | allocFill r =>
          rw [hpc] at hs
          dsimp only at hs
          split_ifs at hs with hnull
          · cases hs
            exact .inl rfl
          · cases hs
            exact .inr (.inr (.inl ⟨c, r, rfl, by rw [hpc]; exact ptr_eq_some.mpr ⟨rfl, hnull⟩⟩))
      | allocHead =>
          rw [hpc] at hs
          dsimp only at hs
          split_ifs at hs
          · cases hs
            exact .inr (.inl ⟨c, rfl⟩)
          · cases hs
            exact .inl rfl
      | freeAcquire _ | allocAcquire =>
          rw [hpc] at hs
          dsimp only at hs
          split_ifs at hs <;> cases hs <;> exact .inl rfl
      | caller | panicked =>
          rw [hpc] at hs
          cases hs
      | _ =>
          rw [hpc] at hs
          cases hs
          exact .inl rfl

/-- `kalloc` finds no page only if the free list is empty. -/
theorem exhausted_only {c : H} (hs : Pages.step kend s (.run c) = some (t, [.exhausted c])) : s.freelist = 0 := by
  replace hs : Pages.next s c = some (t, [.exhausted c]) := hs
  unfold Pages.next at hs
  cases hpc : s.pc c with
  | allocHead =>
      rw [hpc] at hs
      dsimp only at hs
      split_ifs at hs with hnull
      · exact hnull
      · cases hs
  | allocFill r =>
      rw [hpc] at hs
      dsimp only at hs
      split_ifs at hs <;> cases hs
  | freeAcquire _ | allocAcquire =>
      rw [hpc] at hs
      dsimp only at hs
      split_ifs at hs <;> cases hs
  | _ =>
      rw [hpc] at hs
      cases hs

/-- The accesses of a call of `kfree` that nobody interferes with do what `kinit` relies on. -/
theorem kfree_alone {c : H} {pa : Nat} (hpc : s.pc c = .caller) (hlock : s.lock = none)
    (ht : kfreeAlone kend pa s = some t) :
    Transition.exec (Pages.step kend) evs s (.kfree c pa :: List.replicate 5 (.run c)) =
      some (evs ++ [.freed c pa], t) := by
  unfold kfreeAlone at ht
  split_ifs at ht with hpage
  cases ht
  simp only [exec, Pages.step, hpc, hpage, if_true, List.replicate, Pages.next, goto_self, goto_mem, goto_freelist,
    goto_lock, hlock, List.append_nil]
  simp only [State.goto, Function.update_idem]
  rw [← hpc, Function.update_eq_self]

/-- What holds in every state of a disciplined run. -/
structure Kept (kend : Nat) (evs : List (Event H)) (s : State H) : Prop where
  shared : ∃ l place, Shared kend evs s l place
  given : ∀ pa, Guarded (Event.gives pa) (Event.takes pa) (Event.gives pa) evs
  accepted : ∀ c pa, Event.panics c pa ∉ evs

/-- A step of an owner keeps the invariant. -/
theorem Kept.step (hk : 0 < kend) (h : Kept kend evs s) {a : Action H} {new : List (Event H)}
    (howner : ByOwner evs s a) (hs : Pages.step kend s a = some (t, new)) : Kept kend (evs ++ new) t := by
  obtain ⟨l, place, hshared⟩ := h.shared
  have hnext := hshared.step hk howner hs
  rcases step_events hs with rfl | ⟨c, rfl⟩ | ⟨c, pa, rfl, hhand⟩ | ⟨c, pa, rfl⟩ | ⟨c, pa, rfl, hnot⟩
  · rw [List.append_nil] at hnext ⊢
    exact ⟨hnext, h.given, h.accepted⟩
  · refine ⟨hnext, fun q => (h.given q).concat fun he => ?_, fun d q => ?_⟩
    · cases he
    · simpa using h.accepted d q
  · refine ⟨hnext, fun q => (h.given q).concat fun he => ?_, fun d q => ?_⟩
    · obtain rfl : pa = q := of_decide_eq_true he
      by_contra howned
      rw [Bool.not_eq_false] at howned
      obtain ⟨-, hplace⟩ := (hshared.owned pa).mp howned
      rw [((hshared.hand c pa).mp hhand).2] at hplace
      cases hplace
    · simpa using h.accepted d q
  · refine ⟨hnext, fun q => (h.given q).concat fun he => ?_, fun d q => ?_⟩
    · cases he
    · simpa using h.accepted d q
  · exact absurd ((hshared.owned pa).mp howner).1 hnot

/-- Every state of a disciplined run. -/
theorem kept_of_exec (hk : 0 < kend) {mem : Nat → Nat} (hboot : kinit kend mem = some s) {as : List (Action H)}
    (howner : Meets (Pages.step kend) ByOwner [] s as)
    (hrun : Transition.exec (Pages.step kend) [] s as = some (evs, t)) :
    Kept kend evs t := by
  obtain ⟨s', l, hs', hshared⟩ := kinit_linked hk mem
  obtain rfl : s' = s := Option.some.inj (hs'.symm.trans hboot)
  refine exec_invariant (I := Kept kend) ?_ ?_ howner hrun
  · intro evs s a u new hI hC hs
    exact hI.step hk hC hs
  · exact ⟨⟨l, _, hshared⟩, fun _ => guarded_nil _ _ _, fun _ _ => List.not_mem_nil⟩

/-- **One owner at a time.** From `kinit` on, whatever the order in which the callers make their accesses: as long
as pages are freed and written only while they are allocated, no page is given away again before it was freed, and
`kfree` does not panic. `kalloc` finds no page only when every page is given away or on its way in a call, and
between calls the free list holds exactly the pages that are not given away. -/
theorem kalloc_owned (hk : 0 < kend) {mem : Nat → Nat} (hboot : kinit kend mem = some s) {as : List (Action H)}
    (howner : Meets (Pages.step kend) ByOwner [] s as)
    (hrun : Transition.exec (Pages.step kend) [] s as = some (evs, t)) :
    (∀ pa, Guarded (Event.gives pa) (Event.takes pa) (Event.gives pa) evs) ∧
      (∀ c pa, Event.panics c pa ∉ evs) ∧
      (∀ c u, Pages.step kend t (.run c) = some (u, [.exhausted c]) →
        ∀ pa, IsPage kend pa → Owned evs pa ∨ ∃ d, (t.pc d).hand = some pa) ∧
      ((∀ c, t.pc c = .caller) → ∃ l, Chain (fun a => ptr (t.mem a)) (ptr t.freelist) l ∧
        ∀ pa, pa ∈ l ↔ IsPage kend pa ∧ ¬ Owned evs pa) := by
  obtain ⟨⟨l, place, h⟩, hgiven, haccepted⟩ := kept_of_exec hk hboot howner hrun
  refine ⟨hgiven, haccepted, fun c u hu pa hpage => ?_, fun hidle => ⟨l, h.chain, fun pa => ?_⟩⟩
  · have hempty : l = [] := by
      apply h.chain.unique
      rw [chain_nil_iff, ptr_zero_iff]
      exact exhausted_only hu
    cases hplace : place pa with
    | free =>
        have hmem := (h.free pa).mpr ⟨hpage, hplace⟩
        rw [hempty] at hmem
        cases hmem
    | owned => exact .inl ((h.owned pa).mpr ⟨hpage, hplace⟩)
    | hand d => exact .inr ⟨d, (h.hand d pa).mpr ⟨hpage, hplace⟩⟩
  · rw [h.free, h.owned]
    refine and_congr_right fun hpage => ?_
    cases hplace : place pa with
    | free => simp [hpage]
    | owned => simp [hpage]
    | hand d =>
        have hhand := (h.hand d pa).mpr ⟨hpage, hplace⟩
        rw [hidle d] at hhand
        cases hhand

/-- The first of two callers. -/
def caller0 : Fin 2 := ⟨0, Nat.two_pos⟩

/-- The second one. -/
def caller1 : Fin 2 := ⟨1, Nat.one_lt_two⟩

/-- Two callers and two pages: the second caller frees what the first one got, while the first one allocates. -/
def busy : List (Action (Fin 2)) :=
  .kalloc caller0 :: List.replicate 3 (.run caller0) ++ [.kalloc caller1, .run caller1, .run caller0, .run caller0] ++
    List.replicate 5 (.run caller1) ++ .write caller1 (phystop - 2 * pgsize + 8) 7 :: .kalloc caller0 ::
    List.replicate 4 (.run caller0) ++ [.kalloc caller0, .kfree caller1 (phystop - pgsize), .run caller1, .run caller0,
    .run caller1] ++ List.replicate 3 (.run caller0) ++ List.replicate 4 (.run caller1)

/-- Two callers share two pages: no page is given out twice, and both find none left. -/
theorem kalloc_owned_busy : ∃ s evs t, kinit (phystop - 2 * pgsize) (fun _ => 0) = some s ∧
    Transition.exec (Pages.step (phystop - 2 * pgsize)) [] s busy = some (evs, t) ∧
    evs = [.allocated caller0 (phystop - pgsize), .allocated caller1 (phystop - 2 * pgsize), .exhausted caller0,
      .freed caller1 (phystop - pgsize), .exhausted caller0] ∧
    (∀ pa, Guarded (Event.gives pa) (Event.takes pa) (Event.gives pa) evs) ∧
      (∀ c pa, Event.panics c pa ∉ evs) ∧
      (∀ c u, Pages.step (phystop - 2 * pgsize) t (.run c) = some (u, [.exhausted c]) →
        ∀ pa, IsPage (phystop - 2 * pgsize) pa → Owned evs pa ∨ ∃ d, (t.pc d).hand = some pa) ∧
      ((∀ c, t.pc c = .caller) → ∃ l, Chain (fun a => ptr (t.mem a)) (ptr t.freelist) l ∧
        ∀ pa, pa ∈ l ↔ IsPage (phystop - 2 * pgsize) pa ∧ ¬ Owned evs pa) := by
  have hk : 0 < phystop - 2 * pgsize := by decide
  have hevents : ((kinit (phystop - 2 * pgsize) (fun _ => 0)).bind fun s =>
      if Meets (Pages.step (phystop - 2 * pgsize)) ByOwner [] s busy then
        (Transition.exec (Pages.step (phystop - 2 * pgsize)) [] s busy).map Prod.fst else none) =
      some [.allocated caller0 (phystop - pgsize), .allocated caller1 (phystop - 2 * pgsize), .exhausted caller0,
        .freed caller1 (phystop - pgsize), .exhausted caller0] := by
    decide +kernel
  obtain ⟨s, hboot, hevents⟩ := Option.bind_eq_some_iff.mp hevents
  split_ifs at hevents with howner
  obtain ⟨⟨evs, t⟩, hrun, heq⟩ := Option.map_eq_some_iff.mp hevents
  exact ⟨s, evs, t, hboot, hrun, heq, kalloc_owned hk hboot howner hrun⟩

/-- The action writes into the page, or frees it. -/
def Action.touches (pa : Nat) : Action H → Bool
  | .kfree _ q => q = pa
  | .write _ a _ => pageOf a = pa
  | _ => false

/-- A step that does not touch an allocated page leaves its words. -/
theorem Shared.keeps (h : Shared kend evs s l place) {a : Action H} {new : List (Event H)} {pa : Nat}
    (howned : Owned evs pa) (ha : a.touches pa = false) (hs : Pages.step kend s a = some (t, new)) :
    Owned (evs ++ new) pa ∧ ∀ w, pageOf w = pa → t.mem w = s.mem w := by
  obtain ⟨hpage, hplace⟩ := (h.owned pa).mp howned
  -- a page in a hand is another page
  have hother {c : H} {q : Nat} (hq : (s.pc c).hand = some q) : IsPage kend q ∧ q ≠ pa := by
    obtain ⟨hqpage, hqplace⟩ := (h.hand c q).mp hq
    refine ⟨hqpage, ?_⟩
    rintro rfl
    rw [hplace] at hqplace
    cases hqplace
  have hsame : Owned (evs ++ []) pa := by rwa [List.append_nil]
  unfold Pages.step at hs
  cases a with
  | kalloc c =>
      dsimp only at hs
      split_ifs at hs with hpc
      cases hs
      exact ⟨hsame, fun w _ => rfl⟩
  | kfree c q =>
      have hne : ¬ pa = q := fun heq => of_decide_eq_false ha heq.symm
      dsimp only at hs
      split_ifs at hs with hpc hpageq
      · cases hs
        refine ⟨?_, fun w _ => rfl⟩
        rw [owned_freed, if_neg hne]
        exact howned
      · cases hs
        exact ⟨(owned_append (by simp [Event.gives, Event.takes]) pa).mpr howned, fun w _ => rfl⟩
  | write c a v =>
      dsimp only at hs
      split_ifs at hs with hpc
      cases hs
      refine ⟨hsame, fun w hw => Function.update_of_ne ?_ _ _⟩
      rintro rfl
      exact of_decide_eq_false ha hw
  | run c =>
      have hfill {q w : Nat} (hq : IsPage kend q ∧ q ≠ pa) (hw : pageOf w = pa) (byte : Nat) :
          fill s.mem q byte w = s.mem w := by
        rw [fill_eq hq.1, hw, if_neg hq.2.symm]
      replace hs : Pages.next s c = some (t, new) := hs
      unfold Pages.next at hs
      cases hpc : s.pc c with
      | freeFill q =>
          rw [hpc] at hs
          cases hs
          exact ⟨hsame, fun w hw => hfill (hother (by rw [hpc]; rfl)) hw 1⟩
      | freeNext q =>
          obtain ⟨hqpage, hne⟩ := hother (c := c) (q := q) (by rw [hpc]; rfl)
          rw [hpc] at hs
          cases hs
          refine ⟨hsame, fun w hw => Function.update_of_ne ?_ _ _⟩
          rintro rfl
          exact hne (hqpage.pageOf_self.symm.trans hw)
      | allocFill r =>
          rw [hpc] at hs
          dsimp only at hs
          split_ifs at hs with hnull
          · cases hs
            exact ⟨hsame, fun w _ => rfl⟩
          · cases hs
            refine ⟨?_, fun w hw => hfill (hother (by rw [hpc]; exact ptr_eq_some.mpr ⟨rfl, hnull⟩)) hw 5⟩
            rw [owned_allocated]
            split_ifs
            exact howned
      | allocHead =>
          rw [hpc] at hs
          dsimp only at hs
          split_ifs at hs
          · cases hs
            exact ⟨(owned_append (by simp [Event.gives, Event.takes]) pa).mpr howned, fun w _ => rfl⟩
          · cases hs
            exact ⟨hsame, fun w _ => rfl⟩
      | freeAcquire _ | allocAcquire =>
          rw [hpc] at hs
          dsimp only at hs
          split_ifs at hs <;> cases hs <;> exact ⟨hsame, fun w _ => rfl⟩
      | caller | panicked =>
          rw [hpc] at hs
          cases hs
      | _ =>
          rw [hpc] at hs
          cases hs
          exact ⟨hsame, fun w _ => rfl⟩

/-- **Allocated pages keep their contents.** In a disciplined run from `kinit` on, the words of an allocated page
are the same after any steps of any callers that do not write into it or free it. -/
theorem owned_kept (hk : 0 < kend) {mem : Nat → Nat} (hboot : kinit kend mem = some s) {as bs : List (Action H)}
    {u : State H} {pa : Nat} (howner : Meets (Pages.step kend) ByOwner [] s (as ++ bs))
    (hrun : Transition.exec (Pages.step kend) [] s as = some (evs, t)) (howned : Owned evs pa)
    (hbs : ∀ a ∈ bs, a.touches pa = false) (hmore : Transition.exec (Pages.step kend) evs t bs = some (evs', u)) :
    Owned evs' pa ∧ ∀ w, pageOf w = pa → u.mem w = t.mem w := by
  have hkept := kept_of_exec hk hboot (howner.before hrun) hrun
  have hmeets := (howner.after hrun).and (meets_of_forall_mem hbs)
  suffices hlast : Kept kend evs' u ∧ Owned evs' pa ∧ ∀ w, pageOf w = pa → u.mem w = t.mem w from hlast.2
  refine exec_invariant
    (I := fun evs v => Kept kend evs v ∧ Owned evs pa ∧ ∀ w, pageOf w = pa → v.mem w = t.mem w) ?_
    ⟨hkept, howned, fun w _ => rfl⟩ hmeets hmore
  rintro evs v a w new ⟨hkept, howned, hmem⟩ ⟨hC, ha⟩ hs
  obtain ⟨l, place, hshared⟩ := hkept.shared
  obtain ⟨howned', hmem'⟩ := hshared.keeps howned ha hs
  exact ⟨hkept.step hk hC hs, howned', fun x hx => (hmem' x hx).trans (hmem x hx)⟩

/-- The first page stays with its owner, word for word, while the other caller works. -/
theorem owned_kept_busy : ∃ s evs t evs' u, kinit (phystop - 2 * pgsize) (fun _ => 0) = some s ∧
    Transition.exec (Pages.step (phystop - 2 * pgsize)) [] s (busy.take 9) = some (evs, t) ∧
    Transition.exec (Pages.step (phystop - 2 * pgsize)) evs t ((busy.drop 9).take 11) = some (evs', u) ∧
    Owned evs' (phystop - pgsize) ∧ ∀ w, pageOf w = phystop - pgsize → u.mem w = t.mem w := by
  have hk : 0 < phystop - 2 * pgsize := by decide
  have hruns : ((kinit (phystop - 2 * pgsize) (fun _ => 0)).bind fun s =>
      if Meets (Pages.step (phystop - 2 * pgsize)) ByOwner [] s (busy.take 9 ++ (busy.drop 9).take 11) then
        (Transition.exec (Pages.step (phystop - 2 * pgsize)) [] s (busy.take 9)).bind fun r =>
          if Owned r.1 (phystop - pgsize) then
            (Transition.exec (Pages.step (phystop - 2 * pgsize)) r.1 r.2 ((busy.drop 9).take 11)).map Prod.fst else none
      else none).isSome = true := by
    decide +kernel
  obtain ⟨evs', hruns⟩ := Option.isSome_iff_exists.mp hruns
  obtain ⟨s, hboot, hruns⟩ := Option.bind_eq_some_iff.mp hruns
  split_ifs at hruns with howner
  obtain ⟨⟨evs, t⟩, hrun, hruns⟩ := Option.bind_eq_some_iff.mp hruns
  dsimp only at hruns
  split_ifs at hruns with howned
  obtain ⟨⟨evs', u⟩, hmore, -⟩ := Option.map_eq_some_iff.mp hruns
  exact ⟨s, evs, t, evs', u, hboot, hrun, hmore,
    owned_kept hk hboot howner hrun howned (by decide +kernel) hmore⟩

end Steps

end Pages

end OsLabs.Kernel
