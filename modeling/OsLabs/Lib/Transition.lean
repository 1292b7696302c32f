import Mathlib.Data.List.Induction

/-! # Runs of a system that steps and emits events

A system is a partial function `step : σ → α → Option (σ × List ε)`: from a state, an action is either
blocked (`none`) or leads to a state and emits events. A run is a list of actions executed from a
state; the events emitted so far are its history.

* `exec step evs s as` executes the actions `as` from the state `s` with the history `evs`;
* `Meets step C evs s as` says that each action of the run is taken in a history and a state that
  satisfy the step condition `C`;
* `exec_invariant`: what one step meeting the condition preserves holds at the end of a run;
* `meets_congr`: two conditions that agree under an invariant of the first are met by the same runs;
* `meets_of_prefixClosed`: a property of histories that no continuation repairs, and that fails as
  soon as a step does not meet the condition, forces every step of a run to meet it;
* `Always step P s as`: `P` holds in every state of the run; `always_iff_meets`: it does exactly when
  the steps meet a condition, if that is so for each step;
* `Throughout step P evs s as`: `P` holds of the history and the state after every part of the run;
  `throughout_iff_meets` is the same rule for it;
* `since p q evs`: some event of `evs` satisfies `p` and no later one satisfies `q`; `Guarded p q r`:
  no event satisfies `r` while `since p q` holds. -/

namespace OsLabs

namespace Transition

variable {σ α ε : Type} (step : σ → α → Option (σ × List ε))

/-! ## Runs -/

/-- Execute the actions in order; `none` when one of them is blocked. -/
def exec : List ε → σ → List α → Option (List ε × σ)
  | evs, s, [] => some (evs, s)
  | evs, s, a :: as =>
      match step s a with
      | none => none
      | some (t, new) => exec (evs ++ new) t as

/-- Every action of the run is taken in a history and a state that satisfy `C`. -/
def Meets (C : List ε → σ → α → Prop) : List ε → σ → List α → Prop
  | _, _, [] => True
  | evs, s, a :: as =>
      C evs s a ∧
        match step s a with
        | none => True
        | some (t, new) => Meets C (evs ++ new) t as

/-- A decidable step condition is decided along a run. -/
def decideMeets (C : List ε → σ → α → Prop) [∀ evs s a, Decidable (C evs s a)] :
    (evs : List ε) → (s : σ) → (as : List α) → Decidable (Meets step C evs s as)
  | _, _, [] => isTrue trivial
  | evs, s, a :: as =>
      let rest : Decidable (match step s a with
          | none => True
          | some (t, new) => Meets step C (evs ++ new) t as) :=
        match step s a with
        | none => isTrue trivial
        | some (t, new) => decideMeets C (evs ++ new) t as
      @instDecidableAnd _ _ _ rest

instance (C : List ε → σ → α → Prop) [∀ evs s a, Decidable (C evs s a)] (evs : List ε) (s : σ)
    (as : List α) : Decidable (Meets step C evs s as) :=
  decideMeets step C evs s as

variable {step}

/-- The empty run stays where it is. -/
@[simp] theorem exec_nil (evs : List ε) (s : σ) :
    exec step evs s ([] : List α) = some (evs, s) := rfl

/-- A run is its first step and the rest of the run. -/
theorem exec_cons_eq_some {evs evs' : List ε} {s t : σ} {a : α} {as : List α} :
    exec step evs s (a :: as) = some (evs', t) ↔
      ∃ u new, step s a = some (u, new) ∧ exec step (evs ++ new) u as = some (evs', t) := by
  simp only [exec]
  cases h : step s a with
  | none => simp
  | some r =>
      obtain ⟨u, new⟩ := r
      simp

/-- The first step of a run that meets the condition meets it. -/
theorem Meets.head {C : List ε → σ → α → Prop} {evs : List ε} {s : σ} {a : α} {as : List α}
    (h : Meets step C evs s (a :: as)) : C evs s a := h.1

/-- The rest of a run that meets the condition meets it. -/
theorem Meets.tail {C : List ε → σ → α → Prop} {evs new : List ε} {s u : σ} {a : α} {as : List α}
    (h : Meets step C evs s (a :: as)) (hs : step s a = some (u, new)) :
    Meets step C (evs ++ new) u as := by
  have h₂ := h.2
  rwa [hs] at h₂

/-- A first step and a rest that meet the condition make a run that does. -/
theorem Meets.cons {C : List ε → σ → α → Prop} {evs new : List ε} {s u : σ} {a : α} {as : List α}
    (hc : C evs s a) (hs : step s a = some (u, new)) (h : Meets step C (evs ++ new) u as) :
    Meets step C evs s (a :: as) := by
  refine ⟨hc, ?_⟩
  rw [hs]
  exact h

/-- What is left of a run meets the condition, too. -/
theorem Meets.after {C : List ε → σ → α → Prop} {evs evs' : List ε} {s t : σ} {as bs : List α}
    (h : Meets step C evs s (as ++ bs)) (hrun : exec step evs s as = some (evs', t)) :
    Meets step C evs' t bs := by
  induction as generalizing evs s with
  | nil =>
      obtain ⟨rfl, rfl⟩ : evs = evs' ∧ s = t := by simpa using hrun
      exact h
  | cons a as ih =>
      obtain ⟨u, new, hs, hrest⟩ := exec_cons_eq_some.mp hrun
      exact ih (h.tail hs) hrest

/-- The first part of a run meets the condition that the run meets. -/
theorem Meets.before {C : List ε → σ → α → Prop} {evs evs' : List ε} {s t : σ} {as bs : List α}
    (h : Meets step C evs s (as ++ bs)) (hrun : exec step evs s as = some (evs', t)) :
    Meets step C evs s as := by
  induction as generalizing evs s with
  | nil => trivial
  | cons a as ih =>
      obtain ⟨u, new, hs, hrest⟩ := exec_cons_eq_some.mp hrun
      exact Meets.cons h.head hs (ih (h.tail hs) hrest)

/-- A run that meets two conditions meets both at every step. -/
theorem Meets.and {C D : List ε → σ → α → Prop} {evs : List ε} {s : σ} {as : List α}
    (h : Meets step C evs s as) (h' : Meets step D evs s as) :
    Meets step (fun evs s a => C evs s a ∧ D evs s a) evs s as := by
  induction as generalizing evs s with
  | nil => trivial
  | cons a as ih =>
      refine ⟨⟨h.head, h'.head⟩, ?_⟩
      cases hs : step s a with
      | none => trivial
      | some r => exact ih (h.tail hs) (h'.tail hs)

/-- A weaker condition is met too. -/
theorem Meets.mono {C D : List ε → σ → α → Prop} (hCD : ∀ evs s a, C evs s a → D evs s a)
    {evs : List ε} {s : σ} {as : List α} (h : Meets step C evs s as) : Meets step D evs s as := by
  induction as generalizing evs s with
  | nil => trivial
  | cons a as ih =>
      refine ⟨hCD evs s a h.head, ?_⟩
      cases hs : step s a with
      | none => trivial
      | some r => exact ih (h.tail hs)

/-- A condition on the actions alone. -/
theorem meets_of_forall_mem {Q : α → Prop} {evs : List ε} {s : σ} {as : List α}
    (h : ∀ a ∈ as, Q a) : Meets step (fun _ _ a => Q a) evs s as := by
  induction as generalizing evs s with
  | nil => trivial
  | cons a as ih =>
      refine ⟨h a List.mem_cons_self, ?_⟩
      split
      · trivial
      · exact ih fun b hb => h b (List.mem_cons_of_mem a hb)

/-- Histories only grow. -/
theorem exec_history {evs evs' : List ε} {s t : σ} {as : List α}
    (h : exec step evs s as = some (evs', t)) : ∃ more, evs' = evs ++ more := by
  induction as generalizing evs s with
  | nil =>
      obtain ⟨rfl, rfl⟩ : evs = evs' ∧ s = t := by simpa using h
      exact ⟨[], (List.append_nil _).symm⟩
  | cons a as ih =>
      obtain ⟨u, new, -, hrest⟩ := exec_cons_eq_some.mp h
      obtain ⟨more, hmore⟩ := ih hrest
      exact ⟨new ++ more, by rw [hmore, List.append_assoc]⟩

/-- **The invariant rule.** What every step that meets the condition preserves holds at the end of
every run whose steps meet it. -/
theorem exec_invariant {C : List ε → σ → α → Prop} {I : List ε → σ → Prop}
    (hstep : ∀ evs s a u new, I evs s → C evs s a → step s a = some (u, new) → I (evs ++ new) u)
    {evs evs' : List ε} {s t : σ} {as : List α} (h₀ : I evs s) (hC : Meets step C evs s as)
    (h : exec step evs s as = some (evs', t)) : I evs' t := by
  induction as generalizing evs s with
  | nil =>
      obtain ⟨rfl, rfl⟩ : evs = evs' ∧ s = t := by simpa using h
      exact h₀
  | cons a as ih =>
      obtain ⟨u, new, hs, hrest⟩ := exec_cons_eq_some.mp h
      exact ih (hstep _ _ _ _ _ h₀ hC.head hs) (hC.tail hs) hrest

/-- **The converse rule.** If a property of histories is closed under prefixes and fails at the first
step that does not meet the condition, then a run whose history has it meets the condition. -/
theorem meets_of_prefixClosed {C : List ε → σ → α → Prop} {I : List ε → σ → Prop} {P : List ε → Prop}
    (hearlier : ∀ evs new, P (evs ++ new) → P evs)
    (hstep : ∀ evs s a u new, I evs s → C evs s a → step s a = some (u, new) → I (evs ++ new) u)
    (hbad : ∀ evs s a u new, I evs s → step s a = some (u, new) → P (evs ++ new) → C evs s a)
    {evs evs' : List ε} {s t : σ} {as : List α} (h₀ : I evs s)
    (h : exec step evs s as = some (evs', t)) (hP : P evs') : Meets step C evs s as := by
  induction as generalizing evs s with
  | nil => trivial
  | cons a as ih =>
      obtain ⟨u, new, hs, hrest⟩ := exec_cons_eq_some.mp h
      obtain ⟨more, rfl⟩ := exec_history hrest
      have hc : C evs s a := hbad _ _ _ _ _ h₀ hs (hearlier _ _ hP)
      exact Meets.cons hc hs (ih (hstep _ _ _ _ _ h₀ hc hs) hrest)

/-- **The rule for equivalent conditions.** Two step conditions that agree wherever an invariant of the
first one holds are met by the same runs. -/
theorem meets_congr {C D : List ε → σ → α → Prop} {I : List ε → σ → Prop}
    (hstep : ∀ evs s a u new, I evs s → C evs s a → step s a = some (u, new) → I (evs ++ new) u)
    (hiff : ∀ evs s a, I evs s → (C evs s a ↔ D evs s a)) {evs : List ε} {s : σ} {as : List α}
    (h₀ : I evs s) : Meets step C evs s as ↔ Meets step D evs s as := by
  induction as generalizing evs s with
  | nil => exact Iff.rfl
  | cons a as ih =>
      have htail (hC : C evs s a) : (match step s a with
          | none => True
          | some (t, new) => Meets step C (evs ++ new) t as) ↔ (match step s a with
          | none => True
          | some (t, new) => Meets step D (evs ++ new) t as) := by
        cases hs : step s a with
        | none => exact Iff.rfl
        | some r => exact ih (hstep evs s a r.1 r.2 h₀ hC hs)
      constructor
      · rintro ⟨hC, hrest⟩
        exact ⟨(hiff evs s a h₀).mp hC, (htail hC).mp hrest⟩
      · rintro ⟨hD, hrest⟩
        have hC := (hiff evs s a h₀).mpr hD
        exact ⟨hC, (htail hC).mpr hrest⟩

/-- `P` holds in every state that the run goes through. -/
def Always (step : σ → α → Option (σ × List ε)) (P : σ → Prop) : σ → List α → Prop
  | s, [] => P s
  | s, a :: as =>
      P s ∧
        match step s a with
        | none => True
        | some (t, _) => Always step P t as

/-- A decidable property of all states is decided along a run. -/
def decideAlways (P : σ → Prop) [DecidablePred P] :
    (s : σ) → (as : List α) → Decidable (Always step P s as)
  | s, [] => inferInstanceAs (Decidable (P s))
  | s, a :: as =>
      let rest : Decidable (match step s a with
          | none => True
          | some (t, _) => Always step P t as) :=
        match step s a with
        | none => isTrue trivial
        | some (t, _) => decideAlways P t as
      @instDecidableAnd _ _ _ rest

instance (P : σ → Prop) [DecidablePred P] (s : σ) (as : List α) : Decidable (Always step P s as) :=
  decideAlways P s as

/-- A property of all states holds at the start. -/
theorem Always.head {P : σ → Prop} {s : σ} {as : List α} (h : Always step P s as) : P s := by
  cases as with
  | nil => exact h
  | cons a as => exact h.1

/-- A property of all states holds in those after the first step. -/
theorem Always.tail {P : σ → Prop} {s t : σ} {a : α} {as : List α} {new : List ε}
    (h : Always step P s (a :: as)) (hs : step s a = some (t, new)) : Always step P t as := by
  have h₂ := h.2
  rwa [hs] at h₂

/-- **The rule for properties of all states.** If a step from a state with `P` leads to a state with
`P` exactly when it meets the condition, then a run keeps `P` exactly when its steps meet it. -/
theorem always_iff_meets {I P : σ → Prop} {C : σ → α → Prop}
    (hI : ∀ s a t new, I s → step s a = some (t, new) → I t)
    (hstep : ∀ s a t new, I s → P s → step s a = some (t, new) → (P t ↔ C s a))
    {evs evs' : List ε} {s t : σ} {as : List α} (h₀ : I s) (hP : P s)
    (h : exec step evs s as = some (evs', t)) :
    Always step P s as ↔ Meets step (fun _ s a => C s a) evs s as := by
  induction as generalizing evs s with
  | nil => exact ⟨fun _ => trivial, fun _ => hP⟩
  | cons a as ih =>
      obtain ⟨u, new, hs, hrest⟩ := exec_cons_eq_some.mp h
      have hiff := hstep s a u new h₀ hP hs
      constructor
      · intro ha
        have htail : Always step P u as := by
          have h₂ := ha.2
          rwa [hs] at h₂
        have hu : P u := by
          cases as with
          | nil => exact htail
          | cons b bs => exact htail.1
        exact Meets.cons (hiff.mp hu) hs ((ih (hI s a u new h₀ hs) hu hrest).mp htail)
      · intro hm
        have hu : P u := hiff.mpr hm.head
        refine ⟨hP, ?_⟩
        rw [hs]
        exact (ih (hI s a u new h₀ hs) hu hrest).mpr (hm.tail hs)

/-- `P` holds of the history and the state after every part of the run. -/
def Throughout (step : σ → α → Option (σ × List ε)) (P : List ε → σ → Prop) (evs : List ε) (s : σ)
    (as : List α) : Prop :=
  ∀ done todo evs' t, as = done ++ todo → exec step evs s done = some (evs', t) → P evs' t

/-- After every part of a run is before its first step or after a part of the rest. -/
theorem throughout_cons {P : List ε → σ → Prop} {evs new : List ε} {s u : σ} {a : α} {as : List α}
    (hs : step s a = some (u, new)) :
    Throughout step P evs s (a :: as) ↔ P evs s ∧ Throughout step P (evs ++ new) u as := by
  constructor
  · intro h
    refine ⟨h [] (a :: as) evs s rfl rfl, fun done todo evs' t heq hrun => ?_⟩
    refine h (a :: done) todo evs' t (by rw [heq, List.cons_append]) ?_
    exact exec_cons_eq_some.mpr ⟨u, new, hs, hrun⟩
  · rintro ⟨hP, hrest⟩ done todo evs' t heq hrun
    cases done with
    | nil =>
        obtain ⟨rfl, rfl⟩ : evs = evs' ∧ s = t := by simpa using hrun
        exact hP
    | cons b done =>
        obtain ⟨rfl, heq'⟩ := List.cons.inj heq
        obtain ⟨u', new', hs', hrun'⟩ := exec_cons_eq_some.mp hrun
        rw [hs] at hs'
        cases hs'
        exact hrest done todo evs' t heq' hrun'

/-- **The rule for properties of all histories and states.** If steps that meet `N` and `C` keep the
invariant, and one that meets `N` leads from a state with `P` to one with `P` exactly when it also meets
`C`, then a run whose steps meet `N` has `P` throughout exactly when they meet `C`. -/
theorem throughout_iff_meets {I P : List ε → σ → Prop} {N C : List ε → σ → α → Prop}
    (hI : ∀ evs s a t new, I evs s → N evs s a → C evs s a → step s a = some (t, new) →
      I (evs ++ new) t)
    (hstep : ∀ evs s a t new, I evs s → N evs s a → P evs s → step s a = some (t, new) →
      (P (evs ++ new) t ↔ C evs s a))
    {evs evs' : List ε} {s t : σ} {as : List α} (h₀ : I evs s) (hP : P evs s)
    (hN : Meets step N evs s as) (h : exec step evs s as = some (evs', t)) :
    Throughout step P evs s as ↔ Meets step C evs s as := by
  induction as generalizing evs s with
  | nil =>
      refine ⟨fun _ => trivial, fun _ done todo evs₁ t₁ heq hrun => ?_⟩
      obtain ⟨rfl, rfl⟩ := List.nil_eq_append_iff.mp heq
      obtain ⟨rfl, rfl⟩ : evs = evs₁ ∧ s = t₁ := by simpa using hrun
      exact hP
  | cons a as ih =>
      obtain ⟨u, new, hs, hrest⟩ := exec_cons_eq_some.mp h
      have hiff := hstep evs s a u new h₀ hN.head hP hs
      have hu (hC : C evs s a) : I (evs ++ new) u := hI evs s a u new h₀ hN.head hC hs
      rw [throughout_cons hs]
      constructor
      · rintro ⟨-, htail⟩
        have hPu : P (evs ++ new) u := htail [] as (evs ++ new) u rfl rfl
        have hC := hiff.mp hPu
        exact Meets.cons hC hs ((ih (hu hC) hPu (hN.tail hs) hrest).mp htail)
      · intro hm
        have hPu := hiff.mpr hm.head
        exact ⟨hP, (ih (hu hm.head) hPu (hN.tail hs) hrest).mpr (hm.tail hs)⟩

/-! ## Events since -/

/-- Some event satisfies `p` and no event after it satisfies `q`. -/
def since (p q : ε → Bool) (evs : List ε) : Bool :=
  evs.foldl (fun b e => p e || (b && !q e)) false

/-- No event has occurred yet. -/
@[simp] theorem since_nil (p q : ε → Bool) : since p q [] = false := rfl

/-- One more event: it satisfies `p`, or it leaves an earlier one in force. -/
@[simp] theorem since_concat (p q : ε → Bool) (evs : List ε) (e : ε) :
    since p q (evs ++ [e]) = (p e || (since p q evs && !q e)) := by
  simp only [since, List.foldl_append, List.foldl_cons, List.foldl_nil]

/-- Two more events. -/
@[simp] theorem since_pair (p q : ε → Bool) (evs : List ε) (e e' : ε) :
    since p q (evs ++ [e, e']) =
      (p e' || ((p e || (since p q evs && !q e)) && !q e')) := by
  rw [← since_concat p q evs e, ← since_concat p q (evs ++ [e]) e', List.append_assoc]
  rfl

/-- Events that satisfy neither predicate. -/
theorem since_append_of_none {p q : ε → Bool} {evs new : List ε}
    (h : ∀ e ∈ new, p e = false ∧ q e = false) : since p q (evs ++ new) = since p q evs := by
  induction new generalizing evs with
  | nil => rw [List.append_nil]
  | cons e new ih =>
      obtain ⟨hp, hq⟩ := h e List.mem_cons_self
      rw [← List.singleton_append, ← List.append_assoc,
        ih fun x hx => h x (List.mem_cons_of_mem e hx), since_concat, hp, hq]
      simp

/-- Reading `since` as a decomposition of the history. -/
theorem since_of_append {p q : ε → Bool} (pre : List ε) {mid : List ε} {e : ε} (hp : p e = true)
    (hq : ∀ x ∈ mid, q x = false) : since p q (pre ++ e :: mid) = true := by
  induction mid using List.reverseRecOn with
  | nil => rw [since_concat, hp, Bool.true_or]
  | append_singleton mid x ih =>
      have hmid : since p q (pre ++ e :: mid) = true :=
        ih fun y hy => hq y (List.mem_append_left _ hy)
      have hx : q x = false := hq x (List.mem_append_right _ (List.mem_singleton_self x))
      rw [← List.cons_append, ← List.append_assoc, since_concat, hmid, hx]
      simp

/-- `since` is exactly such a decomposition. -/
theorem since_eq_true_iff {p q : ε → Bool} {evs : List ε} :
    since p q evs = true ↔
      ∃ pre x mid, evs = pre ++ x :: mid ∧ p x = true ∧ ∀ y ∈ mid, q y = false := by
  constructor
  · intro h
    induction evs using List.reverseRecOn with
    | nil => cases h
    | append_singleton evs e ih =>
        rw [since_concat, Bool.or_eq_true, Bool.and_eq_true] at h
        obtain hp | ⟨hs, hq⟩ := h
        · exact ⟨evs, e, [], rfl, hp, by simp⟩
        · obtain ⟨pre, x, mid, rfl, hx, hmid⟩ := ih hs
          refine ⟨pre, x, mid ++ [e], by simp, hx, fun y hy => ?_⟩
          rw [List.mem_append, List.mem_singleton] at hy
          obtain hy | rfl := hy
          · exact hmid y hy
          · simpa using hq
  · rintro ⟨pre, x, mid, rfl, hx, hmid⟩
    exact since_of_append _ hx hmid

/-- Of two kinds of events, only the kind of the last one is in force. -/
theorem since_exclusive {p q : ε → Bool} (hpq : ∀ e, p e = true → q e = false) {evs : List ε}
    (h : since p q evs = true) : since q p evs = false := by
  induction evs using List.reverseRecOn with
  | nil => rfl
  | append_singleton evs e ih =>
      rw [since_concat, Bool.or_eq_true, Bool.and_eq_true] at h
      rw [since_concat]
      obtain hp | ⟨hs, hq⟩ := h
      · rw [hpq e hp, hp]
        simp
      · rw [ih hs]
        simpa using hq

/-- Between an event that satisfies `p` and a later one that satisfies `r`, some event satisfies
`q`. -/
def Guarded (p q r : ε → Bool) (evs : List ε) : Prop :=
  ∀ pre x mid y post, evs = pre ++ x :: (mid ++ y :: post) → p x = true → r y = true →
    ∃ z ∈ mid, q z = true

/-- The empty history is guarded. -/
theorem guarded_nil (p q r : ε → Bool) : Guarded p q r [] := by
  intro pre x mid y post h
  have hlen := congrArg List.length h
  simp only [List.length_nil, List.length_append, List.length_cons] at hlen
  omega

/-- One more event keeps a history guarded if it does not satisfy `r` while `p` is in force. -/
theorem Guarded.concat {p q r : ε → Bool} {evs : List ε} (h : Guarded p q r evs) {e : ε}
    (he : r e = true → since p q evs = false) : Guarded p q r (evs ++ [e]) := by
  intro pre x mid y post heq hx hy
  cases post using List.reverseRecOn with
  | nil =>
      have heq' : evs ++ [e] = (pre ++ x :: mid) ++ [y] := by rw [heq]; simp
      obtain ⟨rfl, hey⟩ := List.append_inj' heq' rfl
      obtain rfl : e = y := List.cons.inj hey |>.1
      by_contra hno
      have hsince := since_of_append pre hx fun z hz => by
        by_contra hz'
        exact hno ⟨z, hz, by simpa using hz'⟩
      rw [he hy] at hsince
      cases hsince
  | append_singleton post z =>
      have heq' : evs ++ [e] = (pre ++ x :: (mid ++ y :: post)) ++ [z] := by rw [heq]; simp
      obtain ⟨hevs, -⟩ := List.append_inj' heq' rfl
      exact h pre x mid y post hevs hx hy

/-- Events that do not satisfy `r` keep a history guarded. -/
theorem Guarded.append {p q r : ε → Bool} {evs : List ε} (h : Guarded p q r evs) {new : List ε}
    (hnew : ∀ e ∈ new, r e = false) : Guarded p q r (evs ++ new) := by
  induction new generalizing evs with
  | nil => rwa [List.append_nil]
  | cons e new ih =>
      have hcat : Guarded p q r (evs ++ [e]) := h.concat fun he => by
        rw [hnew e List.mem_cons_self] at he
        cases he
      rw [← List.singleton_append, ← List.append_assoc]
      exact ih hcat fun x hx => hnew x (List.mem_cons_of_mem e hx)

/-- A stretch of the history without an event that satisfies `q` has at most one that satisfies
`p`. -/
def Once (p q : ε → Bool) (evs : List ε) : Prop :=
  ∀ mid, mid <:+: evs → (∀ e ∈ mid, q e = false) → mid.countP p ≤ 1

/-- The empty history. -/
theorem once_nil (p q : ε → Bool) : Once p q [] := by
  intro mid hmid _
  rw [List.infix_nil.mp hmid]
  exact Nat.zero_le 1

/-- Earlier histories. -/
theorem Once.of_append {p q : ε → Bool} {evs new : List ε} (h : Once p q (evs ++ new)) :
    Once p q evs :=
  fun mid hmid => h mid (hmid.trans (List.infix_append' [] evs new))

/-- A second event that satisfies `p` needs one in between that satisfies `q`. -/
theorem Once.concat {p q : ε → Bool} {evs : List ε} (h : Once p q evs) {e : ε}
    (he : p e = true → since p q evs = false) : Once p q (evs ++ [e]) := by
  intro mid hmid hq
  obtain ⟨pre, post, heq⟩ := hmid
  cases post using List.reverseRecOn with
  | append_singleton post z =>
      rw [← List.append_assoc] at heq
      obtain ⟨hevs, -⟩ := List.append_inj' heq rfl
      exact h mid ⟨pre, post, hevs⟩ hq
  | nil =>
      cases mid using List.reverseRecOn with
      | nil => exact Nat.zero_le 1
      | append_singleton mid z =>
          rw [List.append_nil, ← List.append_assoc] at heq
          obtain ⟨hevs, hz⟩ := List.append_inj' heq rfl
          obtain rfl : z = e := (List.cons.inj hz).1
          have hmid : ∀ y ∈ mid, q y = false := fun y hy => hq y (List.mem_append_left _ hy)
          rw [List.countP_append]
          by_cases hp : p z = true
          · -- the event is a second one only if an earlier one is still in force
            have hnone : mid.countP p = 0 := by
              rw [List.countP_eq_zero]
              intro x hx hpx
              obtain ⟨s, t, rfl⟩ := List.append_of_mem hx
              have hsince : since p q evs = true := by
                rw [← hevs, ← List.append_assoc]
                exact since_of_append _ hpx fun y hy => hmid y (by simp [hy])
              rw [he hp] at hsince
              cases hsince
            rw [hnone, Nat.zero_add]
            exact List.countP_le_length
          · rw [List.countP_cons_of_neg hp]
            exact h mid ⟨pre, [], by rw [List.append_nil, hevs]⟩ hmid

/-- Events that do not satisfy `p` change nothing. -/
theorem Once.append {p q : ε → Bool} {evs : List ε} (h : Once p q evs) {new : List ε}
    (hnew : ∀ e ∈ new, p e = false) : Once p q (evs ++ new) := by
  induction new generalizing evs with
  | nil => rwa [List.append_nil]
  | cons e new ih =>
      have hcat : Once p q (evs ++ [e]) := h.concat fun he => by
        rw [hnew e List.mem_cons_self] at he
        cases he
      rw [← List.singleton_append, ← List.append_assoc]
      exact ih hcat fun x hx => hnew x (List.mem_cons_of_mem e hx)

/-- In a history where an event that satisfies `p` just occurred, none was in force before it. -/
theorem Once.since_eq_false {p q : ε → Bool} (hpq : ∀ e, p e = true → q e = false) {evs : List ε}
    {e : ε} (h : Once p q (evs ++ [e])) (he : p e = true) : since p q evs = false := by
  by_contra hs
  obtain ⟨pre, x, mid, rfl, hx, hmid⟩ := since_eq_true_iff.mp (eq_true_of_ne_false hs)
  have hcount := h (x :: (mid ++ [e])) ⟨pre, [], by simp⟩ fun y hy => by
    rw [List.mem_cons, List.mem_append, List.mem_singleton] at hy
    obtain rfl | hy | rfl := hy
    · exact hpq _ hx
    · exact hmid y hy
    · exact hpq _ he
  rw [List.countP_cons_of_pos hx, List.countP_append, List.countP_cons_of_pos he] at hcount
  omega

end Transition

end OsLabs
