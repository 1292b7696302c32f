import Mathlib.Order.Defs.Unbundled

/-! # Commands with a state that survives a fault

A command of type `EStateM ε σ α` runs from a state `σ` and either returns a value or stops with a
fault `ε`; in both cases the state reached is kept, so that effects issued before a fault remain
visible. This file collects the rules used to run such commands symbolically and to prove what every
outcome preserves:

* running rules `bind_ok`, `bind_error`, `bind_eq_ok` and the reads of `get`, `modify`, `throw`;
* `Cmd.when`, a conditional command without an alternative;
* `Cmd.final`, the state an outcome ends in;
* `Cmd.Within R m`: from every state, `m` ends (normally or not) in an `R`-related state. It is
  closed under sequencing when `R` is a preorder, which makes frame properties compositional;
* `Cmd.Never e m`: from no state does `m` stop with the fault `e`. It is closed under sequencing;
* `Cmd.Commutes f m`: the change `f` of the state can be made before `m` or after it. It is closed
  under sequencing;
* `Cmd.Ignores put m`: `m` does not read the component of the state that `put` assigns; it may assign
  it. It is closed under sequencing. -/

namespace OsLabs

namespace Cmd

variable {ε σ α β : Type}

/-! ## Running rules -/

/-- A returned value runs without touching the state. -/
@[simp] theorem pure_run (a : α) (s : σ) : (pure a : EStateM ε σ α) s = .ok a s := rfl

/-- Reading the state returns it. -/
@[simp] theorem get_run (s : σ) : (get : EStateM ε σ σ) s = .ok s s := rfl

/-- Replacing the state. -/
@[simp] theorem set_run (t s : σ) : (set t : EStateM ε σ PUnit) s = .ok ⟨⟩ t := rfl

/-- Modifying the state applies the function to it. -/
@[simp] theorem modify_run (f : σ → σ) (s : σ) :
    (modify f : EStateM ε σ PUnit) s = .ok ⟨⟩ (f s) := rfl

/-- A thrown fault keeps the state. -/
@[simp] theorem throw_run (e : ε) (s : σ) : (throw e : EStateM ε σ α) s = .error e s := rfl

/-- Sequencing after a command that returned. -/
theorem bind_ok {x : EStateM ε σ α} {f : α → EStateM ε σ β} {s s' : σ} {a : α}
    (h : x s = .ok a s') : (x >>= f) s = f a s' := by
  show EStateM.bind x f s = f a s'
  rw [EStateM.bind, h]

/-- Sequencing after a command that faulted. -/
theorem bind_error {x : EStateM ε σ α} {f : α → EStateM ε σ β} {s s' : σ} {e : ε}
    (h : x s = .error e s') : (x >>= f) s = .error e s' := by
  show EStateM.bind x f s = .error e s'
  rw [EStateM.bind, h]

/-- Reading the state and going on. -/
@[simp] theorem get_bind (f : σ → EStateM ε σ β) (s : σ) : (get >>= f) s = f s s := rfl

/-- Replacing the state and going on. -/
@[simp] theorem set_bind (t : σ) (f : PUnit → EStateM ε σ β) (s : σ) :
    ((set t : EStateM ε σ PUnit) >>= f) s = f ⟨⟩ t := rfl

/-- Modifying the state and going on. -/
@[simp] theorem modify_bind (g : σ → σ) (f : PUnit → EStateM ε σ β) (s : σ) :
    ((modify g : EStateM ε σ PUnit) >>= f) s = f ⟨⟩ (g s) := rfl

/-- Going on after a returned value. -/
@[simp] theorem pure_bind_run (a : α) (f : α → EStateM ε σ β) (s : σ) :
    ((pure a : EStateM ε σ α) >>= f) s = f a s := rfl

/-- Nothing runs after a thrown fault. -/
@[simp] theorem throw_bind (e : ε) (f : α → EStateM ε σ β) (s : σ) :
    ((throw e : EStateM ε σ α) >>= f) s = .error e s := rfl

/-- A sequence returns exactly when both of its commands do. -/
theorem bind_eq_ok {x : EStateM ε σ α} {f : α → EStateM ε σ β} {s s' : σ} {b : β} :
    (x >>= f) s = .ok b s' ↔ ∃ a t, x s = .ok a t ∧ f a t = .ok b s' := by
  constructor
  · intro h
    cases hx : x s with
    | ok a t => exact ⟨a, t, rfl, by rw [← h, bind_ok hx]⟩
    | error e t => rw [bind_error hx] at h; cases h
  · rintro ⟨a, t, hx, hf⟩
    rw [bind_ok hx, hf]

/-- A sequence faults when its first command does, or its second one after that. -/
theorem bind_eq_error {x : EStateM ε σ α} {f : α → EStateM ε σ β} {s s' : σ} {e : ε} :
    (x >>= f) s = .error e s' ↔
      x s = .error e s' ∨ ∃ a t, x s = .ok a t ∧ f a t = .error e s' := by
  constructor
  · intro h
    cases hx : x s with
    | ok a t =>
        rw [bind_ok hx] at h
        exact .inr ⟨a, t, rfl, h⟩
    | error e' t =>
        rw [bind_error hx] at h
        cases h
        exact .inl rfl
  · rintro (hx | ⟨a, t, hx, hf⟩)
    · exact bind_error hx
    · rw [bind_ok hx, hf]

/-- A conditional command runs the branch its condition selects. -/
theorem ite_run (c : Prop) [Decidable c] (x y : EStateM ε σ α) (s : σ) :
    (if c then x else y) s = if c then x s else y s := by
  split <;> rfl

/-- Run `m` if `c` holds, and otherwise do nothing. -/
def when (c : Prop) [Decidable c] (m : EStateM ε σ PUnit) : EStateM ε σ PUnit :=
  if c then m else pure ⟨⟩

/-- A `when` whose condition holds runs its command. -/
theorem when_pos {c : Prop} [Decidable c] (h : c) (m : EStateM ε σ PUnit) : when c m = m :=
  if_pos h

/-- A `when` whose condition fails does nothing. -/
theorem when_neg {c : Prop} [Decidable c] (h : ¬ c) (m : EStateM ε σ PUnit) :
    when c m = pure ⟨⟩ :=
  if_neg h

/-! ## The state an outcome ends in -/

/-- The state reached, whether the command returned or faulted. -/
def final : EStateM.Result ε σ α → σ
  | .ok _ s => s
  | .error _ s => s

/-- The state in which a command that answered ended. -/
@[simp] theorem final_ok (a : α) (s : σ) : final (.ok a s : EStateM.Result ε σ α) = s := rfl

/-- The state in which a command that failed ended. -/
@[simp] theorem final_error (e : ε) (s : σ) : final (.error e s : EStateM.Result ε σ α) = s := rfl

/-- The returned value, when the command returned. -/
def ret? : EStateM.Result ε σ α → Option α
  | .ok a _ => some a
  | .error _ _ => none

/-- The answer of a command that answered. -/
@[simp] theorem ret?_ok (a : α) (s : σ) : ret? (.ok a s : EStateM.Result ε σ α) = some a := rfl

/-- A command that failed has no answer. -/
@[simp] theorem ret?_error (e : ε) (s : σ) :
    ret? (.error e s : EStateM.Result ε σ α) = none := rfl

/-- A result with an answer is one that answered it. -/
theorem ret?_eq_some {r : EStateM.Result ε σ α} {a : α} (h : ret? r = some a) :
    ∃ s, r = .ok a s := by
  cases r with
  | ok b s =>
      cases h
      exact ⟨s, rfl⟩
  | error e s => cases h

/-! ## What every outcome preserves -/

/-- From every state, `m` ends in a state related to it by `R`, whether it returns or faults. -/
def Within (R : σ → σ → Prop) (m : EStateM ε σ α) : Prop := ∀ s, R s (final (m s))

section Within

variable {R : σ → σ → Prop}

/-- A returning run of a command within `R` ends in an `R`-related state. -/
theorem Within.ok {m : EStateM ε σ α} (h : Within R m) {s s' : σ} {a : α}
    (hm : m s = .ok a s') : R s s' := by
  have := h s
  rwa [hm] at this

/-- A smaller relation is a stronger frame. -/
theorem Within.mono {R' : σ → σ → Prop} {m : EStateM ε σ α} (h : Within R m)
    (hR : ∀ s t, R s t → R' s t) : Within R' m :=
  fun s => hR _ _ (h s)

/-- A change of the state stays within a frame that allows it from every state. -/
theorem within_modify {f : σ → σ} (h : ∀ s, R s (f s)) :
    Within R (modify f : EStateM ε σ PUnit) := h

/-- Doing nothing stays within a reflexive frame. -/
theorem within_pure [Std.Refl R] (a : α) : Within R (pure a : EStateM ε σ α) :=
  fun s => Std.Refl.refl s

/-- Reading the state stays within a reflexive frame. -/
theorem within_get [Std.Refl R] : Within R (get : EStateM ε σ σ) := fun s => Std.Refl.refl s

/-- Failing at once stays within a reflexive frame. -/
theorem within_throw [Std.Refl R] (e : ε) : Within R (throw e : EStateM ε σ α) :=
  fun s => Std.Refl.refl s

/-- Frames compose along a sequence. -/
theorem Within.bind [IsTrans σ R] {x : EStateM ε σ α} {f : α → EStateM ε σ β}
    (hx : Within R x) (hf : ∀ a, Within R (f a)) : Within R (x >>= f) := by
  intro s
  cases h : x s with
  | ok a t =>
      rw [bind_ok h]
      exact IsTrans.trans _ _ _ (hx.ok h) (hf a t)
  | error e t =>
      rw [bind_error h]
      have := hx s
      rwa [h] at this

/-- A choice stays within the frame when the branch taken does. -/
theorem within_ite {c : Prop} [Decidable c] {x y : EStateM ε σ α} (hx : c → Within R x)
    (hy : ¬ c → Within R y) : Within R (if c then x else y) := by
  by_cases h : c
  · rw [if_pos h]; exact hx h
  · rw [if_neg h]; exact hy h

/-- A command done on a condition stays within the frame when it does under the condition. -/
theorem within_when [Std.Refl R] {c : Prop} [Decidable c] {m : EStateM ε σ PUnit}
    (hm : c → Within R m) : Within R (when c m) :=
  within_ite hm fun _ => within_pure _

/-- A property of the state that `x` ends in and `f` keeps holds where the sequence ends. -/
theorem final_bind {x : EStateM ε σ α} {f : α → EStateM ε σ β} {s : σ} {Q : σ → Prop}
    (hx : Q (final (x s))) (hf : ∀ a t, Q t → Q (final (f a t))) : Q (final ((x >>= f) s)) := by
  cases h : x s with
  | ok a t =>
      rw [h] at hx
      rw [bind_ok h]
      exact hf a t hx
  | error e t =>
      rw [h] at hx
      rwa [bind_error h]

/-- A frame may use the state that was read: it is enough to bound the run from that state. -/
theorem within_get_bind {f : σ → EStateM ε σ β} (hf : ∀ s, R s (final (f s s))) :
    Within R (get >>= f) := hf

end Within

/-! ## Faults a command cannot have -/

/-- From no state does `m` stop with the fault `e`. -/
def Never (e : ε) (m : EStateM ε σ α) : Prop := ∀ s s', m s ≠ .error e s'

section Never

variable {e : ε}

/-- Doing nothing does not fail. -/
theorem never_pure (a : α) : Never e (pure a : EStateM ε σ α) := by
  intro s s' h
  cases h

/-- Reading the state does not fail. -/
theorem never_get : Never e (get : EStateM ε σ σ) := by
  intro s s' h
  cases h

/-- Replacing the state does not fail. -/
theorem never_set (t : σ) : Never e (set t : EStateM ε σ PUnit) := by
  intro s s' h
  cases h

/-- Changing the state does not fail. -/
theorem never_modify (f : σ → σ) : Never e (modify f : EStateM ε σ PUnit) := by
  intro s s' h
  cases h

/-- Another fault is not this one. -/
theorem never_throw {e' : ε} (hne : e' ≠ e) : Never e (throw e' : EStateM ε σ α) := by
  intro s s' h
  cases h
  exact hne rfl

/-- A sequence avoids a fault that its parts avoid. -/
theorem Never.bind {x : EStateM ε σ α} {f : α → EStateM ε σ β} (hx : Never e x)
    (hf : ∀ a, Never e (f a)) : Never e (x >>= f) := by
  intro s s' h
  rcases bind_eq_error.mp h with h | ⟨a, t, -, h⟩
  · exact hx s s' h
  · exact hf a t s' h

/-- A choice avoids a fault that both branches avoid. -/
theorem never_ite {c : Prop} [Decidable c] {x y : EStateM ε σ α} (hx : Never e x)
    (hy : Never e y) : Never e (if c then x else y) := by
  by_cases h : c
  · rw [if_pos h]
    exact hx
  · rw [if_neg h]
    exact hy

/-- A command done on a condition avoids a fault that it avoids. -/
theorem never_when {c : Prop} [Decidable c] {m : EStateM ε σ PUnit} (hm : Never e m) :
    Never e (when c m) :=
  never_ite hm (never_pure _)

end Never

/-! ## Components a command does not read -/

/-- An outcome with another final state. -/
def mapFinal (f : σ → σ) : EStateM.Result ε σ α → EStateM.Result ε σ α
  | .ok a s => .ok a (f s)
  | .error e s => .error e (f s)

section Commutes

variable {f : σ → σ}

/-- A change of the state before `m` is the same change after it. -/
def Commutes (f : σ → σ) (m : EStateM ε σ α) : Prop := ∀ s, m (f s) = mapFinal f (m s)

/-- Doing nothing commutes with every change of the state. -/
theorem commutes_pure (a : α) : Commutes f (pure a : EStateM ε σ α) := fun _ => rfl

/-- Failing at once commutes with every change of the state. -/
theorem commutes_throw (e : ε) : Commutes f (throw e : EStateM ε σ α) := fun _ => rfl

/-- Two changes of the state commute as commands when they do as functions. -/
theorem commutes_modify {g : σ → σ} (hg : ∀ s, g (f s) = f (g s)) :
    Commutes f (modify g : EStateM ε σ PUnit) :=
  fun s => congrArg (EStateM.Result.ok _) (hg s)

/-- A sequence commutes with a change with which its parts do. -/
theorem Commutes.bind {x : EStateM ε σ α} {k : α → EStateM ε σ β} (hx : Commutes f x)
    (hk : ∀ a, Commutes f (k a)) : Commutes f (x >>= k) := by
  intro s
  have hfirst := hx s
  cases h : x s with
  | ok a t =>
      rw [h] at hfirst
      rw [bind_ok hfirst, bind_ok h]
      exact hk a t
  | error e t =>
      rw [h] at hfirst
      rw [bind_error hfirst, bind_error h]
      rfl

/-- A choice that does not look at the state commutes when both branches do. -/
theorem commutes_ite {c : Prop} [Decidable c] {x y : EStateM ε σ α} (hx : Commutes f x)
    (hy : Commutes f y) : Commutes f (if c then x else y) := by
  by_cases h : c
  · rw [if_pos h]
    exact hx
  · rw [if_neg h]
    exact hy

end Commutes

section Ignores

variable {γ : Type} {put : γ → σ → σ}

/-- `m` does not read the component that `put` assigns: from every state, the outcomes for all values
of the component differ in the component only, or not at all (it was assigned on the way). -/
def Ignores (put : γ → σ → σ) (m : EStateM ε σ α) : Prop :=
  ∀ s, (∃ r, ∀ v, m (put v s) = mapFinal (put v) r) ∨ ∃ r, ∀ v, m (put v s) = r

/-- Doing nothing ignores every component. -/
theorem ignores_pure (a : α) : Ignores put (pure a : EStateM ε σ α) :=
  fun s => .inl ⟨.ok a s, fun _ => rfl⟩

/-- Failing at once ignores every component. -/
theorem ignores_throw (e : ε) : Ignores put (throw e : EStateM ε σ α) :=
  fun s => .inl ⟨.error e s, fun _ => rfl⟩

/-- The component may be assigned. -/
theorem ignores_assign {f : σ → σ} (hf : ∀ v w s, f (put v s) = f (put w s)) [Inhabited γ] :
    Ignores put (modify f : EStateM ε σ PUnit) :=
  fun s => .inr ⟨.ok ⟨⟩ (f (put default s)), fun v => congrArg (EStateM.Result.ok _) (hf v _ s)⟩

/-- A value computed from other components may be returned. -/
theorem ignores_read_pure (g : σ → α) (hg : ∀ v s, g (put v s) = g s) :
    Ignores put (get >>= fun s => pure (g s) : EStateM ε σ α) :=
  fun s => .inl ⟨.ok (g s) s, fun v => congrArg (EStateM.Result.ok · (put v s)) (hg v s)⟩

/-- A sequence ignores a component that its parts ignore: the first one that sets it ends the
dependence. -/
theorem Ignores.bind {x : EStateM ε σ α} {f : α → EStateM ε σ β} (hx : Ignores put x)
    (hf : ∀ a, Ignores put (f a)) : Ignores put (x >>= f) := by
  intro s
  rcases hx s with ⟨r, h⟩ | ⟨r, h⟩
  · cases r with
    | ok a t =>
        have hrun (v : γ) : (x >>= f) (put v s) = f a (put v t) := bind_ok (h v)
        exact (hf a t).imp (fun ⟨r, h⟩ => ⟨r, fun v => (hrun v).trans (h v)⟩)
          fun ⟨r, h⟩ => ⟨r, fun v => (hrun v).trans (h v)⟩
    | error e t => exact .inl ⟨.error e t, fun v => bind_error (h v)⟩
  · cases r with
    | ok a t => exact .inr ⟨f a t, fun v => bind_ok (h v)⟩
    | error e t => exact .inr ⟨.error e t, fun v => bind_error (h v)⟩

/-- A choice that does not look at the component ignores it when both branches do. -/
theorem ignores_ite {c : Prop} [Decidable c] {x y : EStateM ε σ α} (hx : Ignores put x)
    (hy : Ignores put y) : Ignores put (if c then x else y) := by
  by_cases h : c
  · rw [if_pos h]; exact hx
  · rw [if_neg h]; exact hy

/-- Two outcomes that differ in the component at most. -/
def SameBut (put : γ → σ → σ) (r r' : EStateM.Result ε σ α) : Prop :=
  r' = r ∨ ∃ v, r' = mapFinal (put v) r

/-- Runs that start with two values of an ignored component end alike, up to that component. -/
theorem Ignores.sameBut {m : EStateM ε σ α} (hm : Ignores put m)
    (hput : ∀ v w s, put w (put v s) = put w s) (s : σ) (v w : γ) :
    SameBut put (m (put v s)) (m (put w s)) := by
  rcases hm s with ⟨r, h⟩ | ⟨r, h⟩
  · refine .inr ⟨w, ?_⟩
    rw [h, h]
    cases r
    · exact congrArg (EStateM.Result.ok _) (hput v w _).symm
    · exact congrArg (EStateM.Result.error _) (hput v w _).symm
  · exact .inl ((h w).trans (h v).symm)

/-- Packing the returned values does not change which outcomes are the same. -/
theorem sameBut_bind_pure {x y : EStateM ε σ α} {g : α → β} {s s' : σ}
    (hg : ∀ a b, g a = g b → a = b) :
    SameBut put ((x >>= fun a => pure (g a)) s) ((y >>= fun a => pure (g a)) s') ↔
      SameBut put (x s) (y s') := by
  unfold SameBut
  cases hx : x s with
  | ok a t =>
      rw [bind_ok hx]
      cases hy : y s' with
      | ok b u =>
          rw [bind_ok hy]
          simp only [pure_run, mapFinal, EStateM.Result.ok.injEq]
          exact or_congr (and_congr_left' ⟨hg _ _, congrArg g⟩)
            (exists_congr fun v => and_congr_left' ⟨hg _ _, congrArg g⟩)
      | error e u =>
          rw [bind_error hy]
          simp [mapFinal]
  | error e t =>
      rw [bind_error hx]
      cases hy : y s' with
      | ok b u =>
          rw [bind_ok hy]
          simp [mapFinal]
      | error f u =>
          rw [bind_error hy]
          simp [mapFinal]

end Ignores

end Cmd

end OsLabs
