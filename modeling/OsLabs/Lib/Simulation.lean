import OsLabs.Lib.Transition

/-! # Histories accepted by an abstract system

A specification is a relation `A : τ → ε → τ → Prop`: the event `ε` can happen in one abstract state and leads
to another. `Accepted A v evs w` says that the events can happen one after the other, and `exec_accepted` is the
rule for a forward simulation: if every step of a concrete system emits events that the specification accepts,
along a relation of the two states, then so does every run. -/

namespace OsLabs

namespace Transition

variable {σ α ε τ : Type} {step : σ → α → Option (σ × List ε)} {A : τ → ε → τ → Prop}

/-- The events lead from one abstract state to the other. -/
inductive Accepted (A : τ → ε → τ → Prop) : τ → List ε → τ → Prop
  | nil (v : τ) : Accepted A v [] v
  | cons {u v w : τ} {e : ε} {evs : List ε} (h : A u e v) (hrest : Accepted A v evs w) : Accepted A u (e :: evs) w

/-- A single event. -/
theorem Accepted.one {v w : τ} {e : ε} (h : A v e w) : Accepted A v [e] w := .cons h (.nil w)

/-- Two accepted histories in a row are accepted. -/
theorem Accepted.append {u v w : τ} {evs new : List ε} (h : Accepted A u evs v) (h' : Accepted A v new w) :
    Accepted A u (evs ++ new) w := by
  induction h with
  | nil => exact h'
  | cons hstep _ ih => exact .cons hstep (ih h')

/-- **The rule for simulations.** -/
theorem exec_accepted {R : τ → σ → Prop}
    (hstep : ∀ v s a u new, R v s → step s a = some (u, new) → ∃ w, Accepted A v new w ∧ R w u)
    {v₀ v : τ} {evs evs' : List ε} {s t : σ} {as : List α} (hv : Accepted A v₀ evs v) (hR : R v s)
    (hrun : exec step evs s as = some (evs', t)) : ∃ w, Accepted A v₀ evs' w ∧ R w t := by
  induction as generalizing evs s v with
  | nil =>
      obtain ⟨rfl, rfl⟩ : evs = evs' ∧ s = t := by simpa using hrun
      exact ⟨v, hv, hR⟩
  | cons a as ih =>
      obtain ⟨u, new, hs, hrest⟩ := exec_cons_eq_some.mp hrun
      obtain ⟨w, hnew, hw⟩ := hstep v s a u new hR hs
      exact ih (hv.append hnew) hw hrest

/-- The rule for simulations of runs that meet a condition: if every action that meets it makes a step, and the
step emits what the specification accepts, then the run comes to its end. -/
theorem exec_accepted_of_meets {R : τ → σ → Prop} {C : σ → α → Prop} {as : List α}
    (hstep : ∀ v s, ∀ a ∈ as, R v s → C s a →
      ∃ u new w, step s a = some (u, new) ∧ Accepted A v new w ∧ R w u)
    {v₀ v : τ} {evs : List ε} {s : σ} (hv : Accepted A v₀ evs v) (hR : R v s)
    (hC : Meets step (fun _ s a => C s a) evs s as) :
    ∃ evs' t w, exec step evs s as = some (evs', t) ∧ Accepted A v₀ evs' w ∧ R w t := by
  induction as generalizing evs s v with
  | nil => exact ⟨evs, s, v, rfl, hv, hR⟩
  | cons a as ih =>
      obtain ⟨u, new, w, hs, hnew, hw⟩ := hstep v s a List.mem_cons_self hR hC.head
      obtain ⟨evs', t, w', hrun, hevs', ht⟩ :=
        ih (fun v s b hb => hstep v s b (List.mem_cons_of_mem a hb)) (hv.append hnew) hw (hC.tail hs)
      exact ⟨evs', t, w', exec_cons_eq_some.mpr ⟨u, new, hs, hrun⟩, hevs', ht⟩

end Transition

end OsLabs
