import Mathlib.Logic.Relation
import Mathlib.Tactic.ByContra

/-! # Waiting for locks

Threads `T` wait for locks `L`: `wants t` is the lock a thread is waiting for, `holder l` the thread
that holds a lock. A deadlock is a thread that waits, over one or more threads, for itself.

When one lock `a` is set apart, no thread waits for `a` while it holds it, and no thread waits for
another lock while it holds one other than `a`, then every deadlock is between two threads: one that
holds `a` and waits for the other lock that the second holds, while the second waits for `a`. -/

namespace OsLabs

namespace WaitFor

open Relation

variable {T L : Type} (wants : T → Option L) (holder : L → Option T)

/-- Thread `t` waits for a lock that `u` holds. -/
def WaitsFor (t u : T) : Prop :=
  ∃ l, wants t = some l ∧ holder l = some u

/-- Some threads wait for each other in a cycle. -/
def Deadlocked : Prop :=
  ∃ t, TransGen (WaitsFor wants holder) t t

variable {wants holder}

/-- Two threads that wait for each other. -/
theorem deadlocked_of_pair {t u : T} (htu : WaitsFor wants holder t u)
    (hut : WaitsFor wants holder u t) : Deadlocked wants holder :=
  ⟨t, TransGen.tail (TransGen.single htu) hut⟩

/-- A thread on a cycle waits for a thread on a cycle. -/
theorem next_of_cycle {r : T → T → Prop} {t : T} (h : TransGen r t t) :
    ∃ u, r t u ∧ TransGen r u u := by
  obtain ⟨u, htu, hut⟩ := TransGen.head'_iff.mp h
  exact ⟨u, htu, TransGen.tail' hut htu⟩

/-- **The shape of a deadlock.** -/
theorem exists_pair_of_deadlocked {a : L} (hself : ∀ t, wants t = some a → holder a ≠ some t)
    (hother : ∀ t l m, wants t = some l → l ≠ a → holder m = some t → m = a)
    (h : Deadlocked wants holder) :
    ∃ t u l, l ≠ a ∧ holder a = some t ∧ wants t = some l ∧ holder l = some u ∧
      wants u = some a := by
  -- a thread that holds `a` waits for another lock, whose holder waits for `a`
  have hpair : ∀ {t u l m}, holder a = some t → wants t = some l → holder l = some u →
      wants u = some m → ∃ t u l, l ≠ a ∧ holder a = some t ∧ wants t = some l ∧
        holder l = some u ∧ wants u = some a := by
    intro t u l m hat htl hlu hum
    have hla : l ≠ a := by
      rintro rfl
      exact hself t htl hat
    have hma : m = a := by
      by_contra hma
      exact hla (hother u m l hum hma hlu)
    exact ⟨t, u, l, hla, hat, htl, hlu, hma ▸ hum⟩
  obtain ⟨t₀, hc₀⟩ := h
  obtain ⟨t₁, ⟨l₀, hw₀, hh₀⟩, hc₁⟩ := next_of_cycle hc₀
  obtain ⟨t₂, ⟨l₁, hw₁, hh₁⟩, hc₂⟩ := next_of_cycle hc₁
  obtain ⟨t₃, ⟨l₂, hw₂, hh₂⟩, hc₃⟩ := next_of_cycle hc₂
  obtain ⟨-, ⟨l₃, hw₃, -⟩, -⟩ := next_of_cycle hc₃
  by_cases hl₀ : l₀ = a
  · exact hpair (hl₀ ▸ hh₀) hw₁ hh₁ hw₂
  · have hl₁ : l₁ = a := by
      by_contra hl₁
      exact hl₀ (hother t₁ l₁ l₀ hw₁ hl₁ hh₀)
    exact hpair (hl₁ ▸ hh₁) hw₂ hh₂ hw₃

end WaitFor

end OsLabs
