import Mathlib

/-!
# Runs of a step relation

An invariant holds after every run. Where a measure falls at each step, there is no infinite run, and from
every state a state without steps can be reached. A simulation by other steps carries runs over, and with a
measure that falls on pairs of related states its steps end as well.
-/

namespace Transitions

open Relation

variable {σ : Type*} {step : σ → σ → Prop} {inv : σ → Prop} {s t : σ}

/-- What holds at the start and is kept by every step holds after every run. -/
theorem invariant (hstep : ∀ s t, inv s → step s t → inv t) (hs : inv s) (hrun : ReflTransGen step s t) :
    inv t := by
  induction hrun with
  | refl => exact hs
  | tail _ hlast ih => exact hstep _ _ ih hlast

/-- No step is possible. -/
def Terminal (step : σ → σ → Prop) (s : σ) : Prop := ∀ t, ¬ step s t

section Measure

variable (m : σ → ℕ) (hstep : ∀ s t, inv s → step s t → inv t)
  (hfalls : ∀ s t, inv s → step s t → m t < m s)

include hstep hfalls

/-- Every run can be continued to a state without steps. -/
theorem exists_terminal (hs : inv s) : ∃ t, ReflTransGen step s t ∧ Terminal step t := by
  induction hm : m s using Nat.strong_induction_on generalizing s with
  | _ k ih =>
    by_cases hterminal : Terminal step s
    · exact ⟨s, .refl, hterminal⟩
    · simp only [Terminal, not_forall, not_not] at hterminal
      obtain ⟨t, hst⟩ := hterminal
      have hlt := hfalls s t hs hst
      obtain ⟨u, hrun, hu⟩ := ih (m t) (hm ▸ hlt) (hstep s t hs hst) rfl
      exact ⟨u, .head hst hrun, hu⟩

/-- No run goes on forever. -/
theorem no_infinite_run (run : ℕ → σ) (h0 : inv (run 0)) : ¬ ∀ n, step (run n) (run (n + 1)) := by
  intro hrun
  have hinv : ∀ n, inv (run n) := by
    intro n
    induction n with
    | zero => exact h0
    | succ n ih => exact hstep _ _ ih (hrun n)
  have hbound : ∀ n, m (run n) + n ≤ m (run 0) := by
    intro n
    induction n with
    | zero => exact le_rfl
    | succ n ih =>
      have hlt := hfalls _ _ (hinv n) (hrun n)
      omega
  have hlast := hbound (m (run 0) + 1)
  omega

end Measure

/-! ### Simulations -/

section Simulation

variable {τ : Type*} {step' : τ → τ → Prop} {rel : σ → τ → Prop} {s' : τ}

/-- A run is followed by a run of the steps that simulate its steps. -/
theorem simulation (hsim : ∀ s t s', rel s s' → step s t → ∃ t', ReflTransGen step' s' t' ∧ rel t t')
    (hs : rel s s') (hrun : ReflTransGen step s t) : ∃ t', ReflTransGen step' s' t' ∧ rel t t' := by
  induction hrun with
  | refl => exact ⟨s', .refl, hs⟩
  | tail _ hlast ih =>
    obtain ⟨u', hrun', hu⟩ := ih
    obtain ⟨t', hmore, ht⟩ := hsim _ _ _ hu hlast
    exact ⟨t', hrun'.trans hmore, ht⟩

section Measure

variable (m : σ → τ → ℕ) (hsim : ∀ s t s', rel s s' → step s t → ∃ t', rel t t' ∧ m t t' < m s s')

include hsim

/-- Every run of simulated steps can be continued to a state without steps. -/
theorem exists_terminal_of_simulation (hs : rel s s') : ∃ t, ReflTransGen step s t ∧ Terminal step t := by
  induction hm : m s s' using Nat.strong_induction_on generalizing s s' with
  | _ k ih =>
    by_cases hterminal : Terminal step s
    · exact ⟨s, .refl, hterminal⟩
    · simp only [Terminal, not_forall, not_not] at hterminal
      obtain ⟨t, hst⟩ := hterminal
      obtain ⟨t', ht, hlt⟩ := hsim s t s' hs hst
      obtain ⟨u, hrun, hu⟩ := ih (m t t') (hm ▸ hlt) ht rfl
      exact ⟨u, .head hst hrun, hu⟩

/-- No run of simulated steps goes on forever. -/
theorem no_infinite_run_of_simulation (run : ℕ → σ) (h0 : rel (run 0) s') :
    ¬ ∀ n, step (run n) (run (n + 1)) := by
  induction hm : m (run 0) s' using Nat.strong_induction_on generalizing run s' with
  | _ k ih =>
    intro hrun
    obtain ⟨t', ht, hlt⟩ := hsim _ _ s' h0 (hrun 0)
    exact ih (m (run 1) t') (hm ▸ hlt) (fun n => run (n + 1)) ht rfl fun n => hrun (n + 1)

end Measure

end Simulation

end Transitions
