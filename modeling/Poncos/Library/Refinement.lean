import Poncos.Library.History

/-!
Simulation.  Forward, every step of a concrete system is a step of an abstract one, or
leaves the abstract state as it is; backward, the concrete system can make every step
that the abstract one can.
-/

namespace Poncos.Library.Transition.System

open Poncos.Library.Execution

variable {σ τ ι κ : Type}

/-- `M` refines `N` through `abs`, taking only abstract steps that meet `guard`. -/
structure Refines (M : System σ ι) (N : System τ κ) (guard : τ → κ → Prop)
    (abs : σ → τ) : Prop where
  init : ∀ s, M.Init s → N.Init (abs s)
  step : ∀ s i s', M.Reachable s → M.step s i = .ok s' →
    abs s' = abs s ∨ ∃ k, guard (abs s) k ∧ N.step (abs s) k = .ok (abs s')

/-- What a run of `M` reaches is reached by a guarded run of `N`. -/
theorem Refines.reachable {M : System σ ι} {N : System τ κ} {guard : τ → κ → Prop}
    {abs : σ → τ} (h : M.Refines N guard abs) {s : σ} (hs : M.Reachable s) :
    N.ReachableVia guard (abs s) := by
  induction hs with
  | init hinit => exact .init (h.init _ hinit)
  | step hs _ hstep ih =>
      rcases h.step _ _ _ hs hstep with heq | ⟨k, hk, habs⟩
      · rw [heq]
        exact ih
      · exact .step ih hk habs

/-- From every state it reaches, `M` can follow the steps of `N`. -/
def Follows (M : System σ ι) (N : System τ κ) (abs : σ → τ) : Prop :=
  ∀ s k t, M.Reachable s → N.step (abs s) k = .ok t →
    ∃ s', (M.startingAt s).Reachable s' ∧ abs s' = t

theorem Follows.reachable {M : System σ ι} {N : System τ κ} {abs : σ → τ}
    (h : M.Follows N abs) {s : σ} {t : τ} (hs : M.Reachable s)
    (ht : (N.startingAt (abs s)).Reachable t) :
    ∃ s', (M.startingAt s).Reachable s' ∧ abs s' = t := by
  induction ht with
  | init ht => exact ⟨s, .init rfl, ht.symm⟩
  | step _ _ hstep ih =>
      obtain ⟨s₁, hs₁, rfl⟩ := ih
      obtain ⟨s', hs', habs⟩ := h s₁ _ _ (hs.append hs₁) hstep
      exact ⟨s', hs₁.append hs', habs⟩

end Poncos.Library.Transition.System
