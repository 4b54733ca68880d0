import Poncos.Library.Transition

/-!
History variables.  They record what a run did and constrain no step, so that a
statement about runs can be an invariant of the states with their history.
-/

namespace Poncos.Library.Transition.System

open Poncos.Library.Execution

variable {σ ι η : Type} (M : System σ ι)

/-- `M` with a history that starts at `h₀` and is updated from the state before a
step and its label. -/
def withHistory (h₀ : η) (record : σ → ι → η → η) : System (σ × η) ι where
  Init s := M.Init s.1 ∧ s.2 = h₀
  step s i := (M.step s.1 i).map fun s' => (s', record s.1 i s.2)

variable {M} {h₀ : η} {record : σ → ι → η → η} {guard : σ → ι → Prop}

theorem ReachableVia.forget {s : σ × η}
    (hs : (M.withHistory h₀ record).ReachableVia (fun t i => guard t.1 i) s) :
    M.ReachableVia guard s.1 := by
  induction hs with
  | init h => exact .init h.1
  | step _ hg hstep ih =>
      obtain ⟨s', hs', rfl⟩ := map_eq_ok.mp hstep
      exact .step ih hg hs'

theorem ReachableVia.exists_history {s : σ} (hs : M.ReachableVia guard s) :
    ∃ h, (M.withHistory h₀ record).ReachableVia (fun t i => guard t.1 i) (s, h) := by
  induction hs with
  | init h => exact ⟨h₀, .init ⟨h, rfl⟩⟩
  | step _ hg hstep ih =>
      obtain ⟨h, ih⟩ := ih
      exact ⟨_, .step ih hg (map_eq_ok.mpr ⟨_, hstep, rfl⟩)⟩

theorem forget_reachable {s : σ × η} (hs : (M.withHistory h₀ record).Reachable s) :
    M.Reachable s.1 :=
  @ReachableVia.forget _ _ _ M h₀ record (fun _ _ => True) s hs

/-- The invariant rule for a property of states and histories. -/
theorem history_invariant {P : σ → η → Prop} (hinit : ∀ s, M.Init s → P s h₀)
    (hstep : ∀ s i s' h, M.Reachable s → P s h → M.step s i = .ok s' → P s' (record s i h))
    {s : σ × η} (hs : (M.withHistory h₀ record).Reachable s) : P s.1 s.2 := by
  induction hs with
  | @init s h =>
      rw [h.2]
      exact hinit _ h.1
  | step hs _ hi ih =>
      obtain ⟨s', hs', rfl⟩ := map_eq_ok.mp hi
      exact hstep _ _ _ _ (forget_reachable hs) ih hs'

end Poncos.Library.Transition.System
