import Poncos.Library.Transition

/-!
Termination of runs.  A rank that every step lowers bounds the length of a run; where
only finished states are without a step, every run can be continued to a finished one,
and no run goes past it.
-/

namespace Poncos.Library.Transition.System

open Poncos.Library.Execution

variable {σ ι : Type*}

/-- Every step leads to a state of lower rank. -/
def Lowers (M : System σ ι) (rank : σ → Nat) : Prop :=
  ∀ s i s', M.Reachable s → M.step s i = .ok s' → rank s' < rank s

/-- No step is taken from `s`. -/
def Stuck (M : System σ ι) (s : σ) : Prop := ∀ i s', M.step s i ≠ .ok s'

/-- No run is longer than `bound`, and every run, wherever it stands, ends in a final
state: it is there once it is stuck, and it can be continued until it is. -/
structure Terminates (M : System σ ι) (bound : Nat) (Final : σ → Prop) : Prop where
  length_le : ∀ s is t, M.Init s → M.run s is = .ok t → is.length ≤ bound
  stuck : ∀ s, M.Reachable s → M.Stuck s → Final s
  completes : ∀ s, M.Reachable s → ∃ t, (M.startingAt s).Reachable t ∧ M.Stuck t ∧ Final t

variable {M : System σ ι} {rank : σ → Nat}

theorem Lowers.run (h : M.Lowers rank) {s t : σ} {is : List ι} (hs : M.Reachable s)
    (hrun : M.run s is = .ok t) : is.length + rank t ≤ rank s := by
  induction is generalizing s with
  | nil =>
      cases hrun
      simp
  | cons i is ih =>
      rw [System.run, runVia, if_pos rfl] at hrun
      simp only [bind_eq_ok] at hrun
      obtain ⟨s', hstep, hrest⟩ := hrun
      have htail := ih (.step hs trivial hstep) hrest
      have hhead := h s i s' hs hstep
      rw [List.length_cons]
      omega

theorem Lowers.reaches_stuck (h : M.Lowers rank) {s : σ} (hs : M.Reachable s) :
    ∃ t, (M.startingAt s).Reachable t ∧ M.Stuck t := by
  induction hn : rank s using Nat.strongRecOn generalizing s with
  | ind n ih =>
      rcases Classical.em (M.Stuck s) with hstuck | hmove
      · exact ⟨s, .init rfl, hstuck⟩
      · simp only [Stuck, not_forall, not_not] at hmove
        obtain ⟨i, s', hstep⟩ := hmove
        obtain ⟨t, ht, hstuck⟩ := ih (rank s') (hn ▸ h s i s' hs hstep)
          (.step hs trivial hstep) rfl
        have hfirst : (M.startingAt s).Reachable s' := .step (i := i) (.init rfl) trivial hstep
        exact ⟨t, hfirst.append ht, hstuck⟩

theorem Lowers.terminates (h : M.Lowers rank) {bound : Nat} {Final : σ → Prop}
    (hbound : ∀ s, M.Init s → rank s ≤ bound)
    (hstuck : ∀ s, M.Reachable s → M.Stuck s → Final s) : M.Terminates bound Final := by
  refine ⟨fun s is t hinit hrun => ?_, hstuck, fun s hs => ?_⟩
  · have hlength := h.run (.init hinit) hrun
    have hrank := hbound s hinit
    omega
  · obtain ⟨t, ht, hnone⟩ := h.reaches_stuck hs
    exact ⟨t, ht, hnone, hstuck t (hs.append ht) hnone⟩

end Poncos.Library.Transition.System
