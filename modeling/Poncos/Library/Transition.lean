import Poncos.Library.Execution

/-!
Labelled transition systems whose steps may stop at a fault, the states reached
by runs all of whose steps meet a guard, and the induction rule for invariants.
-/

namespace Poncos.Library.Transition

open Poncos.Library.Execution

/-- A transition system: the states a run may start in, and the effect of every
label. -/
structure System (σ ι : Type*) where
  Init : σ → Prop
  step : σ → ι → Exec σ

namespace System

variable {σ ι : Type*} (M : System σ ι)

/-- States reached by runs in which every step satisfies `guard` in the state
before it. -/
inductive ReachableVia (guard : σ → ι → Prop) : σ → Prop
  | init {s : σ} : M.Init s → ReachableVia guard s
  | step {s s' : σ} {i : ι} : ReachableVia guard s → guard s i →
      M.step s i = .ok s' → ReachableVia guard s'

abbrev Reachable : σ → Prop := M.ReachableVia fun _ _ => True

variable {M}

theorem ReachableVia.mono {guard guard' : σ → ι → Prop}
    (hguard : ∀ s i, guard s i → guard' s i) {s : σ}
    (hs : M.ReachableVia guard s) : M.ReachableVia guard' s := by
  induction hs with
  | init h => exact .init h
  | step _ hg hstep ih => exact .step ih (hguard _ _ hg) hstep

theorem ReachableVia.reachable {guard : σ → ι → Prop} {s : σ}
    (hs : M.ReachableVia guard s) : M.Reachable s :=
  hs.mono fun _ _ _ => trivial

/-- The invariant rule: what holds initially and is preserved by every guarded
step of a reachable state holds along every guarded run. -/
theorem ReachableVia.invariant {guard : σ → ι → Prop} {P : σ → Prop}
    (hinit : ∀ s, M.Init s → P s)
    (hstep : ∀ s i s', M.ReachableVia guard s → P s → guard s i →
      M.step s i = .ok s' → P s')
    {s : σ} (hs : M.ReachableVia guard s) : P s := by
  induction hs with
  | init h => exact hinit _ h
  | step hs hg h ih => exact hstep _ _ _ hs ih hg h

/-- The same steps, started in one state: its reachable states are those the run
goes through from there on. -/
def startingAt (M : System σ ι) (s : σ) : System σ ι := { M with Init := fun t => t = s }

theorem ReachableVia.append {guard : σ → ι → Prop} {s t : σ}
    (hs : M.ReachableVia guard s) (ht : (M.startingAt s).ReachableVia guard t) :
    M.ReachableVia guard t := by
  induction ht with
  | init h =>
      cases h
      exact hs
  | step _ hg hstep ih => exact .step ih hg hstep

/-- Execute a list of labels, testing every step beforehand. -/
def runVia (M : System σ ι) (test : σ → ι → Bool) : σ → List ι → Exec σ
  | s, [] => .ok s
  | s, i :: is =>
      if test s i then do runVia M test (← M.step s i) is else .error .disabled

theorem runVia_reachable {guard : σ → ι → Prop} {test : σ → ι → Bool}
    (htest : ∀ s i, test s i = true → guard s i) {s s' : σ} {is : List ι}
    (hs : M.ReachableVia guard s) (hrun : M.runVia test s is = .ok s') :
    M.ReachableVia guard s' := by
  induction is generalizing s with
  | nil =>
      cases hrun
      exact hs
  | cons i is ih =>
      rw [runVia] at hrun
      split at hrun
      · rename_i hpass
        simp only [bind_eq_ok] at hrun
        obtain ⟨t, hstep, hrest⟩ := hrun
        exact ih (.step hs (htest s i hpass) hstep) hrest
      · cases hrun

abbrev run (M : System σ ι) : σ → List ι → Exec σ := M.runVia fun _ _ => true

theorem run_reachable {guard : σ → ι → Prop} (hguard : ∀ s i, guard s i) {s s' : σ}
    {is : List ι} (hs : M.ReachableVia guard s) (hrun : M.run s is = .ok s') :
    M.ReachableVia guard s' :=
  runVia_reachable (fun s i _ => hguard s i) hs hrun

end System

end Poncos.Library.Transition
