import Poncos.Library.Notification
import Poncos.Library.Termination

/-!
Fewer steps.  A test rules out steps that the environment does not take, such as the
end of a process that is stopped; every run of what is left is a run of the system.
-/

namespace Poncos.Library.Transition.System

open Poncos.Library.Execution

variable {σ ι : Type}

def restrict (M : System σ ι) (test : σ → ι → Bool) : System σ ι where
  Init := M.Init
  step s i := do
    require (test s i = true)
    M.step s i

variable {M : System σ ι} {test : σ → ι → Bool} {s s' : σ} {i : ι}

theorem restrict_step :
    (M.restrict test).step s i = .ok s' ↔ test s i = true ∧ M.step s i = .ok s' := by
  simp [restrict]

theorem restrict_reachable (hs : (M.restrict test).Reachable s) : M.Reachable s := by
  induction hs with
  | init h => exact .init h
  | step _ _ hstep ih => exact .step ih trivial (restrict_step.mp hstep).2

theorem Sleeper.Served.restrict {p : Sleeper σ ι} {Ready Due : σ → Prop}
    (h : p.Served M Ready Due) : p.Served (M.restrict test) Ready Due where
  init := h.init
  wakes s i s' hs hstep := h.wakes s i s' (restrict_reachable hs) (restrict_step.mp hstep).2
  sleeps s i s' hs hstep := h.sleeps s i s' (restrict_reachable hs) (restrict_step.mp hstep).2
  others s i s' hs hstep := h.others s i s' (restrict_reachable hs) (restrict_step.mp hstep).2

end Poncos.Library.Transition.System
