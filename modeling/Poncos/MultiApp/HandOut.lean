import Poncos.Controller.SuspendedSlots
import Poncos.MultiApp.Frozen

/-!
The VMs in the free slots under the multi-app scheduler.  A job that completes while
its VMs are suspended leaves them suspended, since `thaw` skips free slots.
-/

namespace Poncos.MultiApp

open Poncos.Library
open Poncos.Library.Execution
open Poncos.Library.Transition
open Poncos.Controller

/-- The slots whose domains the scheduler has suspended. -/
def Pc.frozenSlots : Pc → ExecuteConfig
  | .runDistgen _ config => config.map opposing
  | .thawOpposing _ config => config.map opposing
  | .overload _ config true => config
  | .asleep (.change _ config) => config
  | _ => []

def Pc.Placing : Pc → Prop
  | .waitRessource _ => True
  | .select _ => True
  | .asleep (.ressource _) => True
  | _ => False

theorem Pc.Placing.frozenSlots_eq {pc : Pc} (h : pc.Placing) : pc.frozenSlots = [] := by
  cases pc with
  | waitRessource | select => rfl
  | asleep wait =>
      cases wait with
      | ressource => rfl
      | change | done => cases h
  | _ => cases h

/-- The scheduler is about to call `execute`, and the VM in every free slot is not
suspended. -/
def HandsOutRunning (s : State) : Prop :=
  ∀ job, s.pc = .select job → ∀ p, s.controller.machineUsage.get? p = some none →
    ∀ name, s.vmLocations.get? p = some name → suspended s.log (.vm name) = false

/-- The condition on a step: while jobs remain in the queue, a completing job has no
suspended domain. -/
def CompletesRunning (σ : Settings) (s : State) : Action → Prop
  | .complete id => s.queue = [] ∨ ∀ d, Owns σ s id d → suspended s.log d = false
  | _ => True

abbrev SuspendedOk (σ : Settings) (s : State) : Prop :=
  SuspendedWithin σ.backend s.controller s.vmLocations s.log s.pc.frozenSlots

def Winding (s : State) : Prop := s.queue = [] ∧ ¬ s.pc.Placing

variable {σ : Settings} {s s' : State}

/-- After the loop nothing is suspended, whether or not the job was frozen. -/
theorem suspendedWithin_thawIfFrozen {id : Nat} {config : ExecuteConfig} {frozen : Bool}
    {messages : List Message}
    (h : SuspendedWithin σ.backend s.controller s.vmLocations s.log
      (Pc.overload id config frozen).frozenSlots)
    (hcurrent : CurrentJob s.controller id config)
    (hthaw : thawIfFrozen σ id frozen s = .ok messages) :
    SuspendedWithin σ.backend s.controller s.vmLocations (s.log ++ messages) [] := by
  rcases thawIfFrozen_cases hcurrent hthaw with ⟨rfl, rfl⟩ | ⟨rfl, _, hsend⟩
  · rw [List.append_nil]
    exact h
  · exact h.resume hsend

theorem SuspendedOk.trans {action : Action} (h : SuspendedOk σ s) (hσ : σ.backend = .vm)
    (hwf : WellFormed s)
    (hguard : ∀ id, action = .complete id → ∀ d, Owns σ s id d → suspended s.log d = false)
    (ht : Trans σ s action s') : SuspendedOk σ s' := by
  cases ht with
  | select hpc =>
      rw [SuspendedOk, hpc] at h
      exact h.of_nil
  | freezeOpposing hpc hfreeze =>
      have hcurrent := hwf.current _ _ (by rw [hpc]; rfl)
      obtain ⟨_, hsend⟩ := freezeOpposing_sendTo hcurrent.row hfreeze
      rw [SuspendedOk, hpc] at h
      exact h.suspend hsend
  | runDistgen hpc =>
      rw [SuspendedOk, hpc] at h
      exact h
  | thawOpposing hpc hthaw =>
      have hcurrent := hwf.current _ _ (by rw [hpc]; rfl)
      obtain ⟨_, hsend⟩ := thawOpposing_sendTo hcurrent.row hthaw
      rw [SuspendedOk, hpc] at h
      exact h.resume hsend
  | fits hpc _ hthaw =>
      have hcurrent := hwf.current _ _ (by rw [hpc]; rfl)
      rw [SuspendedOk, hpc] at h
      exact suspendedWithin_thawIfFrozen h hcurrent hthaw
  | swap hpc _ _ _ _ hthaw =>
      have hcurrent := hwf.current _ _ (by rw [hpc]; rfl)
      rw [SuspendedOk, hpc] at h
      exact suspendedWithin_thawIfFrozen h hcurrent hthaw
  | stillFrozen hpc =>
      rw [SuspendedOk, hpc] at h
      exact h
  | freeze hpc _ _ _ _ hfreeze =>
      have hcurrent := hwf.current _ _ (by rw [hpc]; rfl)
      obtain ⟨_, hsend⟩ := hcurrent.freeze_sendTo hfreeze
      rw [SuspendedOk, hpc] at h
      exact h.suspend hsend
  | freezeDetach _ _ _ hcgroup => cases hσ.symm.trans hcgroup
  | updateConfig hpc =>
      rw [SuspendedOk, hpc] at h
      exact h.migrate
  | @wake wait hpc =>
      rw [SuspendedOk, hpc] at h
      cases wait with
      | ressource job => exact h
      | change id config => exact h
      | done => exact h
  | complete _ hphase heffect =>
      exact h.complete hwf.consistent (running_of_inPhase hphase (.inr rfl)) heffect
        (hguard _ rfl)
  | waiterThaw _ _ _ _ hthaw =>
      obtain ⟨_, _, _, hsend⟩ := thaw_sendTo hthaw
      exact h.resume_other hsend
  | processEnd | notifyAll | waiterWait | waiterSleep => exact h
  | nextJob hpc | lastJob hpc | ressource hpc | noRessource hpc | allDone hpc
  | notDone hpc =>
      rw [SuspendedOk, hpc] at h
      exact h

theorem Winding.trans {action : Action} (h : Winding s) (ht : Trans σ s action s') :
    Winding s' := by
  obtain ⟨hqueue, hplacing⟩ := h
  cases ht with
  | nextJob _ hnext => cases hqueue.symm.trans hnext
  | ressource hpc | noRessource hpc | select hpc => exact absurd (hpc ▸ trivial) hplacing
  | processEnd | complete | notifyAll | waiterWait | waiterThaw | waiterSleep =>
      exact ⟨hqueue, hplacing⟩
  | @wake wait hpc =>
      cases wait with
      | ressource job => exact absurd (hpc ▸ trivial) hplacing
      | change => exact ⟨hqueue, fun h => h⟩
      | done => exact ⟨hqueue, fun h => h⟩
  | _ => exact ⟨hqueue, fun h => h⟩

theorem reachable_suspendedOk (hσ : σ.backend = .vm)
    (hs : (system σ).ReachableVia (CompletesRunning σ) s) :
    SuspendedOk σ s ∨ Winding s := by
  refine hs.invariant (P := fun s => SuspendedOk σ s ∨ Winding s) ?_ ?_
  · rintro s ⟨_, _, _, _, _, _, rfl⟩
    exact .inl fun d hd => by cases hd
  · intro s action s' hs h hguard hstep
    have hwf := reachable_wellFormed hs
    have ht := step_trans hstep
    rcases h with h | h
    · rcases Classical.em (∀ id, action = .complete id →
        ∀ d, Owns σ s id d → suspended s.log d = false) with hrunning | hsuspended
      · exact .inl (h.trans hσ hwf hrunning ht)
      · -- a suspended job completes after the last one was placed
        push Not at hsuspended
        obtain ⟨id, rfl, d, hd, hon⟩ := hsuspended
        have hqueue := hguard.resolve_right fun hoff => hon (hoff d hd)
        refine .inr (Winding.trans ⟨hqueue, fun hplacing => ?_⟩ ht)
        rw [SuspendedOk, hplacing.frozenSlots_eq] at h
        exact hon (h.not_suspended d)
    · exact .inr (h.trans ht)

theorem handsOutRunning (hσ : σ.backend = .vm)
    (hs : (system σ).ReachableVia (CompletesRunning σ) s) : HandsOutRunning s := by
  intro job hpc p _ name _
  rcases reachable_suspendedOk hσ hs with h | ⟨_, hplacing⟩
  · rw [SuspendedOk, hpc] at h
    exact h.not_suspended _
  · exact absurd (hpc ▸ trivial) hplacing

end Poncos.MultiApp
