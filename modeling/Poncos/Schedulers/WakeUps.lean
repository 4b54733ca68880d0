import Poncos.Library.Notification
import Poncos.MultiApp.WellFormed
import Poncos.MultiAppConsec.Schedule
import Poncos.TwoApp.Transitions

/-!
The wake-ups of the scheduler thread, without spurious ones.  A completion thread
changes the tables under the lock and calls `notify_all` after it has released it; the
scheduler tests its condition under the lock before it sleeps.
-/

namespace Poncos

open Poncos.Library
open Poncos.Library.Execution
open Poncos.Library.Transition
open Poncos.Library.Transition.System
open Poncos.Controller

/-- A completion thread has released the lock and not called `notify_all` yet. -/
def Controller.Notifying (c : Controller) : Prop := ∃ id, InPhase c id .notifying

section Notifying

variable {c c' : Controller} {id : Nat}

theorem Controller.Notifying.processEnd (h : c.Notifying) (hc : c.Consistent)
    (hphase : InPhase c id .executing) : (c.setPhase id .ended).Notifying := by
  obtain ⟨j, hj⟩ := h
  refine ⟨j, inPhase_setPhase_of_ne hj ?_⟩
  rintro rfl
  cases inPhase_unique hc hj hphase

theorem Controller.CompleteEffect.notifying {config : ExecuteConfig}
    (h : CompleteEffect c c' id config) (hphase : InPhase c id .ended) : c'.Notifying := by
  have hself : InPhase (c.setPhase id .notifying) id .notifying := inPhase_setPhase_self hphase
  refine ⟨id, ?_⟩
  rw [InPhase, h.threadPool]
  exact hself

end Notifying

namespace TwoApp

/-- What a sleeping scheduler waits for. -/
def Wait.Over (s : State) : Wait → Prop
  | .ressource job => s.controller.ressourceAvailable job.reqCpus 1 = .ok true
  | .frozen job _ _ => s.controller.ressourceAvailable job.reqCpus 1 = .ok true
  | .done => Controller.allFree s.controller.systemConfig s.controller.machineUsage = .ok true

def sleeper : Sleeper State Action where
  asleep s := decide s.LockFree
  wakes
    | .wake => true
    | _ => false
  notifies
    | .notifyAll _ => true
    | _ => false

/-- The scheduler sleeps although what it waits for holds. -/
def WaitOver (s : State) : Prop := ∃ wait, s.pc = .asleep wait ∧ wait.Over s

section Steps

variable {σ : Settings} {s s' : State}

theorem not_waitOver_of_schedule {r : List ℚ} (h : scheduleStep σ r s = .ok s') :
    ¬ WaitOver s' := by
  rintro ⟨wait, hwait, hover⟩
  cases scheduleStep_trans h with
  | noRessource _ hnone =>
      cases hwait
      cases hnone.symm.trans hover
  | notAvailable hpc =>
      cases hwait
      simp only [scheduleStep, hpc, bind_eq_ok] at h
      obtain ⟨available, havailable, h⟩ := h
      rw [Except.ok.inj (havailable.symm.trans hover)] at h
      cases h
  | notDone hpc =>
      cases hwait
      simp only [scheduleStep, hpc, bind_eq_ok] at h
      obtain ⟨free, hfree, h⟩ := h
      rw [Except.ok.inj (hfree.symm.trans hover)] at h
      cases h
  | _ => cases hwait

theorem not_waitOver_of_awake {action : Action} (h : step σ s action = .ok s')
    (hawake : ¬ s.LockFree) : ¬ WaitOver s' := by
  cases step_trans h with
  | wake hpc | complete hpc => exact absurd ⟨_, hpc⟩ hawake
  | processEnd | notifyAll =>
      rintro ⟨wait, hwait, _⟩
      exact hawake ⟨wait, hwait⟩
  | _ => exact not_waitOver_of_schedule h

theorem awake_of_wake (h : wakeStep s = .ok s') : ¬ s'.LockFree := by
  rw [wakeStep] at h
  split at h
  · rename_i wait _
    cases h
    rintro ⟨wait', hwait⟩
    cases wait <;> cases hwait
  · cases h

/-- What the other threads do while the scheduler sleeps: nothing it waits for changes
but by a completion, and that leaves a notification due. -/
theorem asleep_step {action : Action} (hc : s.controller.Consistent) (hasleep : s.LockFree)
    (h : step σ s action = .ok s') (hother : sleeper.wakes action = false) :
    (WaitOver s' → WaitOver s ∨ s'.controller.Notifying) ∧
      (s.controller.Notifying → sleeper.notifies action = true ∨ s'.controller.Notifying) := by
  obtain ⟨wait, hwait⟩ := hasleep
  cases action with
  | schedule r => simp [step, scheduleStep, hwait] at h
  | wake => cases hother
  | processEnd id =>
      cases step_trans h with
      | processEnd hphase => exact ⟨.inl, fun hdue => .inr (hdue.processEnd hc hphase)⟩
  | complete id =>
      cases step_trans h with
      | complete _ hphase heffect =>
          have hdue := heffect.notifying hphase
          exact ⟨fun _ => .inr hdue, fun _ => .inr hdue⟩
  | notifyAll id =>
      cases step_trans h with
      | notifyAll => exact ⟨.inl, fun _ => .inl rfl⟩

theorem sleeper_served :
    sleeper.Served (system σ) WaitOver fun s => s.controller.Notifying where
  init := by
    rintro _ ⟨_, _, _, _, _, _, rfl⟩
    rfl
  wakes := by
    intro s i s' _ hstep hwakes
    cases i with
    | wake => exact decide_eq_false (awake_of_wake hstep)
    | _ => cases hwakes
  sleeps s i s' _ hstep hawake := not_waitOver_of_awake hstep (of_decide_eq_false hawake)
  others s i s' hs hstep hasleep hother :=
    asleep_step (reachable_wellFormed hs).consistent (of_decide_eq_true hasleep) hstep hother

end Steps

end TwoApp

namespace MultiAppConsec

/-- What a sleeping scheduler waits for. -/
def Wait.Over (s : State) : Wait → Prop
  | .ressource job =>
      s.controller.ressourceAvailable job.reqCpus s.controller.systemConfig.slots.length =
        .ok true
  | .done => Controller.allFree s.controller.systemConfig s.controller.machineUsage = .ok true

def sleeper : Sleeper State Action where
  asleep s := decide s.LockFree
  wakes
    | .wake => true
    | _ => false
  notifies
    | .notifyAll _ => true
    | _ => false

/-- The scheduler sleeps although what it waits for holds. -/
def WaitOver (s : State) : Prop := ∃ wait, s.pc = .asleep wait ∧ wait.Over s

section Steps

variable {σ : Settings} {s s' : State}

theorem not_waitOver_of_schedule (h : scheduleStep σ s = .ok s') : ¬ WaitOver s' := by
  rintro ⟨wait, hwait, hover⟩
  cases scheduleStep_trans h with
  | noRessource hpc =>
      cases hwait
      simp only [scheduleStep, hpc, bind_eq_ok] at h
      obtain ⟨available, havailable, h⟩ := h
      rw [Except.ok.inj (havailable.symm.trans hover)] at h
      cases h
  | notDone hpc =>
      cases hwait
      simp only [scheduleStep, hpc, bind_eq_ok] at h
      obtain ⟨free, hfree, h⟩ := h
      rw [Except.ok.inj (hfree.symm.trans hover)] at h
      cases h
  | _ => cases hwait

theorem not_waitOver_of_awake {action : Action} (h : step σ s action = .ok s')
    (hawake : ¬ s.LockFree) : ¬ WaitOver s' := by
  cases step_trans h with
  | wake hpc | complete hpc => exact absurd ⟨_, hpc⟩ hawake
  | processEnd | notifyAll =>
      rintro ⟨wait, hwait, _⟩
      exact hawake ⟨wait, hwait⟩
  | _ => exact not_waitOver_of_schedule h

theorem awake_of_wake (h : wakeStep s = .ok s') : ¬ s'.LockFree := by
  rw [wakeStep] at h
  split at h
  · rename_i wait _
    cases h
    rintro ⟨wait', hwait⟩
    cases wait <;> cases hwait
  · cases h

theorem asleep_step {action : Action} (hc : s.controller.Consistent) (hasleep : s.LockFree)
    (h : step σ s action = .ok s') (hother : sleeper.wakes action = false) :
    (WaitOver s' → WaitOver s ∨ s'.controller.Notifying) ∧
      (s.controller.Notifying → sleeper.notifies action = true ∨ s'.controller.Notifying) := by
  obtain ⟨wait, hwait⟩ := hasleep
  cases action with
  | schedule => simp [step, scheduleStep, hwait] at h
  | wake => cases hother
  | processEnd id =>
      cases step_trans h with
      | processEnd hphase => exact ⟨.inl, fun hdue => .inr (hdue.processEnd hc hphase)⟩
  | complete id =>
      cases step_trans h with
      | complete _ hphase heffect =>
          have hdue := heffect.notifying hphase
          exact ⟨fun _ => .inr hdue, fun _ => .inr hdue⟩
  | notifyAll id =>
      cases step_trans h with
      | notifyAll => exact ⟨.inl, fun _ => .inl rfl⟩

theorem sleeper_served :
    sleeper.Served (system σ) WaitOver fun s => s.controller.Notifying where
  init := by
    rintro _ ⟨_, _, _, _, _, _, rfl⟩
    rfl
  wakes := by
    intro s i s' _ hstep hwakes
    cases i with
    | wake => exact decide_eq_false (awake_of_wake hstep)
    | _ => cases hwakes
  sleeps s i s' _ hstep hawake := not_waitOver_of_awake hstep (of_decide_eq_false hawake)
  others s i s' hs hstep hasleep hother :=
    asleep_step (reachable_wellFormed hs).consistent (of_decide_eq_true hasleep) hstep hother

end Steps

end MultiAppConsec

namespace MultiApp

/-- What a sleeping scheduler waits for: a change is worth waking up for where the
overload is gone or can be swapped away. -/
def Wait.Over (σ : Settings) (s : State) : Wait → Prop
  | .ressource job => s.controller.ressourceAvailable job.reqCpus 1 = .ok true
  | .change id config => ∃ marked, Check s config marked ∧ (marked = [] ∨ ¬ NoSwap σ s id marked)
  | .done => Controller.allFree s.controller.systemConfig s.controller.machineUsage = .ok true

def sleeper : Sleeper State Action where
  asleep s := decide s.LockFree
  wakes
    | .wake => true
    | _ => false
  notifies
    | .notifyAll _ => true
    | _ => false

/-- The scheduler sleeps although what it waits for holds. -/
def WaitOver (σ : Settings) (s : State) : Prop := ∃ wait, s.pc = .asleep wait ∧ wait.Over σ s

section Steps

variable {σ : Settings} {s s' : State}

theorem not_waitOver_of_awake {action : Action} (h : step σ s action = .ok s')
    (hawake : ¬ s.LockFree) : ¬ WaitOver σ s' := by
  rintro ⟨wait, hwait, hover⟩
  cases step_trans h with
  | wake hpc | complete hpc | waiterWait hpc | waiterThaw hpc | waiterSleep hpc =>
      exact absurd ⟨_, hpc⟩ hawake
  | processEnd | notifyAll => exact hawake ⟨wait, hwait⟩
  | noRessource _ hnone =>
      cases hwait
      cases hnone.symm.trans hover
  | notDone _ hfree =>
      cases hwait
      cases hfree.symm.trans hover
  | stillFrozen _ hcheck hmarked hnone | freeze _ hcheck hmarked hnone =>
      cases hwait
      obtain ⟨marked', hcheck', hover⟩ := hover
      obtain rfl := Except.ok.inj (hcheck.symm.trans hcheck')
      exact hover.elim hmarked fun hsome => hsome hnone
  | _ => cases hwait

theorem awake_of_wake (h : wakeStep s = .ok s') : ¬ s'.LockFree := by
  rw [wakeStep] at h
  split at h
  · rename_i wait _
    cases h
    rintro ⟨wait', hwait⟩
    cases wait <;> cases hwait
  · cases h

theorem asleep_step {action : Action} (hc : s.controller.Consistent) (hasleep : s.LockFree)
    (h : step σ s action = .ok s') (hother : sleeper.wakes action = false) :
    (WaitOver σ s' → WaitOver σ s ∨ s'.controller.Notifying) ∧
      (s.controller.Notifying → sleeper.notifies action = true ∨ s'.controller.Notifying) := by
  obtain ⟨wait, hwait⟩ := hasleep
  cases action with
  | schedule r => simp [step, scheduleStep, hwait] at h
  | wake => cases hother
  | processEnd id =>
      cases step_trans h with
      | processEnd hphase => exact ⟨.inl, fun hdue => .inr (hdue.processEnd hc hphase)⟩
  | complete id =>
      cases step_trans h with
      | complete _ hphase heffect =>
          have hdue := heffect.notifying hphase
          exact ⟨fun _ => .inr hdue, fun _ => .inr hdue⟩
  | notifyAll id =>
      cases step_trans h with
      | notifyAll => exact ⟨.inl, fun _ => .inl rfl⟩
  | waiterWait index =>
      cases step_trans h with
      | waiterWait => exact ⟨.inl, .inr⟩
  | waiterWake index =>
      cases step_trans h with
      | waiterThaw | waiterSleep => exact ⟨.inl, .inr⟩

theorem sleeper_served :
    sleeper.Served (system σ) (WaitOver σ) fun s => s.controller.Notifying where
  init := by
    rintro _ ⟨_, _, _, _, _, _, rfl⟩
    rfl
  wakes := by
    intro s i s' _ hstep hwakes
    cases i with
    | wake => exact decide_eq_false (awake_of_wake hstep)
    | _ => cases hwakes
  sleeps s i s' _ hstep hawake := not_waitOver_of_awake hstep (of_decide_eq_false hawake)
  others s i s' hs hstep hasleep hother :=
    asleep_step (reachable_wellFormed hs).consistent (of_decide_eq_true hasleep) hstep hother

end Steps

end MultiApp

end Poncos
