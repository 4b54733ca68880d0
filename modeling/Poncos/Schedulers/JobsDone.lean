import Poncos.Controller.JobQueue
import Poncos.MultiApp.WellFormed
import Poncos.MultiAppConsec.Schedule
import Poncos.TwoApp.Transitions

/-!
The three schedulers are users of the controller: a run of `schedule` takes the
jobs of the queue in order and makes only admissible calls.  So no job is lost or
completed twice, on any number of slots.
-/

namespace Poncos

open Poncos.Library
open Poncos.Library.Execution
open Poncos.Library.Transition
open Poncos.Controller

namespace MultiApp

variable {σ : Settings} {s s' : State}

/-- The ids the locked block of a completion and the callback were run with. -/
def completions (_ : State) : Action → List Nat → List Nat
  | .complete id, completed => completed ++ [id]
  | _, completed => completed

/-- Runs of `schedule` with one queue, on any system. -/
def jobRuns (σ : Settings) (machines : List String) (systemConfig : SystemConfig)
    (vmLocations : Vm.VmLocations) (jobs : List Job) : System (State × List Nat) Action :=
  ((system σ).startingAt (start machines systemConfig vmLocations jobs)).withHistory []
    completions

/-- The job that was taken from the queue and is not executed yet. -/
def Pc.pending : Pc → List Job
  | .waitRessource job => [job]
  | .select job => [job]
  | .asleep (.ressource job) => [job]
  | _ => []

def clientState (s : State × List Nat) : JobQueue.State where
  controller := s.1.controller
  queue := s.1.pc.pending ++ s.1.queue
  completed := s.2
  returned := decide (s.1.pc = .finished)

theorem firstFree_mem {mu : SlotAllocation} {slots : List Nat} {slot : Nat}
    (h : firstFree mu slots = .ok (some slot)) : slot ∈ slots := by
  induction slots with
  | nil => cases h
  | cons t rest ih =>
      simp only [firstFree, bind_eq_ok] at h
      obtain ⟨owner, _, h⟩ := h
      split at h
      · cases h
        exact List.mem_cons_self
      · exact List.mem_cons_of_mem t (ih h)

theorem selectSlots_slots {slots slotSize reqCpus m : Nat} {usage : MachineUsage}
    {picked config : ExecuteConfig} (hpicked : ∀ p ∈ picked, p.2 < slots)
    (h : selectSlots slots slotSize reqCpus m usage picked = .ok config) :
    ∀ p ∈ config, p.2 < slots := by
  induction usage generalizing m picked with
  | nil =>
      cases h
      exact hpicked
  | cons mu rest ih =>
      simp only [selectSlots, bind_eq_ok] at h
      obtain ⟨free, hfree, h⟩ := h
      cases free with
      | none =>
          dsimp only at h
          split at h
          · cases h
            exact hpicked
          · exact ih hpicked h
      | some slot =>
          have hslot := List.mem_range.mp (firstFree_mem hfree)
          have hmore : ∀ p ∈ picked ++ [(m, slot)], p.2 < slots := by
            intro p hp
            rcases List.mem_append.mp hp with hp | hp
            · exact hpicked p hp
            · rw [List.mem_singleton.mp hp]
              exact hslot
          dsimp only at h
          split at h
          · cases h
            exact hmore
          · exact ih hmore h

/-- Where the scheduler is behind a call of `generate_opposing_config`. -/
def Pc.Opposed : Pc → Prop
  | .runDistgen _ _ => True
  | .thawOpposing _ _ => True
  | .overload _ _ _ => True
  | .updateConfig _ _ _ _ => True
  | .asleep (.change _ _) => True
  | _ => False

/-- Where the scheduler has left its loop over the jobs. -/
def Pc.Drained : Pc → Prop
  | .done => True
  | .asleep .done => True
  | .finished => True
  | _ => False

theorem Trans.systemConfig {action : Action} (h : Trans σ s action s') :
    s'.controller.systemConfig = s.controller.systemConfig := by
  cases h with
  | select _ _ heffect => exact heffect.systemConfig
  | complete _ _ heffect => exact heffect.systemConfig
  | updateConfig _ hupdate =>
      obtain ⟨_, hok⟩ := Vm.updateConfig_ok hupdate
      exact (updateConfig_frame hok.base).2.1
  | _ => rfl

/-- What the calls of the scheduler rest on; jobs are moved with two slots only. -/
structure CallsOk (s : State) : Prop where
  drained : s.pc.Drained → s.queue = []
  opposed : s.pc.Opposed → s.controller.systemConfig.slots.length = 2
  wellFormed : s.controller.systemConfig.slots.length = 2 → WellFormed s

theorem CallsOk.trans {action : Action} (h : CallsOk s) (ht : Trans σ s action s') :
    CallsOk s' := by
  have hslots := ht.systemConfig
  refine ⟨?_, ?_, fun h2 => (h.wellFormed (by rw [← hslots]; exact h2)).trans ht⟩
  · intro hdrained
    cases ht with
    | lastJob _ hqueue => exact hqueue
    | allDone hpc | notDone hpc => exact h.drained (by rw [hpc]; trivial)
    | @wake wait hpc =>
        cases wait with
        | done => exact h.drained (by rw [hpc]; trivial)
        | ressource job => cases hdrained
        | change id config => cases hdrained
    | processEnd | complete | notifyAll | waiterWait | waiterThaw | waiterSleep =>
        exact h.drained hdrained
    | _ => cases hdrained
  · intro hopposed
    rw [hslots]
    cases ht with
    | freezeOpposing _ hfreeze =>
        simp only [Controller.freezeOpposing, Controller.generateOpposingConfig, bind_eq_ok,
          ensure_eq_ok] at hfreeze
        obtain ⟨_, ⟨_, _, _, h2, _⟩, _⟩ := hfreeze
        exact h2
    | runDistgen hpc | thawOpposing hpc | swap hpc | stillFrozen hpc | freeze hpc =>
        exact h.opposed (by rw [hpc]; trivial)
    | @wake wait hpc =>
        cases wait with
        | change id config => exact h.opposed (by rw [hpc]; trivial)
        | ressource job => cases hopposed
        | done => cases hopposed
    | processEnd | complete | notifyAll | waiterWait | waiterThaw | waiterSleep =>
        exact h.opposed hopposed
    | _ => cases hopposed

/-- A step of the scheduler is a call of the controller, or none. -/
theorem clientState_step (h : CallsOk s) {completed : List Nat} {action : Action}
    (hstep : step σ s action = .ok s') :
    clientState (s', completions s action completed) = clientState (s, completed) ∨
      ∃ k, JobQueue.Admissible (clientState (s, completed)) k ∧
        JobQueue.step (clientState (s, completed)) k =
          .ok (clientState (s', completions s action completed)) := by
  cases step_trans hstep with
  | nextJob hpc hqueue => simp [clientState, completions, hpc, hqueue, Pc.pending]
  | @select _ job _ _ _ hpc =>
      right
      simp only [step, scheduleStep, hpc, bind_eq_ok, Prod.exists] at hstep
      obtain ⟨config, hselect, _, _, c, id, hexecute, hs'⟩ := hstep
      cases hs'
      have hqueue : (clientState (s, completed)).queue = job :: s.queue := by
        simp [clientState, hpc, Pc.pending]
      refine ⟨.execute (σ.generateCommand s.vmLocations) _,
        selectSlots_slots (by simp) hselect, ?_⟩
      rw [JobQueue.step_execute hqueue hexecute]
      simp [clientState, completions, hpc, Pc.pending]
  | @updateConfig _ id config oldConfig newConfig _ _ _ _ hpc hupdate =>
      right
      have hslots := h.opposed (by rw [hpc]; trivial)
      have hwf := h.wellFormed hslots
      have hcurrent := hwf.current id config (by rw [hpc]; rfl)
      obtain ⟨_, hok⟩ := Vm.updateConfig_ok hupdate
      refine ⟨.updateConfig id newConfig, ⟨hcurrent.movable, ?_⟩, ?_⟩
      · intro p hp
        rw [clientState, hslots]
        exact (updateConfig_range hwf.usage hok.base p hp).2
      · rw [JobQueue.step_updateConfig hok.base]
        simp [clientState, completions, hpc, Pc.pending]
  | allDone hpc hfree =>
      right
      have hqueue := h.drained (by rw [hpc]; trivial)
      refine ⟨.done, trivial, ?_⟩
      rw [JobQueue.step_done (by simp [clientState, hpc, hqueue, Pc.pending]) hfree]
      simp [clientState, completions, hpc, Pc.pending]
  | processEnd hphase =>
      exact .inr ⟨.processEnd _, trivial, JobQueue.step_processEnd hphase⟩
  | complete hpc hphase =>
      simp only [step, completeStep, bind_eq_ok, require_eq_ok] at hstep
      obtain ⟨_, _, _, _, c, hcomplete, util, _, hs'⟩ := hstep
      cases hs'
      exact .inr ⟨.complete _, trivial, JobQueue.step_complete hphase hcomplete⟩
  | notifyAll hphase =>
      exact .inr ⟨.notifyAll _, trivial, JobQueue.step_notifyAll hphase⟩
  | @wake wait hpc =>
      left
      cases wait <;> simp [clientState, completions, hpc, Wait.resume, Pc.pending]
  | waiterWait hpc | waiterThaw hpc | waiterSleep hpc => left; rfl
  | lastJob hpc | ressource hpc | noRessource hpc | freezeOpposing hpc | runDistgen hpc
  | thawOpposing hpc | fits hpc | swap hpc | stillFrozen hpc | freeze hpc
  | freezeDetach hpc | notDone hpc =>
      simp [clientState, completions, hpc, Pc.pending]

theorem jobRuns_callsOk {machines : List String} {systemConfig : SystemConfig}
    {vmLocations : Vm.VmLocations} {jobs : List Job}
    (hs : ((system σ).startingAt (start machines systemConfig vmLocations jobs)).Reachable s) :
    CallsOk s := by
  refine hs.invariant ?_ ?_
  · rintro s rfl
    exact ⟨by rintro ⟨⟩, by rintro ⟨⟩, .start⟩
  · intro s action s' _ h _ hstep
    exact h.trans (step_trans hstep)

theorem jobRuns_refines (σ : Settings) (machines : List String) (systemConfig : SystemConfig)
    (vmLocations : Vm.VmLocations) (jobs : List Job) :
    (jobRuns σ machines systemConfig vmLocations jobs).Refines (JobQueue.system jobs)
      JobQueue.Admissible clientState := by
  refine ⟨?_, ?_⟩
  · rintro ⟨s, completed⟩ ⟨rfl, rfl⟩
    exact ⟨machines, systemConfig, rfl⟩
  · intro s action s' hs hstep
    obtain ⟨t, ht, rfl⟩ := map_eq_ok.mp hstep
    exact clientState_step (jobRuns_callsOk (System.forget_reachable hs)) ht

end MultiApp

namespace TwoApp

variable {σ : Settings} {s s' : State}

def completions (_ : State) : Action → List Nat → List Nat
  | .complete id, completed => completed ++ [id]
  | _, completed => completed

def jobRuns (σ : Settings) (machines : List String) (systemConfig : SystemConfig)
    (vmLocations : Vm.VmLocations) (jobs : List Job) : System (State × List Nat) Action :=
  ((system σ).startingAt (start machines systemConfig vmLocations jobs)).withHistory []
    completions

def Pc.pending : Pc → List Job
  | .waitRessource job => [job]
  | .select job => [job]
  | .asleep (.ressource job) => [job]
  | _ => []

def clientState (s : State × List Nat) : JobQueue.State where
  controller := s.1.controller
  queue := s.1.pc.pending ++ s.1.queue
  completed := s.2
  returned := decide (s.1.pc = .finished)

def Pc.Drained : Pc → Prop
  | .done => True
  | .asleep .done => True
  | .finished => True
  | _ => False

theorem drained_trans {action : Action} (h : s.pc.Drained → s.queue = [])
    (ht : Trans σ s action s') : s'.pc.Drained → s'.queue = [] := by
  intro hdrained
  cases ht with
  | lastJob _ hqueue => exact hqueue
  | allDone hpc | notDone hpc => exact h (by rw [hpc]; trivial)
  | @wake wait hpc =>
      cases wait with
      | done => exact h (by rw [hpc]; trivial)
      | ressource job => cases hdrained
      | frozen job id newSlot => cases hdrained
  | processEnd | complete | notifyAll => exact h hdrained
  | _ => cases hdrained

theorem select_client {completed : List Nat} {job : Job} {r : List ℚ}
    (hpc : s.pc = .select job) (hstep : step σ s (.schedule r) = .ok s') :
    ∃ k, JobQueue.Admissible (clientState (s, completed)) k ∧
      JobQueue.step (clientState (s, completed)) k = .ok (clientState (s', completed)) := by
  simp only [step, scheduleStep, hpc, bind_eq_ok] at hstep
  obtain ⟨free, hsearch, hstep⟩ := hstep
  cases free with
  | none => cases hstep
  | some newSlot =>
      simp only [bind_eq_ok, Prod.exists] at hstep
      obtain ⟨_, _, c, id, hexecute, hstep⟩ := hstep
      cases hstep
      have hqueue : (clientState (s, completed)).queue = job :: s.queue := by
        simp [clientState, hpc, Pc.pending]
      refine ⟨.execute (σ.generateCommand s.vmLocations)
        (fullConfig s.controller.machines.length newSlot), ?_, ?_⟩
      · intro p hp
        rw [(mem_fullConfig.mp hp).2]
        exact List.mem_range.mp (searchSlot_spec hsearch).1
      · rw [JobQueue.step_execute hqueue hexecute]
        simp [clientState, hpc, Pc.pending]

theorem clientState_step (h : s.pc.Drained → s.queue = []) {completed : List Nat}
    {action : Action} (hstep : step σ s action = .ok s') :
    clientState (s', completions s action completed) = clientState (s, completed) ∨
      ∃ k, JobQueue.Admissible (clientState (s, completed)) k ∧
        JobQueue.step (clientState (s, completed)) k =
          .ok (clientState (s', completions s action completed)) := by
  cases step_trans hstep with
  | nextJob hpc hqueue => simp [clientState, completions, hpc, hqueue, Pc.pending]
  | select hpc => exact .inr (select_client hpc hstep)
  | allDone hpc =>
      right
      have hqueue := h (by rw [hpc]; trivial)
      simp only [step, scheduleStep, hpc, bind_eq_ok] at hstep
      obtain ⟨free, hfree, hs'⟩ := hstep
      cases free with
      | false => cases hs'
      | true =>
          refine ⟨.done, trivial, ?_⟩
          rw [JobQueue.step_done (by simp [clientState, hpc, hqueue, Pc.pending]) hfree]
          simp [clientState, completions, hpc, Pc.pending]
  | processEnd hphase =>
      exact .inr ⟨.processEnd _, trivial, JobQueue.step_processEnd hphase⟩
  | complete hpc hphase =>
      simp only [step, completeStep, commandDone, bind_eq_ok, require_eq_ok] at hstep
      obtain ⟨_, _, _, _, c, hcomplete, _, _, _, _, hs'⟩ := hstep
      cases hs'
      exact .inr ⟨.complete _, trivial, JobQueue.step_complete hphase hcomplete⟩
  | notifyAll hphase =>
      exact .inr ⟨.notifyAll _, trivial, JobQueue.step_notifyAll hphase⟩
  | @wake wait hpc =>
      left
      cases wait <;> simp [clientState, completions, hpc, Wait.resume, Pc.pending]
  | lastJob hpc | ressource hpc | noRessource hpc | freezeOpposing hpc | alone hpc
  | runDistgen hpc | thawOpposing hpc | stillAlone hpc | fits hpc | freeze hpc
  | available hpc | notAvailable hpc | thaw hpc | notDone hpc =>
      simp [clientState, completions, hpc, Pc.pending]

theorem jobRuns_drained {machines : List String} {systemConfig : SystemConfig}
    {vmLocations : Vm.VmLocations} {jobs : List Job}
    (hs : ((system σ).startingAt (start machines systemConfig vmLocations jobs)).Reachable s) :
    s.pc.Drained → s.queue = [] := by
  refine hs.invariant (P := fun s => s.pc.Drained → s.queue = []) ?_ ?_
  · rintro s rfl ⟨⟩
  · intro s action s' _ h _ hstep
    exact drained_trans h (step_trans hstep)

theorem jobRuns_refines (σ : Settings) (machines : List String) (systemConfig : SystemConfig)
    (vmLocations : Vm.VmLocations) (jobs : List Job) :
    (jobRuns σ machines systemConfig vmLocations jobs).Refines (JobQueue.system jobs)
      JobQueue.Admissible clientState := by
  refine ⟨?_, ?_⟩
  · rintro ⟨s, completed⟩ ⟨rfl, rfl⟩
    exact ⟨machines, systemConfig, rfl⟩
  · intro s action s' hs hstep
    obtain ⟨t, ht, rfl⟩ := map_eq_ok.mp hstep
    exact clientState_step (jobRuns_drained (System.forget_reachable hs)) ht

end TwoApp

namespace MultiAppConsec

variable {σ : Settings} {s s' : State}

def completions (_ : State) : Action → List Nat → List Nat
  | .complete id, completed => completed ++ [id]
  | _, completed => completed

def jobRuns (σ : Settings) (machines : List String) (systemConfig : SystemConfig)
    (vmLocations : Vm.VmLocations) (jobs : List Job) : System (State × List Nat) Action :=
  ((system σ).startingAt (start machines systemConfig vmLocations jobs)).withHistory []
    completions

def Pc.pending : Pc → List Job
  | .waitRessource job => [job]
  | .select job => [job]
  | .asleep (.ressource job) => [job]
  | _ => []

def clientState (s : State × List Nat) : JobQueue.State where
  controller := s.1.controller
  queue := s.1.pc.pending ++ s.1.queue
  completed := s.2
  returned := decide (s.1.pc = .finished)

def Pc.Drained : Pc → Prop
  | .done => True
  | .asleep .done => True
  | .finished => True
  | _ => False

theorem drained_trans {action : Action} (h : s.pc.Drained → s.queue = [])
    (ht : Trans σ s action s') : s'.pc.Drained → s'.queue = [] := by
  intro hdrained
  cases ht with
  | lastJob _ hqueue => exact hqueue
  | allDone hpc | notDone hpc => exact h (by rw [hpc]; trivial)
  | @wake wait hpc =>
      cases wait with
      | done => exact h (by rw [hpc]; trivial)
      | ressource job => cases hdrained
  | processEnd | complete | notifyAll => exact h hdrained
  | _ => cases hdrained

theorem selectNodes_slots {slots slotSize reqCpus m : Nat} {usage : MachineUsage}
    {picked config : ExecuteConfig} (hpicked : ∀ p ∈ picked, p.2 < slots)
    (h : selectNodes slots slotSize reqCpus m usage picked = .ok config) :
    ∀ p ∈ config, p.2 < slots := by
  induction usage generalizing m picked with
  | nil =>
      cases h
      exact hpicked
  | cons mu rest ih =>
      simp only [selectNodes, bind_eq_ok] at h
      obtain ⟨first, _, second, _, _, _, h⟩ := h
      have hmore : ∀ p ∈ (if first = none then
          picked ++ (List.range slots).map fun s => (m, s) else picked), p.2 < slots := by
        clear h
        split
        · intro p hp
          rcases List.mem_append.mp hp with hp | hp
          · exact hpicked p hp
          · obtain ⟨slot, hslot, rfl⟩ := List.mem_map.mp hp
            exact List.mem_range.mp hslot
        · exact hpicked
      generalize (if first = none then picked ++ (List.range slots).map fun s => (m, s)
        else picked) = picked' at h hmore
      split at h
      · cases h
        exact hmore
      · exact ih hmore h

theorem clientState_step (h : s.pc.Drained → s.queue = []) {completed : List Nat}
    {action : Action} (hstep : step σ s action = .ok s') :
    clientState (s', completions s action completed) = clientState (s, completed) ∨
      ∃ k, JobQueue.Admissible (clientState (s, completed)) k ∧
        JobQueue.step (clientState (s, completed)) k =
          .ok (clientState (s', completions s action completed)) := by
  cases step_trans hstep with
  | nextJob hpc hqueue => simp [clientState, completions, hpc, hqueue, Pc.pending]
  | @select job _ _ _ hpc =>
      right
      simp only [step, scheduleStep, hpc, bind_eq_ok, Prod.exists] at hstep
      obtain ⟨config, hselect, _, _, c, id, hexecute, hs'⟩ := hstep
      cases hs'
      have hqueue : (clientState (s, completed)).queue = job :: s.queue := by
        simp [clientState, hpc, Pc.pending]
      refine ⟨.execute (σ.generateCommand s.vmLocations) config,
        selectNodes_slots (by simp) hselect, ?_⟩
      rw [JobQueue.step_execute hqueue hexecute]
      simp [clientState, completions, hpc, Pc.pending]
  | allDone hpc hfree =>
      right
      have hqueue := h (by rw [hpc]; trivial)
      refine ⟨.done, trivial, ?_⟩
      rw [JobQueue.step_done (by simp [clientState, hpc, hqueue, Pc.pending]) hfree]
      simp [clientState, completions, hpc, Pc.pending]
  | processEnd hphase =>
      exact .inr ⟨.processEnd _, trivial, JobQueue.step_processEnd hphase⟩
  | complete hpc hphase =>
      simp only [step, completeStep, bind_eq_ok, require_eq_ok] at hstep
      obtain ⟨_, _, _, _, c, hcomplete, hs'⟩ := hstep
      cases hs'
      exact .inr ⟨.complete _, trivial, JobQueue.step_complete hphase hcomplete⟩
  | notifyAll hphase =>
      exact .inr ⟨.notifyAll _, trivial, JobQueue.step_notifyAll hphase⟩
  | @wake wait hpc =>
      left
      cases wait <;> simp [clientState, completions, hpc, Wait.resume, Pc.pending]
  | lastJob hpc | ressource hpc | noRessource hpc | notDone hpc =>
      simp [clientState, completions, hpc, Pc.pending]

theorem jobRuns_drained {machines : List String} {systemConfig : SystemConfig}
    {vmLocations : Vm.VmLocations} {jobs : List Job}
    (hs : ((system σ).startingAt (start machines systemConfig vmLocations jobs)).Reachable s) :
    s.pc.Drained → s.queue = [] := by
  refine hs.invariant (P := fun s => s.pc.Drained → s.queue = []) ?_ ?_
  · rintro s rfl ⟨⟩
  · intro s action s' _ h _ hstep
    exact drained_trans h (step_trans hstep)

theorem jobRuns_refines (σ : Settings) (machines : List String) (systemConfig : SystemConfig)
    (vmLocations : Vm.VmLocations) (jobs : List Job) :
    (jobRuns σ machines systemConfig vmLocations jobs).Refines (JobQueue.system jobs)
      JobQueue.Admissible clientState := by
  refine ⟨?_, ?_⟩
  · rintro ⟨s, completed⟩ ⟨rfl, rfl⟩
    exact ⟨machines, systemConfig, rfl⟩
  · intro s action s' hs hstep
    obtain ⟨t, ht, rfl⟩ := map_eq_ok.mp hstep
    exact clientState_step (jobRuns_drained (System.forget_reachable hs)) ht

end MultiAppConsec

/-- No job is lost or completed twice: where `done` has returned, every job of the
queue was executed once, in order, and completed once, whatever slots it was placed
on and moved to; and each of the schedulers is such a user of the controller. -/
theorem jobs_done (jobs : List Job) :
    (∀ s, (JobQueue.system jobs).ReachableVia JobQueue.Admissible s → s.returned = true →
      JobQueue.JobsDone jobs s.controller s.completed) ∧
    (∀ σ machines systemConfig vmLocations s,
      (MultiApp.jobRuns σ machines systemConfig vmLocations jobs).Reachable s →
      s.1.pc = .finished → JobQueue.JobsDone jobs s.1.controller s.2) ∧
    (∀ σ machines systemConfig vmLocations s,
      (TwoApp.jobRuns σ machines systemConfig vmLocations jobs).Reachable s →
      s.1.pc = .finished → JobQueue.JobsDone jobs s.1.controller s.2) ∧
    ∀ σ machines systemConfig vmLocations s,
      (MultiAppConsec.jobRuns σ machines systemConfig vmLocations jobs).Reachable s →
      s.1.pc = .finished → JobQueue.JobsDone jobs s.1.controller s.2 := by
  have hlaw : ∀ s, (JobQueue.system jobs).ReachableVia JobQueue.Admissible s →
      s.returned = true → JobQueue.JobsDone jobs s.controller s.completed :=
    fun s hs hreturned => (JobQueue.reachable_accounted hs).jobsDone hreturned
  refine ⟨hlaw, ?_, ?_, ?_⟩
  · intro σ machines systemConfig vmLocations s hs hpc
    have := (MultiApp.jobRuns_refines σ machines systemConfig vmLocations jobs).reachable hs
    exact hlaw _ this (decide_eq_true hpc)
  · intro σ machines systemConfig vmLocations s hs hpc
    have := (TwoApp.jobRuns_refines σ machines systemConfig vmLocations jobs).reachable hs
    exact hlaw _ this (decide_eq_true hpc)
  · intro σ machines systemConfig vmLocations s hs hpc
    have := (MultiAppConsec.jobRuns_refines σ machines systemConfig vmLocations
      jobs).reachable hs
    exact hlaw _ this (decide_eq_true hpc)

/-- Two jobs whose slots are exchanged on the way; the second one completes first. -/
theorem jobs_done_swapped : ∃ s : MultiApp.State × List Nat, s.1.pc = .finished ∧
    s.2 = [1, 0] ∧ s.1.controller.idToConfig = [[(0, 0), (0, 1)], [(1, 0), (1, 1)]] ∧
    JobQueue.JobsDone [⟨2, 1, "x", true⟩, ⟨2, 1, "y", true⟩] s.1.controller s.2 := by
  have hrun : ((MultiApp.jobRuns (MultiApp.plainSettings .vm) ["a", "b"]
      ⟨[⟨[0], []⟩, ⟨[1], []⟩]⟩ [["vm0", "vm1"], ["vm2", "vm3"]]
      [⟨2, 1, "x", true⟩, ⟨2, 1, "y", true⟩]).run
      (MultiApp.twoMachines .vm [⟨2, 1, "x", true⟩, ⟨2, 1, "y", true⟩], [])
      (MultiApp.placeJob [7 / 10, 9 / 10] ++ [.schedule []] ++
        MultiApp.placeJob [35 / 100, 8 / 10] ++ [.schedule [], .schedule []] ++
        [.schedule [], .schedule [], .processEnd 1, .complete 1, .processEnd 0,
         .complete 0, .notifyAll 0, .wake, .schedule []])).map
      (fun s => (s.1.pc, s.2, s.1.controller.idToConfig)) =
      .ok (.finished, [1, 0], [[(0, 0), (0, 1)], [(1, 0), (1, 1)]]) := by
    decide +kernel
  obtain ⟨s, hrun, heq⟩ := map_eq_ok.mp hrun
  obtain ⟨hpc, heq⟩ := Prod.mk.inj heq
  obtain ⟨hcompleted, hconfigs⟩ := Prod.mk.inj heq
  refine ⟨s, hpc, hcompleted, hconfigs, (jobs_done _).2.1 _ _ _ _ s
    (System.run_reachable (fun _ _ => trivial) ?_ hrun) hpc⟩
  exact .init ⟨rfl, rfl⟩

end Poncos
