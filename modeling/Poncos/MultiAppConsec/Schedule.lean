import Poncos.Controller.Suspension
import Poncos.Controller.TableRuns
import Poncos.Controller.Threads
import Poncos.Library.Transition

/-!
`multi_app_sched_consec::schedule` with its controller, under one lock: every job
takes whole machines, as many as it needs, and nothing is measured or frozen.
-/

namespace Poncos.MultiAppConsec

open Poncos.Library
open Poncos.Library.Execution
open Poncos.Library.Transition
open Poncos.Controller

/-- What a run leaves open: the controller, and the command line it makes up. -/
structure Settings where
  backend : Backend
  generateCommand : Vm.VmLocations → CommandGenerator

inductive Wait where
  | ressource (job : Job)
  | done
  deriving DecidableEq, Repr

inductive Pc where
  | nextJob
  | waitRessource (job : Job)
  | select (job : Job)
  | done
  | asleep (wait : Wait)
  | finished
  deriving DecidableEq, Repr

structure State where
  controller : Controller
  vmLocations : Vm.VmLocations
  queue : List Job
  pc : Pc
  deriving DecidableEq, Repr

def State.LockFree (s : State) : Prop := ∃ wait, s.pc = .asleep wait

instance (s : State) : Decidable s.LockFree :=
  match h : s.pc with
  | .asleep wait => isTrue ⟨wait, h⟩
  | .nextJob | .waitRessource _ | .select _ | .done | .finished =>
      isFalse fun ⟨_, hw⟩ => by simp [h] at hw

inductive Action where
  | schedule
  | wake
  | processEnd (id : Nat)
  | complete (id : Nat)
  | notifyAll (id : Nat)
  deriving Repr

def start (machines : List String) (systemConfig : SystemConfig)
    (vmLocations : Vm.VmLocations) (queue : List Job) : State where
  controller := Controller.create machines systemConfig
  vmLocations := vmLocations
  queue := queue
  pc := .nextJob

/-- The placement loop: all slots of every empty machine until the job fits. -/
def selectNodes (slots slotSize reqCpus : Nat) :
    Nat → MachineUsage → ExecuteConfig → Exec ExecuteConfig
  | _, [], config => .ok config
  | m, mu :: rest, config => do
      let first ← fetch mu 0
      let second ← fetch mu 1
      ensure (first = second)
      let config := if first = none then config ++ (List.range slots).map fun s => (m, s)
        else config
      if reqCpus ≤ config.length * slotSize then .ok config
      else selectNodes slots slotSize reqCpus (m + 1) rest config

variable (σ : Settings)

/-- The next step of the scheduler thread. -/
def scheduleStep (s : State) : Exec State :=
  let c := s.controller
  let slots := c.systemConfig.slots.length
  match s.pc with
  | .nextJob =>
      match s.queue with
      | [] => .ok { s with pc := .done }
      | job :: rest => do
          ensure (job.reqCpus ≤ c.machines.length * c.systemConfig.slotSize * slots)
          .ok { s with queue := rest, pc := .waitRessource job }
  | .waitRessource job => do
      let available ← c.ressourceAvailable job.reqCpus slots
      .ok { s with pc := if available then .select job else .asleep (.ressource job) }
  | .select job => do
      let config ← selectNodes slots c.systemConfig.slotSize job.reqCpus 0 c.machineUsage []
      ensure (job.reqCpus ≤ config.length * c.systemConfig.slotSize)
      let (c', _) ← c.execute (σ.generateCommand s.vmLocations) job config
      .ok { s with controller := c', pc := .nextJob }
  | .done => do
      let free ← Controller.allFree c.systemConfig c.machineUsage
      .ok { s with pc := if free then .finished else .asleep .done }
  | .asleep _ => .error .disabled
  | .finished => .error .disabled

def Wait.resume : Wait → Pc
  | .ressource job => .waitRessource job
  | .done => .done

def wakeStep (s : State) : Exec State :=
  match s.pc with
  | .asleep wait => .ok { s with pc := wait.resume }
  | _ => .error .disabled

/-- The locked block of a completion thread; the callback does nothing. -/
def completeStep (id : Nat) (s : State) : Exec State := do
  require (Controller.InPhase s.controller id .ended)
  let c ← s.controller.executeCommandInternal id
  .ok { s with controller := c }

def step (s : State) : Action → Exec State
  | .schedule => scheduleStep σ s
  | .wake => wakeStep s
  | .processEnd id => do
      require (Controller.InPhase s.controller id .executing)
      .ok { s with controller := s.controller.setPhase id .ended }
  | .complete id => do
      require s.LockFree
      completeStep id s
  | .notifyAll id => do
      require (Controller.InPhase s.controller id .notifying)
      .ok { s with controller := s.controller.setPhase id .finished }

def system : System State Action where
  Init s := ∃ machines systemConfig vmLocations queue,
    systemConfig.slots.length = 2 ∧ VmsStarted machines σ.backend vmLocations ∧
      s = start machines systemConfig vmLocations queue
  step := step σ

def plainSettings (backend : Backend) : Settings := ⟨backend, fun _ _ _ _ _ => .ok ""⟩

def twoMachines : Backend → List Job → State
  | .vm => start ["a", "b"] ⟨[⟨[0], []⟩, ⟨[1], []⟩]⟩ [["vm0", "vm1"], ["vm2", "vm3"]]
  | .cgroup => start ["a", "b"] ⟨[⟨[0], []⟩, ⟨[1], []⟩]⟩ []

theorem twoMachines_init (backend : Backend) (queue : List Job) :
    (system (plainSettings backend)).Init (twoMachines backend queue) := by
  cases backend with
  | vm => exact ⟨_, _, _, _, rfl, ⟨⟨rfl, by decide⟩, by decide⟩, rfl⟩
  | cgroup => exact ⟨_, _, _, _, rfl, rfl, rfl⟩

/-- Everything one step can do. -/
inductive Trans (σ : Settings) (s : State) : Action → State → Prop
  | nextJob {job : Job} {rest : List Job} : s.pc = .nextJob → s.queue = job :: rest →
      Trans σ s .schedule { s with queue := rest, pc := .waitRessource job }
  | lastJob : s.pc = .nextJob → s.queue = [] →
      Trans σ s .schedule { s with pc := .done }
  | ressource {job : Job} : s.pc = .waitRessource job →
      s.controller.ressourceAvailable job.reqCpus s.controller.systemConfig.slots.length =
        .ok true →
      Trans σ s .schedule { s with pc := .select job }
  | noRessource {job : Job} : s.pc = .waitRessource job →
      Trans σ s .schedule { s with pc := .asleep (.ressource job) }
  | select {job : Job} {config : ExecuteConfig} {c : Controller} {id : Nat} :
      s.pc = .select job →
      selectNodes s.controller.systemConfig.slots.length
        s.controller.systemConfig.slotSize job.reqCpus 0 s.controller.machineUsage [] =
          .ok config →
      ExecuteEffect s.controller c job config id →
      Trans σ s .schedule { s with controller := c, pc := .nextJob }
  | allDone : s.pc = .done →
      Controller.allFree s.controller.systemConfig s.controller.machineUsage = .ok true →
      Trans σ s .schedule { s with pc := .finished }
  | notDone : s.pc = .done → Trans σ s .schedule { s with pc := .asleep .done }
  | wake {wait : Wait} : s.pc = .asleep wait →
      Trans σ s .wake { s with pc := wait.resume }
  | processEnd {id : Nat} : InPhase s.controller id .executing →
      Trans σ s (.processEnd id)
        { s with controller := s.controller.setPhase id .ended }
  | complete {id : Nat} {wait : Wait} {c : Controller} {config : ExecuteConfig} :
      s.pc = .asleep wait → InPhase s.controller id .ended →
      CompleteEffect s.controller c id config →
      Trans σ s (.complete id) { s with controller := c }
  | notifyAll {id : Nat} : InPhase s.controller id .notifying →
      Trans σ s (.notifyAll id)
        { s with controller := s.controller.setPhase id .finished }

section Inversion

variable {σ : Settings} {s s' : State}

theorem scheduleStep_trans (h : scheduleStep σ s = .ok s') : Trans σ s .schedule s' := by
  cases hpc : s.pc with
  | nextJob =>
      simp only [scheduleStep, hpc] at h
      split at h
      · rename_i hqueue
        cases h
        exact .lastJob hpc hqueue
      · rename_i job rest hqueue
        simp only [bind_eq_ok] at h
        obtain ⟨_, _, h⟩ := h
        cases h
        exact .nextJob hpc hqueue
  | waitRessource job =>
      simp only [scheduleStep, hpc, bind_eq_ok] at h
      obtain ⟨available, havailable, h⟩ := h
      cases h
      cases available with
      | true => exact .ressource hpc havailable
      | false => exact .noRessource hpc
  | select job =>
      simp only [scheduleStep, hpc, bind_eq_ok, Prod.exists] at h
      obtain ⟨config, hselect, _, _, c, id, hexecute, h⟩ := h
      cases h
      exact .select hpc hselect (execute_effect hexecute)
  | done =>
      simp only [scheduleStep, hpc, bind_eq_ok] at h
      obtain ⟨free, hfree, h⟩ := h
      cases h
      cases free with
      | true => exact .allDone hpc hfree
      | false => exact .notDone hpc
  | asleep wait => simp [scheduleStep, hpc] at h
  | finished => simp [scheduleStep, hpc] at h

theorem step_trans {action : Action} (h : step σ s action = .ok s') :
    Trans σ s action s' := by
  cases action with
  | schedule => exact scheduleStep_trans h
  | wake =>
      simp only [step, wakeStep] at h
      split at h
      · rename_i wait hpc
        cases h
        exact .wake hpc
      · cases h
  | processEnd id =>
      simp only [step, bind_eq_ok, require_eq_ok] at h
      obtain ⟨_, hphase, h⟩ := h
      cases h
      exact .processEnd hphase
  | complete id =>
      simp only [step, completeStep, bind_eq_ok, require_eq_ok] at h
      obtain ⟨_, ⟨wait, hpc⟩, _, hphase, c, hcomplete, h⟩ := h
      cases h
      obtain ⟨config, heffect⟩ := executeCommandInternal_effect hcomplete
      exact .complete hpc hphase heffect
  | notifyAll id =>
      simp only [step, bind_eq_ok, require_eq_ok] at h
      obtain ⟨_, hphase, h⟩ := h
      cases h
      exact .notifyAll hphase

end Inversion

structure WellFormed (s : State) : Prop where
  consistent : s.controller.Consistent
  slots : s.controller.systemConfig.slots.length = 2
  usage : s.controller.machineUsage.Rectangular s.controller.machines.length 2

theorem WellFormed.trans {σ : Settings} {s s' : State} {action : Action}
    (h : WellFormed s) (ht : Trans σ s action s') : WellFormed s' := by
  cases ht with
  | select _ _ heffect =>
      refine ⟨heffect.consistent h.consistent, ?_, ?_⟩
      · rw [heffect.systemConfig]
        exact h.slots
      · rw [heffect.machines]
        exact heffect.rectangular _ _ h.usage
  | processEnd hphase =>
      exact ⟨h.consistent.setPhase (running_setPhase_ended hphase), h.slots, h.usage⟩
  | complete _ hphase heffect =>
      refine ⟨heffect.consistent h.consistent (running_of_inPhase hphase (.inr rfl)), ?_, ?_⟩
      · rw [heffect.systemConfig]
        exact h.slots
      · rw [heffect.machines]
        exact heffect.rectangular _ _ h.usage
  | notifyAll hphase =>
      exact ⟨h.consistent.setPhase (running_setPhase_finished h.consistent hphase), h.slots,
        h.usage⟩
  | _ => exact ⟨h.consistent, h.slots, h.usage⟩

theorem reachable_wellFormed {σ : Settings} {guard : State → Action → Prop} {s : State}
    (hs : (system σ).ReachableVia guard s) : WellFormed s := by
  refine hs.invariant ?_ ?_
  · rintro s ⟨machines, systemConfig, _, _, hslots, _, rfl⟩
    exact ⟨create_consistent machines systemConfig, hslots,
      Grid.rectangular_replicate machines.length [none, none]⟩
  · intro s action s' _ hwf _ hstep
    exact hwf.trans (step_trans hstep)

end Poncos.MultiAppConsec
