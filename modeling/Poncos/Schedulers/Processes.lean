import Poncos.Controller.GenerateCommand
import Poncos.MultiAppConsec.ExclusiveNodes
import Poncos.Schedulers.JobsDone

/-!
The processes a job runs with.  The control group controller starts as many as fit
into the slots that were granted.  Two of the schedulers grant exactly what the job
asks for; the third one grants whole machines, and a job that does not fill them runs
with more processes than it asked for.
-/

namespace Poncos

open Poncos.Library
open Poncos.Library.Execution
open Poncos.Library.Transition
open Poncos.Controller

def TwoApp.cgroupSettings : TwoApp.Settings := ⟨.cgroup, fun _ => Cgroup.generateCommand⟩

def MultiApp.cgroupSettings (sorter : StdSort Nat) : MultiApp.Settings :=
  ⟨sorter, .cgroup, fun _ => Cgroup.generateCommand⟩

def MultiAppConsec.cgroupSettings : MultiAppConsec.Settings :=
  ⟨.cgroup, fun _ => Cgroup.generateCommand⟩

namespace TwoApp

/-- Jobs are admitted only if they ask for one slot of every machine. -/
theorem pending_reqCpus {σ : Settings} {s : State} (hs : (system σ).Reachable s) :
    ∀ job ∈ s.pc.pending, job.reqCpus =
      s.controller.machines.length * s.controller.systemConfig.slotSize := by
  refine hs.invariant (P := fun s => ∀ job ∈ s.pc.pending, job.reqCpus =
    s.controller.machines.length * s.controller.systemConfig.slotSize) ?_ ?_
  · rintro s ⟨_, _, _, _, _, _, rfl⟩ job hjob
    cases hjob
  · intro s action s' _ h _ hstep job hjob
    cases step_trans hstep with
    | nextJob _ _ hcpus =>
        rw [List.mem_singleton.mp hjob]
        exact hcpus
    | ressource hpc | noRessource hpc => exact h job (by rw [hpc]; exact hjob)
    | @wake wait hpc =>
        refine h job ?_
        rw [hpc]
        cases wait with
        | ressource job => exact hjob
        | frozen job id newSlot => cases hjob
        | done => cases hjob
    | processEnd | notifyAll => exact h job hjob
    | complete _ _ heffect =>
        rw [heffect.machines, heffect.systemConfig]
        exact h job hjob
    | _ => cases hjob

end TwoApp

namespace MultiAppConsec

end MultiAppConsec

section Selected

variable {c c' : Controller} {job : Job} {config : ExecuteConfig} {id : Nat}

end Selected

end Poncos
