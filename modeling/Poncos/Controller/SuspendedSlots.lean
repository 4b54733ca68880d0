import Poncos.Controller.Suspension
import Poncos.Controller.Threads

/-!
Where the suspended domains are.  Both schedulers suspend the occupied slots of one
config at a time, so all suspended domains are among those of a known config, and
a completion leaves them there as long as the completing job has none.
-/

namespace Poncos.Controller

open Poncos.Library
open Poncos.Library.Execution

/-- Every suspended domain is addressed through an occupied slot of the config. -/
def SuspendedWithin (backend : Backend) (c : Controller) (vmLocations : Vm.VmLocations)
    (log : List Message) (config : ExecuteConfig) : Prop :=
  ∀ d, suspended log d = true → ∃ p ∈ config, DomainAt backend c vmLocations p d

namespace SuspendedWithin

variable {backend : Backend} {c c' : Controller} {vmLocations vmLocations' : Vm.VmLocations}
  {log messages : List Message} {config : ExecuteConfig} {domains : List Domain}

theorem not_suspended (h : SuspendedWithin backend c vmLocations log []) (d : Domain) :
    suspended log d = false := by
  rw [Bool.eq_false_iff]
  intro hd
  obtain ⟨p, hp, _⟩ := h d hd
  simp at hp

/-- Where nothing is suspended the tables do not matter. -/
theorem of_nil (h : SuspendedWithin backend c vmLocations log []) :
    SuspendedWithin backend c' vmLocations' log config := by
  intro d hd
  rw [h.not_suspended d] at hd
  cases hd

theorem suspend (h : SuspendedWithin backend c vmLocations log [])
    (hsend : SendTo .suspend backend c vmLocations config domains messages) :
    SuspendedWithin backend c vmLocations (log ++ messages) config := by
  intro d hd
  rcases (suspended_append_suspend hsend d).mp hd with hd | haddressed
  · rw [h.not_suspended d] at hd
    cases hd
  · exact haddressed

theorem resume (h : SuspendedWithin backend c vmLocations log config)
    (hsend : SendTo .resume backend c vmLocations config domains messages) :
    SuspendedWithin backend c vmLocations (log ++ messages) [] := by
  intro d hd
  obtain ⟨hd, hnone⟩ := (suspended_append_resume hsend d).mp hd
  obtain ⟨p, hp, hdomain⟩ := h d hd
  exact absurd hdomain (hnone p hp)

theorem resume_other {config' : ExecuteConfig}
    (h : SuspendedWithin backend c vmLocations log config)
    (hsend : SendTo .resume backend c vmLocations config' domains messages) :
    SuspendedWithin backend c vmLocations (log ++ messages) config :=
  fun d hd => h d ((suspended_append_resume hsend d).mp hd).1

theorem migrate {tasks : List (String × Vm.Migrate)}
    (h : SuspendedWithin backend c vmLocations log []) :
    SuspendedWithin backend c' vmLocations'
      (log ++ tasks.map fun task => ⟨task.1, .migrate task.2⟩) [] := by
  intro d hd
  rw [suspended_append_migrate, h.not_suspended d] at hd
  cases hd

theorem complete (h : SuspendedWithin backend c vmLocations log config)
    (hc : c.Consistent) {id : Nat} {config' : ExecuteConfig} (hid : c.Running id)
    (heffect : CompleteEffect c c' id config')
    (hrunning : ∀ d, DomainOf backend c vmLocations id d → suspended log d = false) :
    SuspendedWithin backend c' vmLocations log config := by
  intro d hd
  obtain ⟨p, hp, owner, howner, hdomain⟩ := h d hd
  refine ⟨p, hp, owner, ?_, hdomain⟩
  rw [heffect.usage, if_neg, howner]
  intro hp'
  -- the slot would belong to the completing job
  have hid' := (hc.owner_iff p id).mpr ⟨hid, config', heffect.row, hp'⟩
  cases howner.symm.trans hid'
  rw [hrunning d ⟨p, howner, hdomain⟩] at hd
  cases hd

end SuspendedWithin

/-- The domain that occupies a slot is suspended. -/
def SlotSuspended (backend : Backend) (c : Controller) (vmLocations : Vm.VmLocations)
    (log : List Message) (p : Cell) : Prop :=
  ∃ d, DomainAt backend c vmLocations p d ∧ suspended log d = true

/-- Whatever occupies a slot of the config is suspended. -/
def Quiet (backend : Backend) (c : Controller) (vmLocations : Vm.VmLocations)
    (log : List Message) (config : ExecuteConfig) : Prop :=
  ∀ p ∈ config, c.machineUsage.get? p = some none ∨
    SlotSuspended backend c vmLocations log p

section Quiet

variable {backend : Backend} {c c' : Controller} {vmLocations : Vm.VmLocations}
  {config : ExecuteConfig} {messages log : List Message} {id : Nat}

theorem SlotSuspended.suspend {domains : List Domain} {p : Cell}
    (h : SlotSuspended backend c vmLocations log p)
    (hsend : SendTo .suspend backend c vmLocations config domains messages) :
    SlotSuspended backend c vmLocations (log ++ messages) p := by
  obtain ⟨d, hat, hd⟩ := h
  exact ⟨d, hat, (suspended_append_suspend hsend d).mpr (.inl hd)⟩

theorem quiet_of_suspend
    (h : suspendResumeConfig backend c vmLocations .suspend config = .ok messages) :
    Quiet backend c vmLocations (log ++ messages) config := by
  obtain ⟨domains, hsend⟩ := suspendResumeConfig_sendTo h
  intro p hp
  refine (domain_of_suspendResumeConfig h hp).imp_right ?_
  rintro ⟨d, hd⟩
  exact ⟨d, hd, (suspended_append_suspend hsend d).mpr (.inr ⟨p, hp, hd⟩)⟩

theorem quiet_of_freeze (hrow : c.idToConfig[id]? = some config)
    (h : freeze backend c vmLocations id = .ok messages) :
    Quiet backend c vmLocations (log ++ messages) config := by
  simp only [freeze, bind_eq_ok, fetch_eq_ok] at h
  obtain ⟨_, _, config', hrow', h⟩ := h
  rw [Option.some_inj.mp (hrow.symm.trans hrow')]
  exact quiet_of_suspend h

theorem quiet_of_freezeOpposing (hrow : c.idToConfig[id]? = some config)
    (h : freezeOpposing backend c vmLocations id = .ok messages) :
    Quiet backend c vmLocations (log ++ messages) (config.map opposing) := by
  simp only [freezeOpposing, bind_eq_ok] at h
  obtain ⟨opposingConfig, hopposing, h⟩ := h
  rw [generateOpposingConfig_eq hrow hopposing] at h
  exact quiet_of_suspend h

theorem SlotSuspended.complete {p : Cell} {config' : ExecuteConfig}
    (h : SlotSuspended backend c vmLocations log p)
    (heffect : CompleteEffect c c' id config') (hp : p ∉ config') :
    SlotSuspended backend c' vmLocations log p := by
  obtain ⟨d, ⟨owner, howner, hdomain⟩, hd⟩ := h
  exact ⟨d, ⟨owner, by rw [heffect.usage, if_neg hp, howner], hdomain⟩, hd⟩

theorem Quiet.complete {config' : ExecuteConfig} (h : Quiet backend c vmLocations log config)
    (heffect : CompleteEffect c c' id config') : Quiet backend c' vmLocations log config := by
  intro p hp
  rcases Classical.em (p ∈ config') with hp' | hp'
  · left
    rw [heffect.usage, if_pos hp']
  · refine (h p hp).imp ?_ fun hsuspended => hsuspended.complete heffect hp'
    intro hfree
    rw [heffect.usage, if_neg hp', hfree]

/-- The cgroup of a job on one machine is not addressed through slots of others. -/
theorem SlotSuspended.resume_elsewhere {domains : List Domain} {p : Cell}
    (h : SlotSuspended .cgroup c vmLocations log p)
    (hsend : SendTo .resume .cgroup c vmLocations config domains messages)
    (hp : p.1 ∉ config.map Prod.fst) :
    SlotSuspended .cgroup c vmLocations (log ++ messages) p := by
  obtain ⟨d, hat, hd⟩ := h
  refine ⟨d, hat, (suspended_append_resume hsend d).mpr ⟨hd, fun q hq hat' => hp ?_⟩⟩
  obtain ⟨owner, _, howner⟩ := hat
  obtain ⟨owner', _, howner'⟩ := hat'
  have heq := Except.ok.inj (howner.trans howner'.symm)
  rw [(Domain.cgroup.inj heq).1]
  exact List.mem_map_of_mem hq

end Quiet

end Poncos.Controller
