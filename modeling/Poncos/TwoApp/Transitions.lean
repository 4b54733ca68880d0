import Poncos.Controller.TableRuns
import Poncos.TwoApp.Schedule

/-!
Everything one step of the two-app scheduler can do, and what holds of its tables
along every run: each running job holds one slot of all machines.
-/

namespace Poncos.TwoApp

open Poncos.Library
open Poncos.Library.Execution
open Poncos.Library.Transition
open Poncos.Controller

inductive Trans (σ : Settings) (s : State) : Action → State → Prop
  | nextJob {r : List ℚ} {job : Job} {rest : List Job} : s.pc = .nextJob →
      s.queue = job :: rest →
      job.reqCpus = s.controller.machines.length * s.controller.systemConfig.slotSize →
      Trans σ s (.schedule r) { s with queue := rest, pc := .waitRessource job }
  | lastJob {r : List ℚ} : s.pc = .nextJob → s.queue = [] →
      Trans σ s (.schedule r) { s with pc := .done }
  | ressource {r : List ℚ} {job : Job} : s.pc = .waitRessource job →
      s.controller.ressourceAvailable job.reqCpus 1 = .ok true →
      Trans σ s (.schedule r) { s with pc := .select job }
  | noRessource {r : List ℚ} {job : Job} : s.pc = .waitRessource job →
      s.controller.ressourceAvailable job.reqCpus 1 = .ok false →
      Trans σ s (.schedule r) { s with pc := .asleep (.ressource job) }
  | select {r : List ℚ} {job : Job} {newSlot : Nat} {c : Controller} {id : Nat} :
      s.pc = .select job → s.coConfigInUse[newSlot]? = some false →
      ExecuteEffect s.controller c job
        (fullConfig s.controller.machines.length newSlot) id →
      Trans σ s (.schedule r)
        { s with
          controller := c
          coConfigInUse := s.coConfigInUse.set newSlot true
          pc := .freezeOpposing job id newSlot }
  | freezeOpposing {r : List ℚ} {job : Job} {id newSlot : Nat}
      {messages : List Message} : s.pc = .freezeOpposing job id newSlot →
      bothInUse s = .ok true →
      Controller.freezeOpposing σ.backend s.controller s.vmLocations id = .ok messages →
      Trans σ s (.schedule r)
        { s with log := s.log ++ messages, pc := .runDistgen job id newSlot }
  | alone {r : List ℚ} {job : Job} {id newSlot : Nat} :
      s.pc = .freezeOpposing job id newSlot → bothInUse s = .ok false →
      Trans σ s (.schedule r) { s with pc := .runDistgen job id newSlot }
  | runDistgen {r : List ℚ} {job : Job} {id newSlot : Nat} {distgend : List ℚ} :
      s.pc = .runDistgen job id newSlot →
      distgend.length = s.coConfigDistgend.length →
      Trans σ s (.schedule r)
        { s with coConfigDistgend := distgend, pc := .thawOpposing job id newSlot }
  | thawOpposing {r : List ℚ} {job : Job} {id newSlot : Nat} {messages : List Message} :
      s.pc = .thawOpposing job id newSlot → bothInUse s = .ok true →
      Controller.thawOpposing σ.backend s.controller s.vmLocations id = .ok messages →
      Trans σ s (.schedule r)
        { s with log := s.log ++ messages, pc := .estimate job id newSlot }
  | stillAlone {r : List ℚ} {job : Job} {id newSlot : Nat} :
      s.pc = .thawOpposing job id newSlot → bothInUse s = .ok false →
      Trans σ s (.schedule r) { s with pc := .nextJob }
  | fits {r : List ℚ} {job : Job} {id newSlot : Nat} :
      s.pc = .estimate job id newSlot →
      Trans σ s (.schedule r) { s with pc := .nextJob }
  | freeze {r : List ℚ} {job : Job} {id newSlot : Nat} {messages : List Message} :
      s.pc = .estimate job id newSlot →
      Controller.freeze σ.backend s.controller s.vmLocations id = .ok messages →
      Trans σ s (.schedule r)
        { s with log := s.log ++ messages, pc := .waitFrozen job id newSlot }
  | available {r : List ℚ} {job : Job} {id newSlot : Nat} :
      s.pc = .waitFrozen job id newSlot →
      Trans σ s (.schedule r) { s with pc := .thaw id newSlot }
  | notAvailable {r : List ℚ} {job : Job} {id newSlot : Nat} :
      s.pc = .waitFrozen job id newSlot →
      Trans σ s (.schedule r) { s with pc := .asleep (.frozen job id newSlot) }
  | thaw {r : List ℚ} {id newSlot : Nat} {messages : List Message} :
      s.pc = .thaw id newSlot →
      Controller.thaw σ.backend s.controller s.vmLocations id = .ok messages →
      Trans σ s (.schedule r) { s with log := s.log ++ messages, pc := .nextJob }
  | allDone {r : List ℚ} : s.pc = .done →
      Trans σ s (.schedule r) { s with pc := .finished }
  | notDone {r : List ℚ} : s.pc = .done →
      Trans σ s (.schedule r) { s with pc := .asleep .done }
  | wake {wait : Wait} : s.pc = .asleep wait →
      Trans σ s .wake { s with pc := wait.resume }
  | processEnd {id : Nat} : InPhase s.controller id .executing →
      Trans σ s (.processEnd id)
        { s with controller := s.controller.setPhase id .ended }
  | complete {id : Nat} {wait : Wait} {c : Controller} {config : ExecuteConfig} :
      s.pc = .asleep wait → InPhase s.controller id .ended →
      CompleteEffect s.controller c id config →
      id < s.coConfigInUse.length → id < s.coConfigDistgend.length →
      Trans σ s (.complete id)
        { s with
          controller := c
          coConfigInUse := s.coConfigInUse.set id false
          coConfigDistgend := s.coConfigDistgend.set id 0 }
  | notifyAll {id : Nat} : InPhase s.controller id .notifying →
      Trans σ s (.notifyAll id)
        { s with controller := s.controller.setPhase id .finished }

section Inversion

variable {σ : Settings} {s s' : State}

theorem searchSlot_spec {coConfigInUse : List Bool} {slots : List Nat} {newSlot : Nat}
    (h : searchSlot coConfigInUse slots = .ok (some newSlot)) :
    newSlot ∈ slots ∧ coConfigInUse[newSlot]? = some false := by
  induction slots with
  | nil => cases h
  | cons s rest ih =>
      simp only [searchSlot, bind_eq_ok, fetch_eq_ok] at h
      obtain ⟨inUse, hs, h⟩ := h
      cases inUse with
      | true =>
          obtain ⟨hmem, hget⟩ := ih h
          exact ⟨List.mem_cons_of_mem s hmem, hget⟩
      | false =>
          cases h
          exact ⟨List.mem_cons_self, hs⟩

theorem scheduleStep_trans {r : List ℚ} (h : scheduleStep σ r s = .ok s') :
    Trans σ s (.schedule r) s' := by
  cases hpc : s.pc with
  | nextJob =>
      simp only [scheduleStep, hpc] at h
      split at h
      · rename_i hqueue
        cases h
        exact .lastJob hpc hqueue
      · rename_i job rest hqueue
        simp only [bind_eq_ok, ensure_eq_ok] at h
        obtain ⟨_, hcpus, h⟩ := h
        cases h
        exact .nextJob hpc hqueue hcpus
  | waitRessource job =>
      simp only [scheduleStep, hpc, bind_eq_ok] at h
      obtain ⟨available, hcheck, h⟩ := h
      cases h
      cases available with
      | true => exact .ressource hpc hcheck
      | false => exact .noRessource hpc hcheck
  | select job =>
      simp only [scheduleStep, hpc, bind_eq_ok] at h
      obtain ⟨free, hsearch, h⟩ := h
      cases free with
      | none => cases h
      | some newSlot =>
          simp only [bind_eq_ok, store_eq_ok, Prod.exists] at h
          obtain ⟨_, ⟨_, rfl⟩, c, id, hexecute, h⟩ := h
          cases h
          exact .select hpc (searchSlot_spec hsearch).2 (execute_effect hexecute)
  | freezeOpposing job id newSlot =>
      simp only [scheduleStep, hpc, bind_eq_ok] at h
      obtain ⟨both, hboth, h⟩ := h
      cases both with
      | true =>
          simp only [if_true, bind_eq_ok] at h
          obtain ⟨messages, hfreeze, h⟩ := h
          cases h
          exact .freezeOpposing hpc hboth hfreeze
      | false =>
          cases h
          exact .alone hpc hboth
  | runDistgen job id newSlot =>
      simp only [scheduleStep, hpc, bind_eq_ok, store_eq_ok] at h
      obtain ⟨_, _, _, _, _, _, _, _, _, ⟨_, rfl⟩, h⟩ := h
      cases h
      exact .runDistgen hpc List.length_set
  | thawOpposing job id newSlot =>
      simp only [scheduleStep, hpc, bind_eq_ok] at h
      obtain ⟨both, hboth, h⟩ := h
      cases both with
      | true =>
          simp only [if_true, bind_eq_ok] at h
          obtain ⟨messages, hthaw, h⟩ := h
          cases h
          exact .thawOpposing hpc hboth hthaw
      | false =>
          cases h
          exact .stillAlone hpc hboth
  | estimate job id newSlot =>
      simp only [scheduleStep, hpc, bind_eq_ok] at h
      obtain ⟨first, _, second, _, h⟩ := h
      split at h
      · simp only [bind_eq_ok] at h
        obtain ⟨messages, hfreeze, h⟩ := h
        cases h
        exact .freeze hpc hfreeze
      · cases h
        exact .fits hpc
  | waitFrozen job id newSlot =>
      simp only [scheduleStep, hpc, bind_eq_ok] at h
      obtain ⟨available, _, h⟩ := h
      cases h
      cases available with
      | true => exact .available hpc
      | false => exact .notAvailable hpc
  | thaw id newSlot =>
      simp only [scheduleStep, hpc, bind_eq_ok] at h
      obtain ⟨messages, hthaw, h⟩ := h
      cases h
      exact .thaw hpc hthaw
  | done =>
      simp only [scheduleStep, hpc, bind_eq_ok] at h
      obtain ⟨free, _, h⟩ := h
      cases h
      cases free with
      | true => exact .allDone hpc
      | false => exact .notDone hpc
  | asleep wait => simp [scheduleStep, hpc] at h
  | finished => simp [scheduleStep, hpc] at h

/-- A step that returns is one of the transitions. -/
theorem step_trans {action : Action} (h : step σ s action = .ok s') :
    Trans σ s action s' := by
  cases action with
  | schedule r => exact scheduleStep_trans h
  | wake =>
      simp only [step, wakeStep] at h
      split at h
      · rename_i wait hpc
        cases h
        exact .wake hpc
      · cases h
  | processEnd id =>
      simp only [step, bind_eq_ok, require_eq_ok] at h
      obtain ⟨_, hphase, h⟩ := h
      cases h
      exact .processEnd hphase
  | complete id =>
      simp only [step, completeStep, commandDone, bind_eq_ok, require_eq_ok,
        store_eq_ok] at h
      obtain ⟨_, ⟨wait, hpc⟩, _, hphase, c, hcomplete, _, ⟨hlt, rfl⟩, _, ⟨hlt', rfl⟩, h⟩ := h
      cases h
      obtain ⟨config, heffect⟩ := executeCommandInternal_effect hcomplete
      exact .complete hpc hphase heffect hlt hlt'
  | notifyAll id =>
      simp only [step, bind_eq_ok, require_eq_ok] at h
      obtain ⟨_, hphase, h⟩ := h
      cases h
      exact .notifyAll hphase

theorem Trans.cmdCounter_le {action : Action} (ht : Trans σ s action s') :
    s.controller.cmdCounter ≤ s'.controller.cmdCounter := by
  cases ht with
  | select _ _ heffect =>
      rw [heffect.cmdCounter]
      exact Nat.le_succ _
  | complete _ _ heffect => exact heffect.cmdCounter.ge
  | _ => exact le_rfl

end Inversion

theorem mem_fullConfig {machines newSlot : Nat} {p : ExecuteConfigElem} :
    p ∈ fullConfig machines newSlot ↔ p.1 < machines ∧ p.2 = newSlot := by
  simp only [fullConfig, List.mem_map, List.mem_range]
  constructor
  · rintro ⟨j, hj, rfl⟩
    exact ⟨hj, rfl⟩
  · rintro ⟨hlt, rfl⟩
    exact ⟨p.1, hlt, rfl⟩

theorem fullConfig_injective {machines newSlot newSlot' : Nat} (hmachines : 0 < machines)
    (h : fullConfig machines newSlot = fullConfig machines newSlot') :
    newSlot = newSlot' := by
  have hmem : (0, newSlot) ∈ fullConfig machines newSlot := mem_fullConfig.mpr ⟨hmachines, rfl⟩
  rw [h] at hmem
  exact (mem_fullConfig.mp hmem).2

/-- The job the scheduler is busy with, and its slot. -/
def Pc.current : Pc → Option (Nat × Nat)
  | .freezeOpposing _ id newSlot => some (id, newSlot)
  | .runDistgen _ id newSlot => some (id, newSlot)
  | .thawOpposing _ id newSlot => some (id, newSlot)
  | .estimate _ id newSlot => some (id, newSlot)
  | .waitFrozen _ id newSlot => some (id, newSlot)
  | .thaw id newSlot => some (id, newSlot)
  | .asleep (.frozen _ id newSlot) => some (id, newSlot)
  | _ => none

structure WellFormed (s : State) : Prop where
  consistent : s.controller.Consistent
  slots : s.controller.systemConfig.slots.length = 2
  usage : s.controller.machineUsage.Rectangular s.controller.machines.length 2
  inUse : s.coConfigInUse.length = 2
  distgend : s.coConfigDistgend.length = 2
  rows : ∀ config ∈ s.controller.idToConfig, ∃ newSlot < 2,
    config = fullConfig s.controller.machines.length newSlot
  current : ∀ id newSlot, s.pc.current = some (id, newSlot) →
    s.controller.idToConfig[id]? =
      some (fullConfig s.controller.machines.length newSlot)

namespace WellFormed

variable {σ : Settings} {s s' : State}

theorem start {machines : List String} {systemConfig : SystemConfig}
    {vmLocations : Vm.VmLocations} {queue : List Job}
    (hslots : systemConfig.slots.length = 2) :
    WellFormed (start machines systemConfig vmLocations queue) := by
  refine ⟨create_consistent machines systemConfig, hslots, ?_, ?_, ?_, ?_, by rintro _ _ ⟨⟩⟩
  · exact Grid.rectangular_replicate machines.length [none, none]
  · exact List.length_replicate.trans hslots
  · exact List.length_replicate.trans hslots
  · intro config hconfig
    simp [TwoApp.start, create] at hconfig

theorem of_pc (h : WellFormed s) {pc : Pc} {queue : List Job} {log : List Message}
    {distgend : List ℚ} (hdistgend : distgend.length = s.coConfigDistgend.length)
    (hcurrent : ∀ id newSlot, pc.current = some (id, newSlot) →
      s.pc.current = some (id, newSlot)) :
    WellFormed { s with
      pc := pc, queue := queue, log := log, coConfigDistgend := distgend } :=
  ⟨h.consistent, h.slots, h.usage, h.inUse, hdistgend.trans h.distgend, h.rows,
    fun id newSlot hpc => h.current id newSlot (hcurrent id newSlot hpc)⟩

theorem select (h : WellFormed s) {job : Job} {newSlot : Nat} {c : Controller} {id : Nat}
    (hfree : s.coConfigInUse[newSlot]? = some false)
    (heffect : ExecuteEffect s.controller c job
      (fullConfig s.controller.machines.length newSlot) id) :
    WellFormed { s with
      controller := c
      coConfigInUse := s.coConfigInUse.set newSlot true
      pc := .freezeOpposing job id newSlot } := by
  have hlt : newSlot < 2 := by
    rw [← h.inUse]
    exact (List.getElem?_eq_some_iff.mp hfree).1
  refine ⟨heffect.consistent h.consistent, ?_, ?_, ?_, h.distgend, ?_, ?_⟩
  · rw [heffect.systemConfig]
    exact h.slots
  · rw [heffect.machines]
    exact heffect.rectangular _ _ h.usage
  · exact List.length_set.trans h.inUse
  · intro config hconfig
    rw [heffect.machines]
    rw [heffect.idToConfig, List.mem_append, List.mem_singleton] at hconfig
    rcases hconfig with hconfig | rfl
    · exact h.rows config hconfig
    · exact ⟨newSlot, hlt, rfl⟩
  · rintro _ _ ⟨⟩
    rw [heffect.idToConfig, heffect.machines, heffect.id_eq, ← h.consistent.configs_length]
    simp

theorem setPhase (h : WellFormed s) {id : Nat} {phase : Phase}
    (hrunning : ∀ j, (s.controller.setPhase id phase).Running j ↔
      s.controller.Running j) :
    WellFormed { s with controller := s.controller.setPhase id phase } :=
  ⟨h.consistent.setPhase hrunning, h.slots, h.usage, h.inUse, h.distgend, h.rows,
    h.current⟩

theorem complete (h : WellFormed s) {id : Nat} {c : Controller} {config : ExecuteConfig}
    (hphase : InPhase s.controller id .ended)
    (heffect : CompleteEffect s.controller c id config) :
    WellFormed { s with
      controller := c
      coConfigInUse := s.coConfigInUse.set id false
      coConfigDistgend := s.coConfigDistgend.set id 0 } := by
  refine ⟨heffect.consistent h.consistent (running_of_inPhase hphase (.inr rfl)),
    ?_, ?_, ?_, ?_, ?_, ?_⟩
  · rw [heffect.systemConfig]
    exact h.slots
  · rw [heffect.machines]
    exact heffect.rectangular _ _ h.usage
  · exact List.length_set.trans h.inUse
  · exact List.length_set.trans h.distgend
  · rw [heffect.machines, heffect.idToConfig]
    exact h.rows
  · rw [heffect.machines, heffect.idToConfig]
    exact h.current

theorem trans {action : Action} (h : WellFormed s) (ht : Trans σ s action s') :
    WellFormed s' := by
  cases ht with
  | select _ hfree heffect => exact h.select hfree heffect
  | processEnd hphase => exact h.setPhase (running_setPhase_ended hphase)
  | complete _ hphase heffect => exact h.complete hphase heffect
  | notifyAll hphase =>
      exact h.setPhase (running_setPhase_finished h.consistent hphase)
  | runDistgen hpc hlen => exact h.of_pc hlen (by rw [hpc]; exact fun _ _ h => h)
  | @wake wait hpc =>
      refine h.of_pc rfl ?_
      rw [hpc]
      cases wait with
      | ressource job => rintro _ _ ⟨⟩
      | frozen job id newSlot => exact fun _ _ h => h
      | done => rintro _ _ ⟨⟩
  | freezeOpposing hpc | alone hpc | thawOpposing hpc | freeze hpc | available hpc
  | notAvailable hpc => exact h.of_pc rfl (by rw [hpc]; exact fun _ _ h => h)
  | _ => exact h.of_pc rfl (by rintro _ _ ⟨⟩)

theorem exists_slot (h : WellFormed s) {j : Nat} (hj : s.controller.Running j) :
    ∃ newSlot < 2, s.controller.idToConfig[j]? =
      some (fullConfig s.controller.machines.length newSlot) := by
  obtain ⟨config, hrow⟩ := h.consistent.exists_config hj
  obtain ⟨newSlot, hlt, rfl⟩ := h.rows config (List.mem_of_getElem? hrow)
  exact ⟨newSlot, hlt, hrow⟩

end WellFormed

theorem reachable_wellFormed {σ : Settings} {guard : State → Action → Prop} {s : State}
    (hs : (system σ).ReachableVia guard s) : WellFormed s := by
  refine hs.invariant ?_ ?_
  · rintro s ⟨machines, systemConfig, vmLocations, queue, hslots, _, rfl⟩
    exact .start hslots
  · intro s action s' _ hwf _ hstep
    exact hwf.trans (step_trans hstep)

end Poncos.TwoApp
