import Poncos.MultiApp.HandOut
import Poncos.TwoApp.Flags

/-!
The VMs in the free slots under the two-app scheduler, and the law for both
schedulers together.
-/

namespace Poncos.TwoApp

open Poncos.Library
open Poncos.Library.Execution
open Poncos.Library.Transition
open Poncos.Controller

/-- The slots whose domains the scheduler has suspended. -/
def State.frozenSlots (s : State) : ExecuteConfig :=
  match s.pc with
  | .runDistgen _ _ newSlot | .thawOpposing _ _ newSlot =>
      if bothInUse s = .ok true then
        (fullConfig s.controller.machines.length newSlot).map opposing
      else []
  | .waitFrozen _ _ newSlot | .thaw _ newSlot | .asleep (.frozen _ _ newSlot) =>
      fullConfig s.controller.machines.length newSlot
  | _ => []

def Pc.Placing : Pc → Prop
  | .waitRessource _ => True
  | .select _ => True
  | .asleep (.ressource _) => True
  | _ => False

/-- The scheduler is about to call `execute`, and the VM in every free slot is not
suspended. -/
def HandsOutRunning (s : State) : Prop :=
  ∀ job, s.pc = .select job → ∀ p, s.controller.machineUsage.get? p = some none →
    ∀ name, s.vmLocations.get? p = some name → suspended s.log (.vm name) = false

/-- The condition on a step: while jobs remain in the queue, a completing job has no
suspended domain. -/
def CompletesRunning (σ : Settings) (s : State) : Action → Prop
  | .complete id => s.queue = [] ∨
      ∀ d, DomainOf σ.backend s.controller s.vmLocations id d → suspended s.log d = false
  | _ => True

abbrev SuspendedOk (σ : Settings) (s : State) : Prop :=
  SuspendedWithin σ.backend s.controller s.vmLocations s.log s.frozenSlots

def Winding (s : State) : Prop := s.queue = [] ∧ ¬ s.pc.Placing

variable {σ : Settings} {s s' : State}

theorem frozenSlots_eq_of_placing (h : s.pc.Placing) : s.frozenSlots = [] := by
  rw [State.frozenSlots]
  cases hpc : s.pc with
  | waitRessource | select => rfl
  | asleep wait =>
      cases wait with
      | ressource => rfl
      | frozen | done => simp [hpc, Pc.Placing] at h
  | _ => simp [hpc, Pc.Placing] at h

theorem SuspendedOk.trans {action : Action} (h : SuspendedOk σ s) (hwf : WellFormed s)
    (hguard : ∀ id, action = .complete id → ∀ d,
      DomainOf σ.backend s.controller s.vmLocations id d → suspended s.log d = false)
    (ht : Trans σ s action s') : SuspendedOk σ s' := by
  have hslots : ∀ config, s.frozenSlots = config →
      SuspendedWithin σ.backend s.controller s.vmLocations s.log config := by
    rintro _ rfl
    exact h
  cases ht with
  | select hpc => exact (hslots [] (by rw [State.frozenSlots, hpc])).of_nil
  | @freezeOpposing r job id newSlot messages hpc hboth hfreeze =>
      have hrow := hwf.current id newSlot (by rw [hpc]; rfl)
      obtain ⟨_, hsend⟩ := freezeOpposing_sendTo hrow hfreeze
      have hnext := (hslots [] (by rw [State.frozenSlots, hpc])).suspend hsend
      change SuspendedWithin _ _ _ _ (if bothInUse s = .ok true then _ else [])
      rw [if_pos hboth]
      exact hnext
  | alone hpc => exact (hslots [] (by rw [State.frozenSlots, hpc])).of_nil
  | runDistgen hpc => exact hslots _ (by rw [State.frozenSlots, hpc]; rfl)
  | @thawOpposing r job id newSlot messages hpc hboth hthaw =>
      have hrow := hwf.current id newSlot (by rw [hpc]; rfl)
      obtain ⟨_, hsend⟩ := thawOpposing_sendTo hrow hthaw
      exact (hslots _ (by rw [State.frozenSlots, hpc]; exact if_pos hboth)).resume hsend
  | stillAlone hpc hboth =>
      exact hslots [] (by rw [State.frozenSlots, hpc]; exact if_neg (by simp [hboth]))
  | @freeze r job id newSlot messages hpc hfreeze =>
      obtain ⟨config, _, hrow, hsend⟩ := freeze_sendTo hfreeze
      cases (hwf.current id newSlot (by rw [hpc]; rfl)).symm.trans hrow
      exact (hslots [] (by rw [State.frozenSlots, hpc])).suspend hsend
  | available hpc => exact hslots _ (by rw [State.frozenSlots, hpc]; rfl)
  | notAvailable hpc => exact hslots _ (by rw [State.frozenSlots, hpc]; rfl)
  | @thaw r id newSlot messages hpc hthaw =>
      obtain ⟨config, _, hrow, hsend⟩ := thaw_sendTo hthaw
      cases (hwf.current id newSlot (by rw [hpc]; rfl)).symm.trans hrow
      exact (hslots _ (by rw [State.frozenSlots, hpc])).resume hsend
  | @wake wait hpc =>
      cases wait with
      | ressource | frozen | done => exact hslots _ (by rw [State.frozenSlots, hpc]; rfl)
  | @complete id wait c config hpc hphase heffect =>
      have hnext := h.complete hwf.consistent (running_of_inPhase hphase (.inr rfl)) heffect
        (hguard _ rfl)
      rw [State.frozenSlots, hpc] at hnext
      rw [SuspendedOk, State.frozenSlots, hpc, heffect.machines]
      cases wait with
      | ressource | frozen | done => exact hnext
  | processEnd | notifyAll => exact h
  | nextJob hpc | lastJob hpc | ressource hpc | noRessource hpc | fits hpc | allDone hpc
  | notDone hpc => exact hslots [] (by rw [State.frozenSlots, hpc])

theorem Winding.trans {action : Action} (h : Winding s) (ht : Trans σ s action s') :
    Winding s' := by
  obtain ⟨hqueue, hplacing⟩ := h
  cases ht with
  | nextJob _ hnext => cases hqueue.symm.trans hnext
  | ressource hpc | noRessource hpc | select hpc => exact absurd (hpc ▸ trivial) hplacing
  | processEnd | complete | notifyAll => exact ⟨hqueue, hplacing⟩
  | @wake wait hpc =>
      cases wait with
      | ressource job => exact absurd (hpc ▸ trivial) hplacing
      | frozen | done => exact ⟨hqueue, fun h => h⟩
  | _ => exact ⟨hqueue, fun h => h⟩

theorem reachable_suspendedOk (hs : (system σ).ReachableVia (CompletesRunning σ) s) :
    SuspendedOk σ s ∨ Winding s := by
  refine hs.invariant (P := fun s => SuspendedOk σ s ∨ Winding s) ?_ ?_
  · rintro s ⟨_, _, _, _, _, _, rfl⟩
    exact .inl fun d hd => by cases hd
  · intro s action s' hs h hguard hstep
    have hwf := reachable_wellFormed hs
    have ht := step_trans hstep
    rcases h with h | h
    · rcases Classical.em (∀ id, action = .complete id → ∀ d,
        DomainOf σ.backend s.controller s.vmLocations id d → suspended s.log d = false)
        with hrunning | hsuspended
      · exact .inl (h.trans hwf hrunning ht)
      · -- a suspended job completes after the last one was placed
        push Not at hsuspended
        obtain ⟨id, rfl, d, hd, hon⟩ := hsuspended
        have hqueue := hguard.resolve_right fun hoff => hon (hoff d hd)
        refine .inr (Winding.trans ⟨hqueue, fun hplacing => ?_⟩ ht)
        rw [SuspendedOk, frozenSlots_eq_of_placing hplacing] at h
        exact hon (h.not_suspended d)
    · exact .inr (h.trans ht)

theorem handsOutRunning (hs : (system σ).ReachableVia (CompletesRunning σ) s) :
    HandsOutRunning s := by
  intro job hpc p _ name _
  rcases reachable_suspendedOk hs with h | ⟨_, hplacing⟩
  · rw [SuspendedOk, State.frozenSlots, hpc] at h
    exact h.not_suspended _
  · exact absurd (hpc ▸ trivial) hplacing

end Poncos.TwoApp

namespace Poncos

open Poncos.Library
open Poncos.Library.Execution
open Poncos.Library.Transition
open Poncos.Controller

/-- No suspended VM is handed to a new job by either scheduler, along runs in which
no job completes with a suspended VM while further jobs are queued. -/
theorem freeSlots_not_suspended (sorter : StdSort Nat)
    (generateCommand : Vm.VmLocations → CommandGenerator) :
    (∀ s, (MultiApp.system ⟨sorter, .vm, generateCommand⟩).ReachableVia
        (MultiApp.CompletesRunning ⟨sorter, .vm, generateCommand⟩) s →
      MultiApp.HandsOutRunning s) ∧
    (∀ s, (TwoApp.system ⟨.vm, generateCommand⟩).ReachableVia
        (TwoApp.CompletesRunning ⟨.vm, generateCommand⟩) s →
      TwoApp.HandsOutRunning s) :=
  ⟨fun _ hs => MultiApp.handsOutRunning rfl hs, fun _ hs => TwoApp.handsOutRunning hs⟩

def NoneSuspended (vmLocations : Vm.VmLocations) (log : List Message) : Prop :=
  ∀ name ∈ vmLocations.flatten, suspended log (.vm name) = false

instance (vmLocations : Vm.VmLocations) (log : List Message) :
    Decidable (NoneSuspended vmLocations log) :=
  inferInstanceAs (Decidable (∀ name ∈ vmLocations.flatten, _))

theorem NoneSuspended.of_domainOf {c : Controller} {vmLocations : Vm.VmLocations}
    {log : List Message} (h : NoneSuspended vmLocations log) {id : Nat} {d : Domain}
    (hd : DomainOf .vm c vmLocations id d) : suspended log d = false := by
  obtain ⟨p, _, hdomain⟩ := hd
  simp only [domainNameFromConfigElem, bind_eq_ok, Grid.read_eq_ok] at hdomain
  obtain ⟨name, hname, hdomain⟩ := hdomain
  cases hdomain
  obtain ⟨row, hrow, hcell⟩ := Grid.get?_eq_some_iff.mp hname
  exact h name (List.mem_flatten.mpr
    ⟨row, List.mem_of_getElem? hrow, List.mem_of_getElem? hcell⟩)

def MultiApp.noneSuspendedTest (s : MultiApp.State) : MultiApp.Action → Bool
  | .complete _ => decide (NoneSuspended s.vmLocations s.log)
  | _ => true

def TwoApp.noneSuspendedTest (s : TwoApp.State) : TwoApp.Action → Bool
  | .complete _ => decide (NoneSuspended s.vmLocations s.log)
  | _ => true

/-- A job that was not suspended completes and makes room for the third one. -/
theorem freeSlots_not_suspended_thirdJob :
    (∃ s : MultiApp.State, s.pc = .select ⟨2, 1, "", true⟩ ∧ MultiApp.HandsOutRunning s) ∧
      ∃ s : TwoApp.State, s.pc = .select ⟨2, 1, "", true⟩ ∧ TwoApp.HandsOutRunning s := by
  have hrules := freeSlots_not_suspended StdSort.insertion fun _ _ _ _ _ => .ok ""
  constructor
  · have hrun : ((MultiApp.system (MultiApp.plainSettings .vm)).runVia
        MultiApp.noneSuspendedTest
        (MultiApp.twoMachines .vm [⟨2, 1, "", true⟩, ⟨2, 1, "", true⟩, ⟨2, 1, "", true⟩])
        (MultiApp.placeJob [6 / 10, 6 / 10] ++ [.schedule []] ++
          MultiApp.placeJob [6 / 10, 6 / 10] ++ [.schedule []] ++
          [.schedule [], .schedule [], .processEnd 0, .complete 0, .wake,
            .schedule []])).map MultiApp.State.pc = .ok (.select ⟨2, 1, "", true⟩) := by
      decide +kernel
    obtain ⟨s, hrun, hpc⟩ := map_eq_ok.mp hrun
    refine ⟨s, hpc, hrules.1 s (System.runVia_reachable (fun s action h => ?_)
      (.init (MultiApp.twoMachines_init _ _)) hrun)⟩
    cases action with
    | complete id => exact .inr fun d hd => (of_decide_eq_true h).of_domainOf hd
    | _ => exact trivial
  · have hrun : ((TwoApp.system (TwoApp.plainSettings .vm)).runVia
        TwoApp.noneSuspendedTest
        (TwoApp.twoMachines .vm [⟨2, 1, "", true⟩, ⟨2, 1, "", true⟩, ⟨2, 1, "", true⟩])
        (TwoApp.placeJob [6 / 10, 6 / 10] ++ TwoApp.placeJob [6 / 10, 6 / 10] ++
          [.schedule [], .schedule [], .schedule [], .processEnd 0, .complete 0, .wake,
            .schedule []])).map TwoApp.State.pc = .ok (.select ⟨2, 1, "", true⟩) := by
      decide +kernel
    obtain ⟨s, hrun, hpc⟩ := map_eq_ok.mp hrun
    refine ⟨s, hpc, hrules.2 s (System.runVia_reachable (fun s action h => ?_)
      (.init (TwoApp.twoMachines_init _ _)) hrun)⟩
    cases action with
    | complete id => exact .inr fun d hd => (of_decide_eq_true h).of_domainOf hd
    | _ => exact trivial

/-- A frozen job completes: `thaw` skips its free slot, and the VM there is still
suspended when the next job is placed. -/
theorem not_handsOutRunning_frozenJob :
    (∃ s, (MultiApp.system (MultiApp.plainSettings .vm)).Reachable s ∧
      ¬ MultiApp.HandsOutRunning s) ∧
    ∃ s, (TwoApp.system (TwoApp.plainSettings .vm)).Reachable s ∧
      ¬ TwoApp.HandsOutRunning s := by
  constructor
  · have hrun : ((MultiApp.system (MultiApp.plainSettings .vm)).run
        (MultiApp.twoMachines .vm [⟨2, 1, "", true⟩, ⟨1, 1, "", true⟩, ⟨1, 1, "", true⟩])
        (MultiApp.placeJob [4 / 10, 2 / 10] ++ [.schedule []] ++
          MultiApp.placeJob [5 / 10] ++
          [.schedule [], .processEnd 1, .complete 1, .wake, .schedule [], .schedule [],
            .schedule []])).map (fun s => decide (s.pc = .select ⟨1, 1, "", true⟩ ∧
              s.controller.machineUsage.get? (0, 1) = some none ∧
              s.vmLocations.get? (0, 1) = some "vm1" ∧
              suspended s.log (.vm "vm1") = true)) = .ok true := by
      decide +kernel
    obtain ⟨s, hrun, hs⟩ := map_eq_ok.mp hrun
    obtain ⟨hpc, hfree, hname, hsuspended⟩ := of_decide_eq_true hs
    refine ⟨s, System.run_reachable (fun _ _ => trivial)
      (.init (MultiApp.twoMachines_init _ _)) hrun, fun h => ?_⟩
    cases hsuspended.symm.trans (h _ hpc _ hfree _ hname)
  · have hrun : ((TwoApp.system (TwoApp.plainSettings .vm)).run
        (TwoApp.twoMachines .vm [⟨2, 1, "", true⟩, ⟨2, 1, "", true⟩, ⟨2, 1, "", true⟩])
        (TwoApp.freezeSecond ++
          [.processEnd 1, .complete 1, .wake, .schedule [], .schedule [], .schedule [],
            .schedule []])).map (fun s => decide (s.pc = .select ⟨2, 1, "", true⟩ ∧
              s.controller.machineUsage.get? (0, 1) = some none ∧
              s.vmLocations.get? (0, 1) = some "vm1" ∧
              suspended s.log (.vm "vm1") = true)) = .ok true := by
      decide +kernel
    obtain ⟨s, hrun, hs⟩ := map_eq_ok.mp hrun
    obtain ⟨hpc, hfree, hname, hsuspended⟩ := of_decide_eq_true hs
    refine ⟨s, System.run_reachable (fun _ _ => trivial)
      (.init (TwoApp.twoMachines_init _ _)) hrun, fun h => ?_⟩
    cases hsuspended.symm.trans (h _ hpc _ hfree _ hname)

end Poncos
