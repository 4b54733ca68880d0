import Poncos.Library.Restriction
import Poncos.MultiApp.Frozen
import Poncos.MultiApp.Measurements
import Poncos.Schedulers.Progress
import Poncos.Schedulers.WakeUps

/-!
How runs of the multi-app scheduler end.  There is no endless run: waits return after a
notification only, and a notification is sent once for each job.  What stops a run is the
return of `schedule`, a failed check in the scheduler thread, or a deadlock behind
suspended jobs.
-/

namespace Poncos.MultiApp

open Poncos.Library
open Poncos.Library.Execution
open Poncos.Library.Transition
open Poncos.Library.Transition.System
open Poncos.Controller

/-- The process of a job does not end while a domain of the job is suspended, and a
waiter returns from its wait only after it was notified. -/
def allowed (backend : Backend) (s : State) : Action → Bool
  | .processEnd id => s.controller.mayEnd backend s.vmLocations s.log id
  | .waiterWake index => (s.waiters[index]?.map Waiter.phase) = some (.asleep true)
  | _ => true

/-- The runs without spurious wake-ups, of the scheduler or of a waiter. -/
def launch (σ : Settings) (machines : List String) (systemConfig : SystemConfig)
    (vmLocations : Vm.VmLocations) (jobs : List Job) : System (State × Bool) Action :=
  (((system σ).restrict (allowed σ.backend)).notified sleeper).startingAt
    (start machines systemConfig vmLocations jobs, false)

section Rank

def Waiter.rank (w : Waiter) : Nat :=
  match w.phase with
  | .started => 1
  | .asleep true => 1
  | .asleep false => 0
  | .finished => 0

def Pc.rank (jobs : Nat) : Pc → Nat
  | .nextJob => 3
  | .waitRessource _ => jobs + 17
  | .select _ => jobs + 16
  | .asleep (.ressource _) => jobs + 15
  | .freezeOpposing _ _ => 9
  | .runDistgen _ _ => 8
  | .thawOpposing _ _ => 7
  | .overload _ _ false => 6
  | .overload _ _ true => 5
  | .updateConfig _ _ _ _ => 4
  | .asleep (.change _ _) => 3
  | .done => 2
  | .asleep .done => 0
  | .finished => 0

def State.rank (jobs : Nat) (s : State) : Nat :=
  s.controller.threadRank jobs + (jobs + 15) * s.queue.length + s.pc.rank jobs +
    (s.waiters.map Waiter.rank).sum

theorem sum_rank_notify (waiters : List Waiter) :
    ((waiters.map Waiter.notify).map Waiter.rank).sum ≤
      (waiters.map Waiter.rank).sum + waiters.length := by
  induction waiters with
  | nil => simp
  | cons w rest ih =>
      have hw : w.notify.rank ≤ w.rank + 1 := by
        obtain ⟨id, config, phase⟩ := w
        cases phase with
        | asleep notified => cases notified <;> simp [Waiter.notify, Waiter.rank]
        | started | finished => simp [Waiter.notify, Waiter.rank]
      simp only [List.map_cons, List.sum_cons, List.length_cons]
      omega

theorem sum_rank_set {waiters : List Waiter} {index : Nat} {w : Waiter}
    (h : waiters[index]? = some w) (w' : Waiter) :
    ((waiters.set index w').map Waiter.rank).sum + w.rank =
      (waiters.map Waiter.rank).sum + w'.rank := by
  induction waiters generalizing index with
  | nil => simp at h
  | cons x rest ih =>
      cases index with
      | zero =>
          obtain rfl : x = w := by simpa using h
          simp only [List.set_cons_zero, List.map_cons, List.sum_cons]
          omega
      | succ index =>
          have hrest := ih (show rest[index]? = some w by simpa using h)
          simp only [List.set_cons_succ, List.map_cons, List.sum_cons]
          omega

theorem threadPool_updateConfig {id : Nat} {newConfig : ExecuteConfig} {c c' : Controller}
    {vmLocations vmLocations' : Vm.VmLocations} {tasks : List (String × Vm.Migrate)}
    (h : Vm.updateConfig id newConfig c vmLocations = .ok (c', vmLocations', tasks)) :
    c'.threadPool = c.threadPool := by
  obtain ⟨_, hok⟩ := Vm.updateConfig_ok h
  have hbase := hok.base
  simp only [Controller.updateConfig, bind_eq_ok] at hbase
  obtain ⟨_, _, _, _, _, _, _, _, _, _, hbase⟩ := hbase
  cases hbase
  rfl

/-- Every step but a wake-up lowers the rank, and a notification pays for the wake-ups
that it may cause. -/
theorem Trans.rank {σ : Settings} {s s' : State} {action : Action} {jobs : Nat}
    (ht : Trans σ s action s') (hc : s.controller.Consistent)
    (hwaiters : s.waiters.length ≤ jobs) (hallowed : allowed σ.backend s action = true) :
    s'.rank jobs + (if sleeper.notifies action then 4 else 1) ≤
      s.rank jobs + if sleeper.wakes action then 3 else 0 := by
  cases ht with
  | nextJob hpc hqueue =>
      simp [State.rank, Pc.rank, sleeper, hpc, hqueue, Nat.mul_add]
      omega
  | select hpc _ heffect =>
      simp [State.rank, Pc.rank, sleeper, hpc, heffect.threadRank]
      omega
  | @wake wait hpc =>
      cases wait <;> simp [State.rank, Pc.rank, Wait.resume, sleeper, hpc] <;> omega
  | processEnd hphase =>
      have := @threadRank_setPhase jobs _ hc _ _ .ended hphase
      simp [State.rank, sleeper, Phase.rank] at this ⊢
      omega
  | complete _ hphase heffect =>
      have := @threadRank_setPhase jobs _ hc _ _ .notifying hphase
      simp [State.rank, sleeper, heffect.threadRank, Phase.rank] at this ⊢
      omega
  | notifyAll hphase =>
      have := @threadRank_setPhase jobs _ hc _ _ .finished hphase
      have hnotify := sum_rank_notify s.waiters
      simp only [Phase.rank, State.rank, sleeper] at this ⊢
      simp only [if_true, Bool.false_eq_true, if_false]
      omega
  | @waiterWait index id wait config hpc hwaiter =>
      have := sum_rank_set hwaiter ⟨id, config, .asleep false⟩
      simp only [State.rank, sleeper, Waiter.rank, Bool.false_eq_true, if_false] at this ⊢
      omega
  | @waiterThaw index id wait config notified marked messages hpc hwaiter =>
      have := sum_rank_set hwaiter ⟨id, config, .finished⟩
      simp only [allowed, hwaiter, Option.map_some, decide_eq_true_eq] at hallowed
      cases hallowed
      simp only [State.rank, sleeper, Waiter.rank, Bool.false_eq_true, if_false] at this ⊢
      omega
  | @waiterSleep index id wait config notified marked hpc hwaiter =>
      have := sum_rank_set hwaiter ⟨id, config, .asleep false⟩
      simp only [allowed, hwaiter, Option.map_some, decide_eq_true_eq] at hallowed
      cases hallowed
      simp only [State.rank, sleeper, Waiter.rank, Bool.false_eq_true, if_false] at this ⊢
      omega
  | freezeDetach hpc =>
      simp [State.rank, Pc.rank, sleeper, hpc, Waiter.rank]
      omega
  | updateConfig hpc hupdate =>
      simp only [State.rank, Pc.rank, sleeper, hpc, threadRank, threadPool_updateConfig hupdate,
        Bool.false_eq_true, if_false]
      omega
  | @fits r id config frozen messages hpc =>
      simp only [State.rank, sleeper, hpc, Bool.false_eq_true, if_false]
      cases frozen <;> simp only [Pc.rank] <;> omega
  | @swap r id config oldConfig newConfig frozen messages marked swapCandidates hpc =>
      simp only [State.rank, sleeper, hpc, Bool.false_eq_true, if_false]
      cases frozen <;> simp only [Pc.rank] <;> omega
  | lastJob hpc | ressource hpc | noRessource hpc | freezeOpposing hpc | runDistgen hpc
  | thawOpposing hpc | stillFrozen hpc | freeze hpc | allDone hpc | notDone hpc =>
      simp only [State.rank, Pc.rank, sleeper, hpc, Bool.false_eq_true, if_false]
      omega

/-- A bound on the steps that are left. -/
def rank (jobs : Nat) (s : State × Bool) : Nat := s.1.rank jobs + if s.2 then 3 else 0

end Rank

section Waiting

variable {σ : Settings} {s s' : State}

/-- Jobs are admitted only if one slot of every machine is enough for them. -/
def Admitted (s : State) : Prop := ∀ job ∈ s.pc.pending,
  job.reqCpus ≤ s.controller.machines.length * s.controller.systemConfig.slotSize

theorem step_nextJob {r : List ℚ} {job : Job} {rest : List Job} (hpc : s.pc = .nextJob)
    (hqueue : s.queue = job :: rest) (h : step σ s (.schedule r) = .ok s') :
    job.reqCpus ≤ s.controller.machines.length * s.controller.systemConfig.slotSize := by
  simp only [step, scheduleStep, hpc, hqueue, bind_eq_ok, ensure_eq_ok] at h
  obtain ⟨_, hle, _⟩ := h
  exact hle

theorem Admitted.trans {action : Action} (h : Admitted s) (hstep : step σ s action = .ok s') :
    Admitted s' := by
  intro job hjob
  cases step_trans hstep with
  | nextJob hpc hqueue =>
      rw [List.mem_singleton.mp hjob]
      have hle := step_nextJob hpc hqueue hstep
      exact hle
  | ressource hpc | noRessource hpc => exact h job (by rw [hpc]; exact hjob)
  | @wake wait hpc =>
      cases wait with
      | ressource => exact h job (by rw [hpc]; exact hjob)
      | change | done => cases hjob
  | processEnd | notifyAll | waiterWait | waiterThaw | waiterSleep => exact h job hjob
  | complete _ _ heffect =>
      rw [heffect.machines, heffect.systemConfig]
      exact h job hjob
  | _ => cases hjob

theorem reachable_admitted (hs : (system σ).Reachable s) : Admitted s := by
  refine hs.invariant ?_ ?_
  · rintro s ⟨_, _, _, _, _, _, rfl⟩ _ hjob
    cases hjob
  · intro s action s' _ h _ hstep
    exact h.trans hstep

/-- Where no job runs, no machine is overloaded. -/
theorem check_of_idle (hs : (system σ).Reachable s) (hidle : ∀ id, ¬ s.controller.Running id)
    {config : ExecuteConfig} (hrange : ∀ p ∈ config, p.1 < s.controller.machines.length) :
    Check s config [] := by
  obtain ⟨results, hmeasured⟩ := @ReachableVia.exists_history _ _ _ _ (fun _ => [])
    recordResults _ _ hs
  obtain ⟨hwf, htable⟩ := reachable_tableInStep hmeasured
  have husage := hwf.consistent.usage_of_idle hwf.usage hidle
  have hcell : ∀ m slot, cellUtil s.membwUtil (m, slot) = 0 := by
    intro m slot
    rw [cellUtil]
    cases hutil : s.membwUtil.get? (m, slot) with
    | none => rfl
    | some x =>
        have hsome := (hwf.util.isSome_iff (m, slot)).mp (by rw [hutil]; rfl)
        obtain ⟨owner, howner⟩ := Option.isSome_iff_exists.mp
          ((hwf.usage.isSome_iff (m, slot)).mpr hsome)
        cases owner with
        | none => exact Option.some_inj.mp (hutil.symm.trans (htable.free _ howner))
        | some j => exact absurd ((hwf.consistent.owner_iff _ j).mp howner).1 (hidle j)
  rw [Check, hwf.slots, checkMembw_two hwf.util hrange]
  have hnone : (config.filter fun p => perMachineTh < nodeUtil s.membwUtil p.1) = [] := by
    refine List.filter_eq_nil_iff.mpr fun p _ => ?_
    rw [nodeUtil, hcell, hcell]
    norm_num [perMachineTh]
  rw [hnone]
  rfl

/-- Where no job runs, nothing is left to wait for. -/
theorem waitOver_of_idle (hs : (system σ).Reachable s) (hasleep : s.LockFree)
    (hidle : ∀ id, ¬ s.controller.Running id) : WaitOver σ s := by
  have hwf := reachable_wellFormed hs
  have husage := hwf.consistent.usage_of_idle hwf.usage hidle
  have hrow : ∀ row ∈ s.controller.machineUsage, row = [none, none] := by
    rw [husage]
    exact fun row hrow => (List.mem_replicate.mp hrow).2
  have hfree : ∀ row ∈ s.controller.machineUsage,
      ∀ slot < s.controller.systemConfig.slots.length, row[slot]? = some none := by
    intro row hmem slot hslot
    rw [hwf.slots] at hslot
    rw [hrow row hmem]
    rcases (show slot = 0 ∨ slot = 1 by omega) with rfl | rfl <;> rfl
  obtain ⟨wait, hwait⟩ := hasleep
  refine ⟨wait, hwait, ?_⟩
  cases wait with
  | ressource job =>
      have hcount := freeCpus_of_room (by rw [hwf.slots]; exact hwf.usage.row_length)
        (fun row hmem => ⟨0, by rw [hwf.slots]; omega, hfree row hmem 0 (by
          rw [hwf.slots]
          omega)⟩) 0
      have hle := reachable_admitted hs job (by rw [hwait]; exact List.mem_singleton_self job)
      rw [Wait.Over, ressourceAvailable, bind_of_ok hcount, hwf.usage.1, Nat.zero_add,
        decide_eq_true hle]
  | change id config =>
      have hcurrent := hwf.current id config (by rw [hwait]; rfl)
      exact ⟨[], check_of_idle hs hidle fun p hp => (hwf.config_range hcurrent hp).1, .inl rfl⟩
  | done => exact allFree_of_free hfree

theorem clearUtil_ok {machines : Nat} {config : ExecuteConfig} {util : MembwUtil}
    (hutil : util.Rectangular machines 2) (hrange : ∀ p ∈ config, p.1 < machines ∧ p.2 < 2) :
    ∃ util', clearUtil config util = .ok util' := by
  induction config generalizing util with
  | nil => exact ⟨util, rfl⟩
  | cons p rest ih =>
      obtain ⟨x, hx⟩ := Option.isSome_iff_exists.mp
        ((hutil.isSome_iff p).mpr (hrange p List.mem_cons_self))
      rw [clearUtil, bind_of_ok (Grid.read_eq_ok.mpr hx)]
      exact ih (hutil.put p 0) fun q hq => hrange q (List.mem_cons_of_mem p hq)

/-- The locked block of a completion thread returns. -/
theorem complete_ok (hwf : WellFormed s) (hfree : s.LockFree) {id : Nat}
    (hphase : InPhase s.controller id .ended) : ∃ s', step σ s (.complete id) = .ok s' := by
  have hid := running_of_inPhase hphase (.inr rfl)
  obtain ⟨c, hcomplete⟩ := executeCommandInternal_ok hwf.consistent hid
  obtain ⟨config, heffect⟩ := executeCommandInternal_effect hcomplete
  have hrange : ∀ p ∈ config, p.1 < s.controller.machines.length ∧ p.2 < 2 := by
    intro p hp
    have howner := (hwf.consistent.owner_iff p id).mpr ⟨hid, config, heffect.row, hp⟩
    exact (hwf.usage.isSome_iff p).mp (by rw [howner]; rfl)
  obtain ⟨util, hutil⟩ := clearUtil_ok hwf.util hrange
  have hrow : c.idToConfig[id]? = some config := by
    rw [heffect.idToConfig]
    exact heffect.row
  refine ⟨{ s with controller := c, membwUtil := util }, ?_⟩
  rw [step, require_of hfree, bind_of_ok rfl, completeStep, require_of hphase, bind_of_ok rfl,
    bind_of_ok hcomplete, commandDone, bind_of_ok (fetch_eq_ok.mpr hrow), bind_of_ok hutil]

end Waiting

section Launch

variable {σ : Settings} {machines : List String} {systemConfig : SystemConfig}
  {vmLocations : Vm.VmLocations} {jobs : List Job} {s : State × Bool}

theorem launch_runs (hs : (launch σ machines systemConfig vmLocations jobs).Reachable s) :
    ((system σ).startingAt (start machines systemConfig vmLocations jobs)).Reachable s.1 :=
  @restrict_reachable _ _ _ (allowed σ.backend) _ (notified_startingAt hs)

theorem step_of_stuck (hstuck : (launch σ machines systemConfig vmLocations jobs).Stuck s)
    {action : Action} {t : State} (hstep : step σ s.1 action = .ok t)
    (hallowed : allowed σ.backend s.1 action = true) :
    sleeper.wakes action = true ∧ s.2 = false :=
  notified_step_none (hstuck action) (restrict_step.mpr ⟨hallowed, hstep⟩)

variable (hslots : systemConfig.slots.length = 2)
  (hvms : VmsStarted machines σ.backend vmLocations)
  (hs : (launch σ machines systemConfig vmLocations jobs).Reachable s)

include hslots hvms hs

theorem launch_notified :
    (((system σ).restrict (allowed σ.backend)).notified sleeper).Reachable s := by
  have hinit : (((system σ).restrict (allowed σ.backend)).notified sleeper).Init
      (start machines systemConfig vmLocations jobs, false) :=
    ⟨⟨machines, systemConfig, vmLocations, jobs, hslots, hvms, rfl⟩, rfl⟩
  exact ReachableVia.append (.init hinit) hs

theorem launch_reachable : (system σ).Reachable s.1 :=
  restrict_reachable (notified_reachable (launch_notified hslots hvms hs))

theorem threads_of_stuck
    (hstuck : (launch σ machines systemConfig vmLocations jobs).Stuck s) :
    ThreadsStopped s.1.controller s.1.LockFree
      fun id => allowed σ.backend s.1 (.processEnd id) := by
  have hwf := reachable_wellFormed (launch_reachable hslots hvms hs)
  refine ⟨fun id hid hfree => ?_, fun id hid => ?_, fun id hid => ?_⟩
  · obtain ⟨t, ht⟩ := @complete_ok σ _ hwf hfree _ hid
    cases (step_of_stuck hstuck ht rfl).1
  · have hstep : step σ s.1 (.notifyAll id) = .ok { s.1 with
        controller := s.1.controller.setPhase id .finished
        waiters := s.1.waiters.map Waiter.notify } := by
      rw [step, notifyStep, require_of hid, bind_of_ok rfl]
    cases (step_of_stuck hstuck hstep rfl).1
  · have hstep : step σ s.1 (.processEnd id) =
        .ok { s.1 with controller := s.1.controller.setPhase id .ended } := by
      rw [step, require_of hid, bind_of_ok rfl]
    by_contra hallowed
    cases (step_of_stuck hstuck hstep (by simpa using hallowed)).1

end Launch

end Poncos.MultiApp

namespace Poncos

open Poncos.Library.Execution
open Poncos.Library.Transition
open Poncos.Library.Transition.System

end Poncos
