import Poncos.MultiApp.Schedule

/-!
Everything one step can do, one constructor for each way a step returns.  The
invariants of the runs are derived from this relation and never unfold the step
function.
-/

namespace Poncos.MultiApp

open Poncos.Library
open Poncos.Library.Execution
open Poncos.Library.Transition

/-- Entering the measured utilisations writes the slots of a config that were at
zero, and nothing else. -/
structure Measured (config : ExecuteConfig) (distgenRes : List ℚ)
    (util util' : MembwUtil) : Prop where
  length_eq : distgenRes.length = config.length
  zero : config.Nodup → ∀ p ∈ config, util.get? p = some 0
  others : ∀ p, p ∉ config → util'.get? p = util.get? p
  entered : config.Nodup → ∀ p ∈ config, ∃ result ∈ distgenRes,
    util'.get? p = some (1 - result)
  rectangular : ∀ rows columns, util.Rectangular rows columns →
    util'.Rectangular rows columns

structure Cleared (config : ExecuteConfig) (util util' : MembwUtil) : Prop where
  get?_eq : ∀ p, util'.get? p = if p ∈ config then some 0 else util.get? p
  rectangular : ∀ rows columns, util.Rectangular rows columns →
    util'.Rectangular rows columns

theorem enterMeasured_measured {config : ExecuteConfig} {distgenRes : List ℚ}
    {util util' : MembwUtil} (hlen : distgenRes.length = config.length)
    (h : enterMeasured (config.zip distgenRes) util = .ok util') :
    Measured config distgenRes util util' := by
  induction config generalizing distgenRes util with
  | nil =>
      cases h
      exact ⟨hlen, by simp, fun _ _ => rfl, by simp, fun _ _ hu => hu⟩
  | cons c rest ih =>
      cases distgenRes with
      | nil => simp at hlen
      | cons result results =>
          simp only [List.zip_cons_cons, enterMeasured, bind_eq_ok, Grid.read_eq_ok,
            ensure_eq_ok] at h
          obtain ⟨_, hc, _, rfl, h⟩ := h
          obtain ⟨_, hzero, hothers, hentered, hrect⟩ := ih (by simpa using hlen) h
          have hput : ∀ p ∈ rest, c ∉ rest →
              (util.put c (1 - result)).get? p = util.get? p := by
            intro p hp hnot
            apply Grid.get?_put_of_ne
            rintro rfl
            exact hnot hp
          refine ⟨hlen, ?_, ?_, ?_, fun _ _ hu => hrect _ _ (hu.put c _)⟩
          · intro hnodup p hp
            obtain ⟨hnot, hnodup⟩ := List.nodup_cons.mp hnodup
            rcases List.mem_cons.mp hp with rfl | hp
            · exact hc
            · rw [← hput p hp hnot]
              exact hzero hnodup p hp
          · intro p hp
            rw [List.mem_cons, not_or] at hp
            rw [hothers p hp.2, Grid.get?_put_of_ne _ (Ne.symm hp.1)]
          · intro hnodup p hp
            obtain ⟨hnot, hnodup⟩ := List.nodup_cons.mp hnodup
            rcases List.mem_cons.mp hp with rfl | hp
            · refine ⟨result, List.mem_cons_self, ?_⟩
              rw [hothers p hnot]
              exact Grid.get?_put_self _ (by simp [hc])
            · obtain ⟨r, hr, hget⟩ := hentered hnodup p hp
              exact ⟨r, List.mem_cons_of_mem _ hr, hget⟩

theorem clearUtil_cleared {config : ExecuteConfig} {util util' : MembwUtil}
    (h : clearUtil config util = .ok util') : Cleared config util util' := by
  induction config generalizing util with
  | nil =>
      cases h
      exact ⟨by simp, fun _ _ hu => hu⟩
  | cons c rest ih =>
      simp only [clearUtil, bind_eq_ok, Grid.read_eq_ok] at h
      obtain ⟨old, hc, h⟩ := h
      obtain ⟨hget, hrect⟩ := ih h
      refine ⟨fun p => ?_, fun _ _ hu => hrect _ _ (hu.put c _)⟩
      rw [hget, Grid.get?_put]
      rcases eq_or_ne c p with rfl | hne
      · simp [hc]
      · simp [hne, Ne.symm hne]

/-- The swap the overload loop found for job `id`. -/
structure Proposed (σ : Settings) (s : State) (id : Nat) (marked : List Nat)
    (oldConfig newConfig : ExecuteConfig) (swapCandidates : List Nat) : Prop where
  supported : σ.backend.updateSupported = true
  row : s.controller.idToConfig[id]? = some oldConfig
  candidates : findSwapCandidates σ.sorter s.controller.systemConfig.slots.length
    s.membwUtil marked = .ok swapCandidates
  generated : generateNewConfig σ.sorter s.controller.systemConfig.slots.length
    s.membwUtil oldConfig marked swapCandidates = .ok newConfig

/-- No swap resolves the overload: there is none to be had, or the proposal is
empty. -/
def NoSwap (σ : Settings) (s : State) (id : Nat) (marked : List Nat) : Prop :=
  ∃ oldConfig, proposeSwap σ id marked s = .ok (oldConfig, [])

theorem proposeSwap_proposed {σ : Settings} {s : State} {id : Nat} {marked : List Nat}
    {oldConfig newConfig : ExecuteConfig}
    (h : proposeSwap σ id marked s = .ok (oldConfig, newConfig))
    (hne : newConfig ≠ []) :
    ∃ swapCandidates, Proposed σ s id marked oldConfig newConfig swapCandidates := by
  rw [proposeSwap] at h
  split at h
  · rename_i hsupported
    simp only [bind_eq_ok, fetch_eq_ok] at h
    obtain ⟨swapCandidates, hcandidates, oldConfig', hrow, newConfig', hgenerate, h⟩ := h
    cases h
    exact ⟨swapCandidates, hsupported, hrow, hcandidates, hgenerate⟩
  · cases h
    exact absurd rfl hne

abbrev Check (s : State) (config : ExecuteConfig) (marked : List Nat) : Prop :=
  checkMembw s.controller.systemConfig.slots.length s.membwUtil config = .ok marked

inductive Trans (σ : Settings) (s : State) : Action → State → Prop
  | nextJob {r : List ℚ} {job : Job} {rest : List Job} : s.pc = .nextJob →
      s.queue = job :: rest →
      Trans σ s (.schedule r) { s with queue := rest, pc := .waitRessource job }
  | lastJob {r : List ℚ} : s.pc = .nextJob → s.queue = [] →
      Trans σ s (.schedule r) { s with pc := .done }
  | ressource {r : List ℚ} {job : Job} : s.pc = .waitRessource job →
      s.controller.ressourceAvailable job.reqCpus 1 = .ok true →
      Trans σ s (.schedule r) { s with pc := .select job }
  | noRessource {r : List ℚ} {job : Job} : s.pc = .waitRessource job →
      s.controller.ressourceAvailable job.reqCpus 1 = .ok false →
      Trans σ s (.schedule r) { s with pc := .asleep (.ressource job) }
  | select {r : List ℚ} {job : Job} {config : ExecuteConfig} {c : Controller}
      {id : Nat} : s.pc = .select job →
      selectSlots s.controller.systemConfig.slots.length
        s.controller.systemConfig.slotSize job.reqCpus 0 s.controller.machineUsage [] =
          .ok config →
      Controller.ExecuteEffect s.controller c job config id →
      Trans σ s (.schedule r) { s with controller := c, pc := .freezeOpposing id config }
  | freezeOpposing {r : List ℚ} {id : Nat} {config : ExecuteConfig}
      {messages : List Message} : s.pc = .freezeOpposing id config →
      Controller.freezeOpposing σ.backend s.controller s.vmLocations id = .ok messages →
      Trans σ s (.schedule r)
        { s with log := s.log ++ messages, pc := .runDistgen id config }
  | runDistgen {r : List ℚ} {id : Nat} {config : ExecuteConfig} {util : MembwUtil} :
      s.pc = .runDistgen id config → Measured config r s.membwUtil util →
      Trans σ s (.schedule r) { s with membwUtil := util, pc := .thawOpposing id config }
  | thawOpposing {r : List ℚ} {id : Nat} {config : ExecuteConfig}
      {messages : List Message} : s.pc = .thawOpposing id config →
      Controller.thawOpposing σ.backend s.controller s.vmLocations id = .ok messages →
      Trans σ s (.schedule r)
        { s with log := s.log ++ messages, pc := .overload id config false }
  | fits {r : List ℚ} {id : Nat} {config : ExecuteConfig} {frozen : Bool}
      {messages : List Message} : s.pc = .overload id config frozen →
      Check s config [] → thawIfFrozen σ id frozen s = .ok messages →
      Trans σ s (.schedule r) { s with log := s.log ++ messages, pc := .nextJob }
  | swap {r : List ℚ} {id : Nat} {config oldConfig newConfig : ExecuteConfig}
      {frozen : Bool} {messages : List Message} {marked swapCandidates : List Nat} :
      s.pc = .overload id config frozen → Check s config marked → marked ≠ [] →
      Proposed σ s id marked oldConfig newConfig swapCandidates → newConfig ≠ [] →
      thawIfFrozen σ id frozen s = .ok messages →
      Trans σ s (.schedule r)
        { s with
          log := s.log ++ messages
          pc := .updateConfig id config oldConfig newConfig }
  | stillFrozen {r : List ℚ} {id : Nat} {config : ExecuteConfig} {marked : List Nat} :
      s.pc = .overload id config true → Check s config marked → marked ≠ [] →
      NoSwap σ s id marked →
      Trans σ s (.schedule r) { s with pc := .asleep (.change id config) }
  | freeze {r : List ℚ} {id : Nat} {config : ExecuteConfig} {messages : List Message}
      {marked : List Nat} : s.pc = .overload id config false → Check s config marked →
      marked ≠ [] → NoSwap σ s id marked →
      σ.backend = .vm →
      Controller.freeze σ.backend s.controller s.vmLocations id = .ok messages →
      Trans σ s (.schedule r)
        { s with log := s.log ++ messages, pc := .asleep (.change id config) }
  | freezeDetach {r : List ℚ} {id : Nat} {config : ExecuteConfig}
      {messages : List Message} {marked : List Nat} :
      s.pc = .overload id config false → Check s config marked → marked ≠ [] →
      σ.backend = .cgroup →
      Controller.freeze σ.backend s.controller s.vmLocations id = .ok messages →
      Trans σ s (.schedule r)
        { s with
          log := s.log ++ messages
          waiters := s.waiters ++ [⟨id, config, .started⟩]
          pc := .nextJob }
  | updateConfig {r : List ℚ} {id : Nat} {config oldConfig newConfig : ExecuteConfig}
      {c : Controller} {vmLocations : Vm.VmLocations} {util : MembwUtil}
      {tasks : List (String × Vm.Migrate)} :
      s.pc = .updateConfig id config oldConfig newConfig →
      Vm.updateConfig id newConfig s.controller s.vmLocations =
        .ok (c, vmLocations, tasks) →
      updateMembwUtil s.controller.systemConfig.slots.length s.membwUtil oldConfig
        newConfig = .ok util →
      Trans σ s (.schedule r)
        { s with
          controller := c
          vmLocations := vmLocations
          membwUtil := util
          log := s.log ++ tasks.map fun task => ⟨task.1, .migrate task.2⟩
          pc := .nextJob }
  | allDone {r : List ℚ} : s.pc = .done →
      Controller.allFree s.controller.systemConfig s.controller.machineUsage = .ok true →
      Trans σ s (.schedule r) { s with pc := .finished }
  | notDone {r : List ℚ} : s.pc = .done →
      Controller.allFree s.controller.systemConfig s.controller.machineUsage = .ok false →
      Trans σ s (.schedule r) { s with pc := .asleep .done }
  | wake {wait : Wait} : s.pc = .asleep wait →
      Trans σ s .wake { s with pc := wait.resume }
  | processEnd {id : Nat} : Controller.InPhase s.controller id .executing →
      Trans σ s (.processEnd id)
        { s with controller := s.controller.setPhase id .ended }
  | complete {id : Nat} {wait : Wait} {c : Controller} {config : ExecuteConfig}
      {util : MembwUtil} : s.pc = .asleep wait → Controller.InPhase s.controller id .ended →
      Controller.CompleteEffect s.controller c id config →
      Cleared config s.membwUtil util →
      Trans σ s (.complete id) { s with controller := c, membwUtil := util }
  | notifyAll {id : Nat} : Controller.InPhase s.controller id .notifying →
      Trans σ s (.notifyAll id)
        { s with
          controller := s.controller.setPhase id .finished
          waiters := s.waiters.map Waiter.notify }
  | waiterWait {index id : Nat} {wait : Wait} {config : ExecuteConfig} :
      s.pc = .asleep wait → s.waiters[index]? = some ⟨id, config, .started⟩ →
      Trans σ s (.waiterWait index)
        { s with waiters := s.waiters.set index ⟨id, config, .asleep false⟩ }
  | waiterThaw {index id : Nat} {wait : Wait} {config : ExecuteConfig} {notified : Bool}
      {marked : List Nat} {messages : List Message} : s.pc = .asleep wait →
      s.waiters[index]? = some ⟨id, config, .asleep notified⟩ →
      Check s config marked → (∀ m ∈ marked, ∀ c ∈ config, c.1 ≠ m) →
      Controller.thaw σ.backend s.controller s.vmLocations id = .ok messages →
      Trans σ s (.waiterWake index)
        { s with
          log := s.log ++ messages
          waiters := s.waiters.set index ⟨id, config, .finished⟩ }
  | waiterSleep {index id : Nat} {wait : Wait} {config : ExecuteConfig}
      {notified : Bool} {marked : List Nat} : s.pc = .asleep wait →
      s.waiters[index]? = some ⟨id, config, .asleep notified⟩ →
      Check s config marked → ¬ (∀ m ∈ marked, ∀ c ∈ config, c.1 ≠ m) →
      Trans σ s (.waiterWake index)
        { s with waiters := s.waiters.set index ⟨id, config, .asleep false⟩ }

section Inversion

variable {σ : Settings} {s s' : State}

theorem overloadStep_trans {r : List ℚ} {id : Nat} {config : ExecuteConfig}
    {frozen : Bool} (hpc : s.pc = .overload id config frozen)
    (h : overloadStep σ id config frozen s = .ok s') : Trans σ s (.schedule r) s' := by
  simp only [overloadStep, bind_eq_ok] at h
  obtain ⟨marked, hcheck, h⟩ := h
  split at h
  · rename_i hmarked
    subst hmarked
    simp only [bind_eq_ok] at h
    obtain ⟨messages, hthaw, h⟩ := h
    cases h
    exact .fits hpc hcheck hthaw
  · rename_i hmarked
    simp only [bind_eq_ok, Prod.exists] at h
    obtain ⟨oldConfig, newConfig, hpropose, h⟩ := h
    split at h
    · rename_i hne
      simp only [bind_eq_ok] at h
      obtain ⟨_, _, messages, hthaw, h⟩ := h
      cases h
      obtain ⟨swapCandidates, hproposed⟩ := proposeSwap_proposed hpropose hne
      exact .swap hpc hcheck hmarked hproposed hne hthaw
    · rename_i hempty
      rw [not_not] at hempty
      subst hempty
      cases frozen with
      | true =>
          cases h
          exact .stillFrozen hpc hcheck hmarked ⟨oldConfig, hpropose⟩
      | false =>
          simp only [Bool.false_eq_true, if_false, bind_eq_ok] at h
          obtain ⟨messages, hfreeze, h⟩ := h
          cases hbackend : σ.backend with
          | vm =>
              simp only [hbackend, Backend.updateSupported, if_true] at h
              cases h
              exact .freeze hpc hcheck hmarked ⟨oldConfig, hpropose⟩ hbackend hfreeze
          | cgroup =>
              simp only [hbackend, Backend.updateSupported, Bool.false_eq_true,
                if_false] at h
              cases h
              exact .freezeDetach hpc hcheck hmarked hbackend hfreeze

theorem scheduleStep_trans {r : List ℚ} (h : scheduleStep σ r s = .ok s') :
    Trans σ s (.schedule r) s' := by
  cases hpc : s.pc with
  | nextJob =>
      simp only [scheduleStep, hpc] at h
      split at h
      · rename_i hqueue
        cases h
        exact .lastJob hpc hqueue
      · rename_i job rest hqueue
        simp only [bind_eq_ok] at h
        obtain ⟨_, _, h⟩ := h
        cases h
        exact .nextJob hpc hqueue
  | waitRessource job =>
      simp only [scheduleStep, hpc, bind_eq_ok] at h
      obtain ⟨available, havailable, h⟩ := h
      cases h
      cases available with
      | true => exact .ressource hpc havailable
      | false => exact .noRessource hpc havailable
  | select job =>
      simp only [scheduleStep, hpc, bind_eq_ok, Prod.exists] at h
      obtain ⟨config, hselect, _, _, c, id, hexecute, h⟩ := h
      cases h
      exact .select hpc hselect (Controller.execute_effect hexecute)
  | freezeOpposing id config =>
      simp only [scheduleStep, hpc, bind_eq_ok] at h
      obtain ⟨messages, hfreeze, h⟩ := h
      cases h
      exact .freezeOpposing hpc hfreeze
  | runDistgen id config =>
      simp only [scheduleStep, hpc, bind_eq_ok, ensure_eq_ok] at h
      obtain ⟨_, _, _, _, _, _, _, hlen, util, hmeasured, h⟩ := h
      cases h
      exact .runDistgen hpc (enterMeasured_measured hlen hmeasured)
  | thawOpposing id config =>
      simp only [scheduleStep, hpc, bind_eq_ok] at h
      obtain ⟨messages, hthaw, h⟩ := h
      cases h
      exact .thawOpposing hpc hthaw
  | overload id config frozen =>
      simp only [scheduleStep, hpc] at h
      exact overloadStep_trans hpc h
  | updateConfig id config oldConfig newConfig =>
      simp only [scheduleStep, hpc, bind_eq_ok, Prod.exists] at h
      obtain ⟨c, vmLocations, tasks, hupdate, util, hmembw, h⟩ := h
      cases h
      exact .updateConfig hpc hupdate hmembw
  | done =>
      simp only [scheduleStep, hpc, bind_eq_ok] at h
      obtain ⟨free, hfree, h⟩ := h
      cases h
      cases free with
      | true => exact .allDone hpc hfree
      | false => exact .notDone hpc hfree
  | asleep wait => simp [scheduleStep, hpc] at h
  | finished => simp [scheduleStep, hpc] at h

theorem completeStep_trans {id : Nat} {wait : Wait} (hpc : s.pc = .asleep wait)
    (h : completeStep id s = .ok s') : Trans σ s (.complete id) s' := by
  simp only [completeStep, commandDone, bind_eq_ok, require_eq_ok, fetch_eq_ok] at h
  obtain ⟨_, hphase, c, hcomplete, util, ⟨config, hrow, hclear⟩, h⟩ := h
  cases h
  obtain ⟨config', heffect⟩ := Controller.executeCommandInternal_effect hcomplete
  rw [heffect.idToConfig] at hrow
  obtain rfl : config = config' := Option.some_inj.mp (hrow.symm.trans heffect.row)
  exact .complete hpc hphase heffect (clearUtil_cleared hclear)

theorem waiterWaitStep_trans {index : Nat} {wait : Wait} (hpc : s.pc = .asleep wait)
    (h : waiterWaitStep index s = .ok s') : Trans σ s (.waiterWait index) s' := by
  rw [waiterWaitStep] at h
  split at h
  · rename_i id config hwaiter
    cases h
    exact .waiterWait hpc hwaiter
  · cases h

theorem waiterWakeStep_trans {index : Nat} {wait : Wait} (hpc : s.pc = .asleep wait)
    (h : waiterWakeStep σ index s = .ok s') : Trans σ s (.waiterWake index) s' := by
  rw [waiterWakeStep] at h
  split at h
  · rename_i id config notified hwaiter
    simp only [bind_eq_ok] at h
    obtain ⟨marked, hcheck, h⟩ := h
    split at h
    · rename_i hok
      simp only [bind_eq_ok] at h
      obtain ⟨messages, hthaw, h⟩ := h
      cases h
      exact .waiterThaw hpc hwaiter hcheck (by simpa using hok) hthaw
    · rename_i hnot
      cases h
      exact .waiterSleep hpc hwaiter hcheck (by simpa using hnot)
  · cases h

/-- A step that returns is one of the transitions. -/
theorem step_trans {action : Action} (h : step σ s action = .ok s') :
    Trans σ s action s' := by
  cases action with
  | schedule r => exact scheduleStep_trans h
  | wake =>
      simp only [step, wakeStep] at h
      split at h
      · rename_i wait hpc
        cases h
        exact .wake hpc
      · cases h
  | processEnd id =>
      simp only [step, bind_eq_ok, require_eq_ok] at h
      obtain ⟨_, hphase, h⟩ := h
      cases h
      exact .processEnd hphase
  | complete id =>
      simp only [step, bind_eq_ok, require_eq_ok] at h
      obtain ⟨_, ⟨wait, hpc⟩, h⟩ := h
      exact completeStep_trans hpc h
  | notifyAll id =>
      simp only [step, notifyStep, bind_eq_ok, require_eq_ok] at h
      obtain ⟨_, hphase, h⟩ := h
      cases h
      exact .notifyAll hphase
  | waiterWait index =>
      simp only [step, bind_eq_ok, require_eq_ok] at h
      obtain ⟨_, ⟨wait, hpc⟩, h⟩ := h
      exact waiterWaitStep_trans hpc h
  | waiterWake index =>
      simp only [step, bind_eq_ok, require_eq_ok] at h
      obtain ⟨_, ⟨wait, hpc⟩, h⟩ := h
      exact waiterWakeStep_trans hpc h

end Inversion

end Poncos.MultiApp
