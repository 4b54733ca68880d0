import Poncos.Controller.TimedRuns
import Poncos.MultiApp.Frozen
import Poncos.MultiApp.SwapTables
import Poncos.Schedulers.JobsDone
import Poncos.Vm.Placement

/-!
The timers in runs of the three schedulers.  Every job is frozen and moved at most once
and thawed only while it is frozen, so that the names of two calls are different unless
the hosts of two migrations of one `update_config` read the same.
-/

namespace Poncos

open Poncos.Library
open Poncos.Library.Execution
open Poncos.Library.Transition
open Poncos.Controller

/-- No two migrations between four different machines have timers of one name. -/
def NamesApart (machines : List String) : Prop :=
  ∀ (i j k l : Nat) (a b c d : String), [i, j, k, l].Nodup → machines[i]? = some a →
    machines[j]? = some b → machines[k]? = some c → machines[l]? = some d →
      a ++ "-" ++ b ≠ c ++ "-" ++ d

theorem namesApart_of_noDash {machines : List String} (hnodup : machines.Nodup)
    (hdash : ∀ host ∈ machines, '-' ∉ host.toList) : NamesApart machines := by
  intro i j k l a b c d hdistinct ha hb hc hd heq
  have heq := congrArg String.toList heq
  simp only [String.toList_append, List.append_assoc] at heq
  have hsame := (append_cons_inj (hdash a (List.mem_of_getElem? ha))
    (hdash c (List.mem_of_getElem? hc)) heq).1
  obtain rfl := String.toList_injective hsame
  have hik : i = k := (List.getElem?_inj (List.getElem?_eq_some_iff.mp ha).1 hnodup).mp
    (ha.trans hc.symm)
  simp [hik] at hdistinct

/-- The migrations of one call have timers of different names. -/
theorem swaps_nodup {c : Controller} {vmLocations : Vm.VmLocations} {id : Nat}
    {oldConfig : ExecuteConfig} {moves : List (ExecuteConfigElem × ExecuteConfigElem)}
    {tasks : List (Option (String × Vm.Migrate))} (hnames : NamesApart c.machines)
    (hseparate : SeparateMoves (MultiApp.machineMoves moves))
    (htasks : moves.mapM (Vm.requestSwap c vmLocations id oldConfig) = .ok tasks) :
    (((tasks.filterMap fun task => task).map fun task => (task.1, task.2.destHostname)).map
      fun hosts => hosts.1 ++ "-" ++ hosts.2).Nodup := by
  rw [List.map_map, List.Nodup, List.pairwise_map]
  refine pairwise_of_forall₂ (Vm.tasks_sent htasks) (List.pairwise_map.mp hseparate) ?_
  rintro move move' task task' hsent hsent' ⟨⟨h₁, h₂⟩, h₃, h₄⟩
  have hhosts := hsent.requested.hosts
  have hhosts' := hsent'.requested.hosts
  dsimp only at h₁ h₂ h₃ h₄
  exact hnames _ _ _ _ _ _ _ _ (by simp [h₁, h₂, h₃, h₄, hhosts, hhosts']) hsent.srcHost
    hsent.destHost hsent'.srcHost hsent'.destHost

/-- The controller of a system that refines the job queue. -/
theorem consistent_of_refines {σ ι η : Type} {M : System σ ι} {h₀ : η}
    {record : σ → ι → η → η} {controller : σ → Controller} {jobs : List Job}
    {abs : σ × η → JobQueue.State}
    (hrefines : (M.withHistory h₀ record).Refines (JobQueue.system jobs) JobQueue.Admissible abs)
    (habs : ∀ s, (abs s).controller = controller s.1) {s : σ} (hs : M.Reachable s) :
    (controller s).Consistent := by
  obtain ⟨h, hs⟩ := @System.ReachableVia.exists_history _ _ _ M h₀ record _ _ hs
  have haccounted := JobQueue.reachable_accounted (hrefines.reachable hs)
  rw [← habs (s, h)]
  exact haccounted.consistent

theorem lt_of_inPhase {c : Controller} (hc : c.Consistent) {id : Nat}
    (h : InPhase c id .executing) : id < c.cmdCounter :=
  hc.running_lt (running_of_inPhase h (.inl rfl))

namespace MultiApp

section Uses

variable (σ : Settings)

/-- The timers in one pass of the overload loop, branch by branch. -/
def overloadTimers (id : Nat) (config : ExecuteConfig) (frozen : Bool) (s : State) :
    Exec TimerUse := do
  let marked ← checkMembw s.controller.systemConfig.slots.length s.membwUtil config
  if marked = [] then .ok (if frozen then .thaw id else .none)
  else do
    let (_, newConfig) ← proposeSwap σ id marked s
    if newConfig ≠ [] then .ok (if frozen then .thaw id else .none)
    else .ok (if frozen then .none else .freeze id)

def updateTimers (id : Nat) (newConfig : ExecuteConfig) (s : State) : Exec TimerUse := do
  let (_, _, tasks) ← Vm.updateConfig id newConfig s.controller s.vmLocations
  .ok (.updateConfig id (tasks.map fun task => (task.1, task.2.destHostname)))

def waiterTimers (index : Nat) (s : State) : Exec TimerUse :=
  match s.waiters[index]? with
  | some ⟨id, config, .asleep _⟩ => do
      let marked ← checkMembw s.controller.systemConfig.slots.length s.membwUtil config
      .ok (if marked.all fun m => config.all fun c => c.1 ≠ m then .thaw id else .none)
  | _ => .ok .none

def timerUse (s : State) : Action → TimerUse
  | .schedule _ =>
      match s.pc with
      | .overload id config frozen => .made (overloadTimers σ id config frozen s)
      | .updateConfig id _ _ newConfig => .made (updateTimers id newConfig s)
      | _ => .none
  | .waiterWake index => .made (waiterTimers index s)
  | .processEnd id => .processEnd id
  | .wake | .complete _ | .notifyAll _ | .waiterWait _ => .none

def timedRuns (machines : List String) (systemConfig : SystemConfig)
    (vmLocations : Vm.VmLocations) (jobs : List Job) : System (Timed State) (TimedAction Action) :=
  timed ((system σ).startingAt (start machines systemConfig vmLocations jobs))
    State.controller (timerUse σ)

end Uses

/-- Jobs are frozen, thawed and moved only by the pass that started them and by their
waiters. -/
def duties (s : State) : Duties where
  freezable id := s.controller.cmdCounter ≤ id ∨ s.pc.fresh = some id
  thawable := FrozenJob s
  updatable id := s.controller.cmdCounter ≤ id ∨ s.pc.current.map Prod.fst = some id

variable {σ : Settings} {s s' : State}

theorem overloadTimers_noSwap {id : Nat} {config oldConfig : ExecuteConfig} {frozen : Bool}
    {marked : List Nat} (hcheck : Check s config marked) (hmarked : marked ≠ [])
    (hpropose : proposeSwap σ id marked s = .ok (oldConfig, [])) :
    overloadTimers σ id config frozen s = .ok (if frozen then .none else .freeze id) := by
  rw [overloadTimers, bind_of_ok hcheck, if_neg hmarked, bind_of_ok hpropose]
  exact if_neg (not_not_intro rfl)

theorem Trans.cmdCounter_le {action : Action} (ht : Trans σ s action s') :
    s.controller.cmdCounter ≤ s'.controller.cmdCounter := by
  cases ht with
  | select _ _ heffect =>
      rw [heffect.cmdCounter]
      exact Nat.le_succ _
  | complete _ _ heffect => exact heffect.cmdCounter.ge
  | updateConfig _ hupdate =>
      obtain ⟨_, hok⟩ := Vm.updateConfig_ok hupdate
      exact (updateConfig_frame hok.base).2.2.ge
  | _ => exact le_rfl

/-- The job of a pass is the one that was executed in it. -/
theorem Trans.freezable {action : Action} (ht : Trans σ s action s') {id : Nat}
    (hid : (duties s').freezable id) : (duties s).freezable id := by
  rcases hid with hid | hid
  · exact .inl (ht.cmdCounter_le.trans hid)
  · cases ht with
    | select _ _ heffect =>
        cases hid
        exact .inl heffect.id_eq.ge
    | freezeOpposing hpc | runDistgen hpc | thawOpposing hpc => exact .inr (by rwa [hpc])
    | @wake wait hpc => cases wait <;> cases hid
    | processEnd | complete | notifyAll | waiterWait | waiterThaw | waiterSleep =>
        exact .inr hid
    | _ => cases hid

theorem Trans.updatable {action : Action} (ht : Trans σ s action s') {id : Nat}
    (hid : (duties s').updatable id) : (duties s).updatable id := by
  rcases hid with hid | hid
  · exact .inl (ht.cmdCounter_le.trans hid)
  · cases ht with
    | select _ _ heffect =>
        cases hid
        exact .inl heffect.id_eq.ge
    | freezeOpposing hpc | runDistgen hpc | thawOpposing hpc | swap hpc | stillFrozen hpc
    | freeze hpc => exact .inr (by rwa [hpc])
    | @wake wait hpc =>
        cases wait with
        | change id config => exact .inr (by rwa [hpc])
        | ressource job => cases hid
        | done => cases hid
    | processEnd | complete | notifyAll | waiterWait | waiterThaw | waiterSleep =>
        exact .inr hid
    | _ => cases hid

theorem timerUse_overload {r : List ℚ} {id : Nat} {config : ExecuteConfig} {frozen : Bool}
    {use : TimerUse} (hpc : s.pc = .overload id config frozen)
    (h : overloadTimers σ id config frozen s = .ok use) : timerUse σ s (.schedule r) = use := by
  simp only [timerUse, hpc, h, TimerUse.made]

/-- A job is frozen by its `freeze` only. -/
theorem Trans.thawable {action : Action} (ht : Trans σ s action s') {j : Nat}
    (hj : FrozenJob s' j) : FrozenJob s j ∨ timerUse σ s action = .freeze j := by
  cases ht with
  | freeze hpc hcheck hmarked hnoSwap =>
      rcases hj with hj | hj
      · exact .inl (.inl hj)
      · cases hj
        obtain ⟨_, hpropose⟩ := hnoSwap
        exact .inr (timerUse_overload hpc (overloadTimers_noSwap hcheck hmarked hpropose))
  | @freezeDetach r id config _ marked hpc hcheck hmarked hbackend =>
      rcases hj with ⟨w, hw, hid, hphase⟩ | hj
      · rcases List.mem_append.mp hw with hw | hw
        · exact .inl (.inl ⟨w, hw, hid, hphase⟩)
        · rw [List.mem_singleton.mp hw] at hid
          cases hid
          have hpropose : proposeSwap σ id marked s = .ok ([], []) := by
            rw [proposeSwap, if_neg (by simp [hbackend, Backend.updateSupported])]
          exact .inr (timerUse_overload hpc (overloadTimers_noSwap hcheck hmarked hpropose))
      · cases hj
  | stillFrozen hpc => exact .inl (hj.imp_right fun heq => by rwa [hpc])
  | @wake wait hpc =>
      left
      cases wait with
      | change id config => exact hj.imp_right fun heq => by rwa [hpc]
      | ressource job => exact hj.imp_right (by rintro ⟨⟩)
      | done => exact hj.imp_right (by rintro ⟨⟩)
  | notifyAll => exact .inl (frozenJob_notify hj)
  | waiterWait _ hwaiter => exact .inl (frozenJob_set hj hwaiter rfl (by simp))
  | waiterThaw _ hwaiter => exact .inl (frozenJob_set hj hwaiter rfl (by simp))
  | waiterSleep _ hwaiter => exact .inl (frozenJob_set hj hwaiter rfl (by simp))
  | processEnd | complete => exact .inl hj
  | _ => exact .inl (hj.imp_right (by rintro ⟨⟩))

theorem overloadTimers_cases {id : Nat} {config : ExecuteConfig} {frozen : Bool} :
    TimerUse.made (overloadTimers σ id config frozen s) = .none ∨
      frozen = true ∧ TimerUse.made (overloadTimers σ id config frozen s) = .thaw id ∨
      frozen = false ∧ TimerUse.made (overloadTimers σ id config frozen s) = .freeze id := by
  cases h : overloadTimers σ id config frozen s with
  | error fault => exact .inl rfl
  | ok use =>
      simp only [overloadTimers, bind_eq_ok] at h
      obtain ⟨marked, _, h⟩ := h
      split at h
      · cases h
        cases frozen <;> simp [TimerUse.made]
      · simp only [bind_eq_ok, Prod.exists] at h
        obtain ⟨_, newConfig, _, h⟩ := h
        split at h <;> cases h <;> cases frozen <;> simp [TimerUse.made]

theorem waiterTimers_cases {index : Nat} :
    TimerUse.made (waiterTimers index s) = .none ∨ ∃ id config notified,
      s.waiters[index]? = some ⟨id, config, .asleep notified⟩ ∧
        TimerUse.made (waiterTimers index s) = .thaw id := by
  rw [waiterTimers]
  split
  · rename_i id config notified hwaiter
    cases h : checkMembw s.controller.systemConfig.slots.length s.membwUtil config with
    | error fault => exact .inl rfl
    | ok marked =>
        rw [bind_of_ok rfl]
        rcases Classical.em ((marked.all fun m => config.all fun c => c.1 ≠ m) = true)
          with hok | hok
        · exact .inr ⟨id, config, notified, hwaiter, by rw [if_pos hok]; rfl⟩
        · exact .inl (by rw [if_neg hok]; rfl)
  · exact .inl rfl

/-- Where a step uses the timers. -/
inductive Uses (σ : Settings) (s : State) : Action → TimerUse → Prop
  | none {action : Action} : Uses σ s action .none
  | thaw {r : List ℚ} {id : Nat} {config : ExecuteConfig} :
      s.pc = .overload id config true → Uses σ s (.schedule r) (.thaw id)
  | waiterThaw {index id : Nat} {config : ExecuteConfig} {notified : Bool} :
      s.waiters[index]? = some ⟨id, config, .asleep notified⟩ →
      Uses σ s (.waiterWake index) (.thaw id)
  | freeze {r : List ℚ} {id : Nat} {config : ExecuteConfig} :
      s.pc = .overload id config false → Uses σ s (.schedule r) (.freeze id)
  | updateConfig {r : List ℚ} {id : Nat} {config oldConfig newConfig : ExecuteConfig}
      {c : Controller} {vmLocations : Vm.VmLocations} {tasks : List (String × Vm.Migrate)} :
      s.pc = .updateConfig id config oldConfig newConfig →
      Vm.updateConfig id newConfig s.controller s.vmLocations = .ok (c, vmLocations, tasks) →
      Uses σ s (.schedule r)
        (.updateConfig id (tasks.map fun task => (task.1, task.2.destHostname)))
  | processEnd {id : Nat} : Uses σ s (.processEnd id) (.processEnd id)

theorem timerUse_uses (σ : Settings) (s : State) (action : Action) :
    Uses σ s action (timerUse σ s action) := by
  cases action with
  | schedule r =>
      cases hpc : s.pc with
      | overload id config frozen =>
          simp only [timerUse, hpc]
          rcases @overloadTimers_cases σ s id config frozen with h | ⟨rfl, h⟩ | ⟨rfl, h⟩
          · rw [h]
            exact .none
          · rw [h]
            exact .thaw hpc
          · rw [h]
            exact .freeze hpc
      | updateConfig id config oldConfig newConfig =>
          simp only [timerUse, hpc, updateTimers]
          cases hupdate : Vm.updateConfig id newConfig s.controller s.vmLocations with
          | error fault => exact .none
          | ok result => exact .updateConfig hpc hupdate
      | _ =>
          simp only [timerUse, hpc]
          exact .none
  | waiterWake index =>
      simp only [timerUse]
      rcases @waiterTimers_cases s index with h | ⟨id, config, notified, hwaiter, h⟩
      · rw [h]
        exact .none
      · rw [h]
        exact .waiterThaw hwaiter
  | processEnd id => exact .processEnd
  | wake | complete id | notifyAll id | waiterWait index => exact .none

theorem CallsOk.current_lt (h : CallsOk s) (hopposed : s.pc.Opposed) {id : Nat}
    {config : ExecuteConfig} (hcurrent : s.pc.current = some (id, config)) :
    id < s.controller.cmdCounter := by
  have hlast := ((h.wellFormed (h.opposed hopposed)).current id config hcurrent).last
  omega

theorem Trans.not_freezable {r : List ℚ} {id : Nat} {config : ExecuteConfig}
    (hpc : s.pc = .overload id config false) (hlt : id < s.controller.cmdCounter)
    (ht : Trans σ s (.schedule r) s') : ¬ (duties s').freezable id := by
  cases ht with
  | fits | swap | freeze | freezeDetach =>
      rintro (hle | hfresh)
      · exact absurd hlt (not_lt.mpr hle)
      · cases hfresh
  | nextJob hpc' | lastJob hpc' | ressource hpc' | noRessource hpc' | select hpc'
  | freezeOpposing hpc' | runDistgen hpc' | thawOpposing hpc' | stillFrozen hpc'
  | updateConfig hpc' | allDone hpc' | notDone hpc' => cases hpc.symm.trans hpc'

theorem Trans.not_updatable {r : List ℚ} {id : Nat}
    {config oldConfig newConfig : ExecuteConfig}
    (hpc : s.pc = .updateConfig id config oldConfig newConfig)
    (hlt : id < s.controller.cmdCounter) (ht : Trans σ s (.schedule r) s') :
    ¬ (duties s').updatable id := by
  cases ht with
  | updateConfig _ hupdate =>
      obtain ⟨_, hok⟩ := Vm.updateConfig_ok hupdate
      rintro (hle | hcurrent)
      · rw [(updateConfig_frame hok.base).2.2] at hle
        exact absurd hlt (not_lt.mpr hle)
      · cases hcurrent
  | nextJob hpc' | lastJob hpc' | ressource hpc' | noRessource hpc' | select hpc'
  | freezeOpposing hpc' | runDistgen hpc' | thawOpposing hpc' | fits hpc' | swap hpc'
  | stillFrozen hpc' | freeze hpc' | freezeDetach hpc' | allDone hpc' | notDone hpc' =>
      cases hpc.symm.trans hpc'

/-- The migrations the scheduler asks for in one call. -/
theorem SwapsGenerated.hosts_nodup (hswaps : SwapsGenerated σ s)
    (hnames : σ.backend = .vm → NamesApart s.controller.machines) {id : Nat}
    {config oldConfig newConfig : ExecuteConfig} {c : Controller}
    {vmLocations : Vm.VmLocations} {tasks : List (String × Vm.Migrate)}
    (hcurrent : s.controller.idToConfig[id]? = some config)
    (hpc : s.pc = .updateConfig id config oldConfig newConfig)
    (hupdate : Vm.updateConfig id newConfig s.controller s.vmLocations =
      .ok (c, vmLocations, tasks)) :
    ((tasks.map fun task => (task.1, task.2.destHostname)).map
      fun hosts => hosts.1 ++ "-" ++ hosts.2).Nodup := by
  obtain ⟨marked, markedSorted, candidates, hat⟩ := hswaps _ _ _ _ hpc
  have hvm := Backend.eq_vm_of_updateSupported hat.supported
  obtain ⟨hfit, rfl⟩ := hat.input.generateNewConfig_iff.mp hat.generated
  simp only [Vm.updateConfig, bind_eq_ok, fetch_eq_ok] at hupdate
  obtain ⟨oldConfig', hrow, _, _, tasks', htasks, _, _, _, _, heq⟩ := hupdate
  cases heq
  obtain rfl := Option.some_inj.mp (hcurrent.symm.trans hrow)
  exact swaps_nodup (hnames hvm) (hat.input.separateMachines hfit) htasks

theorem Trans.duties_step {action : Action} (hcalls : CallsOk s) (hswaps : SwapsGenerated σ s)
    (hnames : σ.backend = .vm → NamesApart s.controller.machines) (ht : Trans σ s action s') :
    (duties s).Step (duties s') (timerUse σ s action) := by
  have huse := timerUse_uses σ s action
  have hthaw := fun j hj => @Trans.thawable σ s s' action ht j hj
  generalize timerUse σ s action = use at huse hthaw
  have hkept : (∀ j, use ≠ .freeze j) → ∀ j, (duties s').thawable j → (duties s).thawable j :=
    fun hne j hj => (hthaw j hj).resolve_right (hne j)
  cases huse with
  | none =>
      exact .quiet (fun _ => ht.freezable) (hkept (by simp)) (fun _ => ht.updatable) (.inl rfl)
  | processEnd =>
      exact .quiet (fun _ => ht.freezable) (hkept (by simp)) (fun _ => ht.updatable)
        (.inr ⟨_, rfl⟩)
  | thaw hpc =>
      exact .of_thaw (fun _ => ht.freezable) (hkept (by simp)) (fun _ => ht.updatable)
        (.inr (by rw [hpc]; rfl))
  | waiterThaw hwaiter =>
      exact .of_thaw (fun _ => ht.freezable) (hkept (by simp)) (fun _ => ht.updatable)
        (.inl ⟨_, List.mem_of_getElem? hwaiter, rfl, by simp⟩)
  | @freeze r id config hpc =>
      have hlt := hcalls.current_lt (by rw [hpc]; trivial) (by rw [hpc]; rfl)
      refine .of_freeze (fun _ => ht.freezable) (fun _ => ht.updatable) (.inr (by rw [hpc]; rfl))
        (ht.not_freezable hpc hlt) fun j hj => ?_
      exact (hthaw j hj).imp_right fun heq => (TimerUse.freeze.inj heq).symm
  | @updateConfig r id config oldConfig newConfig c vmLocations tasks hpc hupdate =>
      have hopposed : s.pc.Opposed := by
        rw [hpc]
        trivial
      have hcurrent : s.pc.current = some (id, config) := by rw [hpc]; rfl
      have hrow := ((hcalls.wellFormed (hcalls.opposed hopposed)).current id config hcurrent).row
      exact .of_updateConfig (fun _ => ht.freezable) (hkept (by simp)) (fun _ => ht.updatable)
        (.inr (by rw [hcurrent]; rfl)) (hswaps.hosts_nodup hnames hrow hpc hupdate)
        (ht.not_updatable hpc (hcalls.current_lt hopposed hcurrent))

theorem Trans.machines {action : Action} (h : Trans σ s action s') :
    s'.controller.machines = s.controller.machines := by
  cases h with
  | select _ _ heffect => exact heffect.machines
  | complete _ _ heffect => exact heffect.machines
  | updateConfig _ hupdate =>
      obtain ⟨_, hok⟩ := Vm.updateConfig_ok hupdate
      exact (updateConfig_frame hok.base).1
  | _ => rfl

section Runs

variable {machines : List String} {systemConfig : SystemConfig}
  {vmLocations : Vm.VmLocations} {jobs : List Job}

theorem jobRuns_machines
    (hs : ((system σ).startingAt (start machines systemConfig vmLocations jobs)).Reachable s) :
    s.controller.machines = machines := by
  refine hs.invariant (P := fun s => s.controller.machines = machines) ?_ ?_
  · rintro s rfl
    rfl
  · intro s action s' _ hmachines _ hstep
    rw [(step_trans hstep).machines, hmachines]

/-- No job is moved unless there are two slots. -/
theorem jobRuns_swapsGenerated
    (hs : ((system σ).startingAt (start machines systemConfig vmLocations jobs)).Reachable s) :
    SwapsGenerated σ s := by
  refine hs.invariant ?_ ?_
  · rintro s rfl _ _ _ _ ⟨⟩
  · intro s action s' hs hinv _ hstep
    have hcalls := jobRuns_callsOk hs
    have ht := step_trans hstep
    rcases Classical.em (s.controller.systemConfig.slots.length = 2) with h2 | h2
    · exact hinv.trans (hcalls.wellFormed h2) ht
    · intro id config oldConfig newConfig hpc
      have hslots := (hcalls.trans ht).opposed (by rw [hpc]; trivial)
      rw [ht.systemConfig] at hslots
      exact absurd hslots h2

theorem disciplined (hnames : σ.backend = .vm → NamesApart machines) :
    Disciplined ((system σ).startingAt (start machines systemConfig vmLocations jobs))
      State.controller (timerUse σ) duties := by
  have hconsistent : ∀ s,
      ((system σ).startingAt (start machines systemConfig vmLocations jobs)).Reachable s →
      s.controller.Consistent := fun s hs =>
    consistent_of_refines (jobRuns_refines σ machines systemConfig vmLocations jobs)
      (fun _ => rfl) hs
  refine ⟨?_, hconsistent, ?_, ?_⟩
  · rintro s rfl id
    exact not_frozenJob_of_nil rfl rfl id
  · intro s action s' id hs hstep huse
    have huses := timerUse_uses σ s action
    rw [huse] at huses
    cases huses
    have ht : Trans σ s (.processEnd id) s' := step_trans hstep
    cases ht with
    | processEnd hphase => exact lt_of_inPhase (hconsistent s hs) hphase
  · intro s action s' hs hstep
    exact (step_trans hstep).duties_step (jobRuns_callsOk hs) (jobRuns_swapsGenerated hs)
      (by rwa [jobRuns_machines hs])

end Runs

end MultiApp

namespace TwoApp

/-- The timers of the decision whether two jobs run side by side. -/
def estimateTimers (id : Nat) (s : State) : Exec TimerUse := do
  let first ← fetch s.coConfigDistgend 0
  let second ← fetch s.coConfigDistgend 1
  .ok (if (1 - first) + (1 - second) > 9 / 10 then .freeze id else .none)

def timerUse (s : State) : Action → TimerUse
  | .schedule _ =>
      match s.pc with
      | .estimate _ id _ => .made (estimateTimers id s)
      | .thaw id _ => .thaw id
      | _ => .none
  | .processEnd id => .processEnd id
  | .wake | .complete _ | .notifyAll _ => .none

def timedRuns (σ : Settings) (machines : List String) (systemConfig : SystemConfig)
    (vmLocations : Vm.VmLocations) (jobs : List Job) : System (Timed State) (TimedAction Action) :=
  timed ((system σ).startingAt (start machines systemConfig vmLocations jobs))
    State.controller timerUse

/-- A job that was started and may still be frozen. -/
def Pc.fresh : Pc → Option Nat
  | .freezeOpposing _ id _ => some id
  | .runDistgen _ id _ => some id
  | .thawOpposing _ id _ => some id
  | .estimate _ id _ => some id
  | _ => none

/-- A job between `freeze` and the matching `thaw`. -/
def Pc.frozenJob : Pc → Option Nat
  | .waitFrozen _ id _ => some id
  | .thaw id _ => some id
  | .asleep (.frozen _ id _) => some id
  | _ => none

def duties (s : State) : Duties where
  freezable id := s.controller.cmdCounter ≤ id ∨ s.pc.fresh = some id
  thawable id := s.pc.frozenJob = some id
  updatable _ := False

variable {σ : Settings} {s s' : State}

theorem Trans.freezable {action : Action} (ht : Trans σ s action s') {id : Nat}
    (hid : (duties s').freezable id) : (duties s).freezable id := by
  rcases hid with hid | hid
  · exact .inl (ht.cmdCounter_le.trans hid)
  · cases ht with
    | select _ _ heffect =>
        cases hid
        exact .inl heffect.id_eq.ge
    | freezeOpposing hpc | alone hpc | runDistgen hpc | thawOpposing hpc =>
        exact .inr (by rwa [hpc])
    | @wake wait hpc => cases wait <;> cases hid
    | processEnd | complete | notifyAll => exact .inr hid
    | _ => cases hid

theorem estimateTimers_of_freeze {r : List ℚ} {job : Job} {id newSlot : Nat}
    (hpc : s.pc = .estimate job id newSlot) (hwait : s'.pc = .waitFrozen job id newSlot)
    (h : scheduleStep σ r s = .ok s') : estimateTimers id s = .ok (.freeze id) := by
  simp only [scheduleStep, hpc, bind_eq_ok] at h
  obtain ⟨first, hfirst, second, hsecond, h⟩ := h
  rw [estimateTimers, bind_of_ok hfirst, bind_of_ok hsecond]
  split at h
  · rename_i hhigh
    rw [if_pos hhigh]
  · cases h
    cases hwait

/-- A job is frozen by its `freeze` only. -/
theorem step_thawable {action : Action} (h : step σ s action = .ok s') {j : Nat}
    (hj : (duties s').thawable j) : (duties s).thawable j ∨ timerUse s action = .freeze j := by
  have ht := step_trans h
  cases ht with
  | @freeze r job id newSlot messages hpc =>
      cases hj
      right
      simp only [timerUse, hpc, estimateTimers_of_freeze hpc rfl h, TimerUse.made]
  | available hpc | notAvailable hpc => exact .inl (by rw [duties, hpc]; exact hj)
  | @wake wait hpc =>
      left
      cases wait with
      | frozen job id newSlot => rw [duties, hpc]; exact hj
      | ressource job => cases hj
      | done => cases hj
  | processEnd | complete | notifyAll => exact .inl hj
  | _ => cases hj

/-- Where a step uses the timers. -/
inductive Uses (s : State) : Action → TimerUse → Prop
  | none {action : Action} : Uses s action .none
  | thaw {r : List ℚ} {id newSlot : Nat} : s.pc = .thaw id newSlot →
      Uses s (.schedule r) (.thaw id)
  | freeze {r : List ℚ} {job : Job} {id newSlot : Nat} : s.pc = .estimate job id newSlot →
      Uses s (.schedule r) (.freeze id)
  | processEnd {id : Nat} : Uses s (.processEnd id) (.processEnd id)

theorem estimateTimers_cases {id : Nat} :
    TimerUse.made (estimateTimers id s) = .none ∨
      TimerUse.made (estimateTimers id s) = .freeze id := by
  cases h : estimateTimers id s with
  | error fault => exact .inl rfl
  | ok use =>
      simp only [estimateTimers, bind_eq_ok] at h
      obtain ⟨first, _, second, _, h⟩ := h
      cases h
      split
      · exact .inr rfl
      · exact .inl rfl

theorem timerUse_uses (s : State) (action : Action) : Uses s action (timerUse s action) := by
  cases action with
  | schedule r =>
      cases hpc : s.pc with
      | estimate job id newSlot =>
          simp only [timerUse, hpc]
          rcases @estimateTimers_cases s id with h | h
          · rw [h]
            exact .none
          · rw [h]
            exact .freeze hpc
      | thaw id newSlot =>
          simp only [timerUse, hpc]
          exact .thaw hpc
      | _ =>
          simp only [timerUse, hpc]
          exact .none
  | processEnd id => exact .processEnd
  | wake | complete id | notifyAll id => exact .none

/-- The job the scheduler is busy with was started. -/
def FreshStarted (s : State) : Prop := ∀ id, s.pc.fresh = some id → id < s.controller.cmdCounter

theorem FreshStarted.trans {action : Action} (h : FreshStarted s) (ht : Trans σ s action s') :
    FreshStarted s' := by
  intro id hid
  cases ht with
  | select hpc _ heffect =>
      cases hid
      rw [heffect.cmdCounter, heffect.id_eq]
      exact Nat.lt_succ_self _
  | complete _ _ heffect =>
      rw [heffect.cmdCounter]
      exact h id hid
  | freezeOpposing hpc | alone hpc | runDistgen hpc | thawOpposing hpc =>
      exact h id (by rw [hpc]; exact hid)
  | @wake wait hpc => cases wait <;> cases hid
  | processEnd | notifyAll => exact h id hid
  | _ => cases hid

theorem Trans.not_freezable {r : List ℚ} {job : Job} {id newSlot : Nat}
    (hpc : s.pc = .estimate job id newSlot) (hlt : id < s.controller.cmdCounter)
    (ht : Trans σ s (.schedule r) s') : ¬ (duties s').freezable id := by
  cases ht with
  | fits | freeze =>
      rintro (hle | hfresh)
      · exact absurd hlt (not_lt.mpr hle)
      · cases hfresh
  | nextJob hpc' | lastJob hpc' | ressource hpc' | noRessource hpc' | select hpc'
  | freezeOpposing hpc' | alone hpc' | runDistgen hpc' | thawOpposing hpc' | stillAlone hpc'
  | available hpc' | notAvailable hpc' | thaw hpc' | allDone hpc' | notDone hpc' =>
      cases hpc.symm.trans hpc'

theorem duties_step {action : Action} (hfresh : FreshStarted s)
    (h : step σ s action = .ok s') : (duties s).Step (duties s') (timerUse s action) := by
  have ht := step_trans h
  have huse := timerUse_uses s action
  have hthaw := fun j hj => @step_thawable σ s s' action h j hj
  generalize timerUse s action = use at huse hthaw
  have hkept : (∀ j, use ≠ .freeze j) → ∀ j, (duties s').thawable j → (duties s).thawable j :=
    fun hne j hj => (hthaw j hj).resolve_right (hne j)
  cases huse with
  | none => exact .quiet (fun _ => ht.freezable) (hkept (by simp)) (fun _ => id) (.inl rfl)
  | processEnd =>
      exact .quiet (fun _ => ht.freezable) (hkept (by simp)) (fun _ => id) (.inr ⟨_, rfl⟩)
  | thaw hpc =>
      exact .of_thaw (fun _ => ht.freezable) (hkept (by simp)) (fun _ => id)
        (by rw [duties, hpc]; rfl)
  | freeze hpc =>
      refine .of_freeze (fun _ => ht.freezable) (fun _ => id) (.inr (by rw [hpc]; rfl))
        (ht.not_freezable hpc (hfresh _ (by rw [hpc]; rfl))) fun j hj => ?_
      exact (hthaw j hj).imp_right fun heq => (TimerUse.freeze.inj heq).symm

section Runs

variable {machines : List String} {systemConfig : SystemConfig}
  {vmLocations : Vm.VmLocations} {jobs : List Job}

theorem jobRuns_freshStarted
    (hs : ((system σ).startingAt (start machines systemConfig vmLocations jobs)).Reachable s) :
    FreshStarted s := by
  refine hs.invariant ?_ ?_
  · rintro s rfl _ ⟨⟩
  · intro s action s' _ hinv _ hstep
    exact hinv.trans (step_trans hstep)

theorem disciplined :
    Disciplined ((system σ).startingAt (start machines systemConfig vmLocations jobs))
      State.controller timerUse duties := by
  have hconsistent : ∀ s,
      ((system σ).startingAt (start machines systemConfig vmLocations jobs)).Reachable s →
      s.controller.Consistent := fun s hs =>
    consistent_of_refines (jobRuns_refines σ machines systemConfig vmLocations jobs)
      (fun _ => rfl) hs
  refine ⟨?_, hconsistent, ?_, ?_⟩
  · rintro s rfl id ⟨⟩
  · intro s action s' id hs hstep huse
    have huses := timerUse_uses s action
    rw [huse] at huses
    cases huses
    have ht : Trans σ s (.processEnd id) s' := step_trans hstep
    cases ht with
    | processEnd hphase => exact lt_of_inPhase (hconsistent s hs) hphase
  · intro s action s' hs hstep
    exact duties_step (jobRuns_freshStarted hs) hstep

end Runs

end TwoApp

namespace MultiAppConsec

def timerUse (_ : State) : Action → TimerUse
  | .processEnd id => .processEnd id
  | .schedule | .wake | .complete _ | .notifyAll _ => .none

def timedRuns (σ : Settings) (machines : List String) (systemConfig : SystemConfig)
    (vmLocations : Vm.VmLocations) (jobs : List Job) : System (Timed State) (TimedAction Action) :=
  timed ((system σ).startingAt (start machines systemConfig vmLocations jobs))
    State.controller timerUse

/-- Nothing is frozen or moved. -/
def duties (_ : State) : Duties := ⟨fun _ => False, fun _ => False, fun _ => False⟩

theorem disciplined {σ : Settings} {machines : List String} {systemConfig : SystemConfig}
    {vmLocations : Vm.VmLocations} {jobs : List Job} :
    Disciplined ((system σ).startingAt (start machines systemConfig vmLocations jobs))
      State.controller timerUse duties := by
  have hconsistent : ∀ s,
      ((system σ).startingAt (start machines systemConfig vmLocations jobs)).Reachable s →
      s.controller.Consistent := fun s hs =>
    consistent_of_refines (jobRuns_refines σ machines systemConfig vmLocations jobs)
      (fun _ => rfl) hs
  refine ⟨fun _ _ _ => id, hconsistent, ?_, ?_⟩
  · intro s action s' id hs hstep huse
    cases action with
    | processEnd i =>
        cases huse
        have ht : Trans σ s (.processEnd id) s' := step_trans hstep
        cases ht with
        | processEnd hphase => exact lt_of_inPhase (hconsistent s hs) hphase
    | schedule | wake | complete i | notifyAll i => cases huse
  · intro s action s' _ _
    refine .quiet (fun _ => id) (fun _ => id) (fun _ => id) ?_
    cases action with
    | processEnd i => exact .inr ⟨i, rfl⟩
    | schedule | wake | complete i | notifyAll i => exact .inl rfl

end MultiAppConsec

/-- Whatever the job queue is and whenever the jobs end, no timer is started twice and none
is stopped that was not started; jobs move between machines under the multi-app scheduler
with VMs only. -/
theorem timers_never_clash (machines : List String) (systemConfig : SystemConfig)
    (vmLocations : Vm.VmLocations) (jobs : List Job) :
    (∀ σ : MultiApp.Settings, (σ.backend = .vm → NamesApart machines) →
      NeverClash (MultiApp.timedRuns σ machines systemConfig vmLocations jobs)) ∧
    (∀ σ : TwoApp.Settings,
      NeverClash (TwoApp.timedRuns σ machines systemConfig vmLocations jobs)) ∧
    (∀ σ : MultiAppConsec.Settings,
      NeverClash (MultiAppConsec.timedRuns σ machines systemConfig vmLocations jobs)) :=
  ⟨fun _ hnames => (MultiApp.disciplined hnames).neverClash,
    fun _ => TwoApp.disciplined.neverClash, fun _ => MultiAppConsec.disciplined.neverClash⟩

namespace MultiApp

/-- Four machines with two slots of one cpu each. -/
def fourMachines (machines : List String) : State :=
  start machines ⟨[⟨[0], []⟩, ⟨[1], []⟩]⟩
    [["vm0", "vm1"], ["vm2", "vm3"], ["vm4", "vm5"], ["vm6", "vm7"]]
    [⟨4, 1, "", false⟩, ⟨2, 1, "", false⟩, ⟨2, 1, "", false⟩, ⟨2, 1, "", false⟩]

def fourMachinesRuns (machines : List String) : System (Timed State) (TimedAction Action) :=
  timed ((system (plainSettings .vm)).startingAt (fourMachines machines)) State.controller
    (timerUse (plainSettings .vm))

/-- The last of the four jobs takes the slots of the second one, is too much for its
machines and is moved to the other two. -/
def moveLastJob : List (TimedAction Action) :=
  let placed : List Action :=
    placeJob [7 / 10, 7 / 10, 9 / 10, 9 / 10] ++ [.schedule []] ++
      placeJob [9 / 10, 9 / 10] ++ [.schedule []] ++
      placeJob [9 / 10, 9 / 10] ++ [.schedule [], .schedule [], .schedule []]
  let moved : List Action :=
    [.processEnd 1, .complete 1, .notifyAll 1, .wake, .schedule [], .schedule [],
      .schedule [], .schedule [3 / 10, 3 / 10], .schedule [], .schedule [], .schedule []]
  placed.map .step ++ [.begin 1] ++ moved.map .step

theorem fourMachinesRuns_init (machines : List String) :
    (fourMachinesRuns machines).Init ⟨fourMachines machines, [], []⟩ := ⟨rfl, rfl, rfl⟩

end MultiApp

theorem timers_never_clash_moved : ∃ s,
    (MultiApp.fourMachinesRuns ["a", "b", "c", "d"]).Reachable s ∧
    ticks s.log =
      ["job-#1", "update-config-job-#3", "swap-a-c-job-#3", "swap-b-d-job-#3"] ∧
    NoClash s.log := by
  have hrun : ((MultiApp.fourMachinesRuns ["a", "b", "c", "d"]).run
      ⟨MultiApp.fourMachines ["a", "b", "c", "d"], [], []⟩ MultiApp.moveLastJob).map
        (fun s => ticks s.log) =
      .ok ["job-#1", "update-config-job-#3", "swap-a-c-job-#3", "swap-b-d-job-#3"] := by
    decide +kernel
  obtain ⟨s, hrun, hticks⟩ := map_eq_ok.mp hrun
  have hs := System.run_reachable (fun _ _ => trivial)
    (.init (MultiApp.fourMachinesRuns_init ["a", "b", "c", "d"])) hrun
  exact ⟨s, hs, hticks, (timers_never_clash _ _ _ _).1 _
    (fun _ => namesApart_of_noDash (by decide) (by decide)) s hs⟩

/-- Two migrations of one call have one timer, which is started twice. -/
theorem timers_clash_dash :
    ¬ NeverClash (MultiApp.fourMachinesRuns ["a", "a-b", "b-c", "c"]) := by
  intro hclash
  have hrun : ((MultiApp.fourMachinesRuns ["a", "a-b", "b-c", "c"]).run
      ⟨MultiApp.fourMachines ["a", "a-b", "b-c", "c"], [], []⟩ MultiApp.moveLastJob).map
        (fun s => ticks s.log) =
      .ok ["job-#1", "update-config-job-#3", "swap-a-b-c-job-#3", "swap-a-b-c-job-#3"] := by
    decide +kernel
  obtain ⟨s, hrun, hticks⟩ := map_eq_ok.mp hrun
  have hs := System.run_reachable (fun _ _ => trivial)
    (.init (MultiApp.fourMachinesRuns_init ["a", "a-b", "b-c", "c"])) hrun
  have honce := (hclash s hs).ticked_once
  rw [hticks] at honce
  exact absurd honce (by decide)

end Poncos
