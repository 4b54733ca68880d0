import Poncos.Controller.TableRuns
import Poncos.MultiApp.NewConfig
import Poncos.MultiApp.Transitions

/-!
What holds of the tables in every state of every run: the controller is
consistent, all tables have two slots per machine, and the job the scheduler is
busy with holds its slots, or has completed and left them free.
-/

namespace Poncos.MultiApp

open Poncos.Library
open Poncos.Library.Execution
open Poncos.Library.Transition
open Poncos.Controller

/-- Free slots on distinct machines below `m`. -/
structure Picked (usage : MachineUsage) (m : Nat) (config : ExecuteConfig) : Prop where
  machines : (config.map Prod.fst).Nodup
  below : ∀ p ∈ config, p.1 < m
  free : ∀ p ∈ config, usage.get? p = some none

theorem firstFree_free {mu : SlotAllocation} {slots : List Nat} {s : Nat}
    (h : firstFree mu slots = .ok (some s)) : mu[s]? = some none := by
  induction slots with
  | nil => cases h
  | cons t rest ih =>
      simp only [firstFree, bind_eq_ok, fetch_eq_ok] at h
      obtain ⟨owner, howner, h⟩ := h
      split at h
      · rename_i hfree
        cases h
        exact hfree ▸ howner
      · exact ih h

theorem Picked.succ {usage : MachineUsage} {m : Nat} {config : ExecuteConfig}
    (h : Picked usage m config) : Picked usage (m + 1) config :=
  ⟨h.machines, fun p hp => Nat.lt_succ_of_lt (h.below p hp), h.free⟩

theorem Picked.concat {usage : MachineUsage} {m s : Nat} {config : ExecuteConfig}
    (h : Picked usage m config) (hfree : usage.get? (m, s) = some none) :
    Picked usage (m + 1) (config ++ [(m, s)]) := by
  refine ⟨?_, ?_, ?_⟩
  · rw [List.map_append, List.nodup_append]
    refine ⟨h.machines, by simp, ?_⟩
    intro i hi k hk
    obtain ⟨p, hp, rfl⟩ := List.mem_map.mp hi
    have hlt := h.below p hp
    have hk' : k = m := by simpa using hk
    omega
  · intro p hp
    rcases List.mem_append.mp hp with hp | hp
    · exact Nat.lt_succ_of_lt (h.below p hp)
    · rw [List.mem_singleton.mp hp]
      exact Nat.lt_succ_self m
  · intro p hp
    rcases List.mem_append.mp hp with hp | hp
    · exact h.free p hp
    · rw [List.mem_singleton.mp hp]
      exact hfree

theorem selectSlots_picked {usage rest : MachineUsage} {slots slotSize reqCpus m : Nat}
    {picked config : ExecuteConfig} (hpicked : Picked usage m picked)
    (hrest : usage.drop m = rest)
    (h : selectSlots slots slotSize reqCpus m rest picked = .ok config) :
    ∃ m', Picked usage m' config := by
  induction rest generalizing m picked with
  | nil =>
      cases h
      exact ⟨m, hpicked⟩
  | cons mu rest ih =>
      have hmu : usage[m]? = some mu := by
        have := congrArg (·[0]?) hrest
        simpa using this
      have hdrop : usage.drop (m + 1) = rest := by
        rw [← List.drop_drop, hrest]
        rfl
      simp only [selectSlots, bind_eq_ok] at h
      obtain ⟨free, hfree, h⟩ := h
      cases free with
      | none =>
          have hnext := hpicked.succ
          dsimp only at h
          split at h
          · cases h
            exact ⟨m + 1, hnext⟩
          · exact ih hnext hdrop h
      | some s =>
          have hcell : usage.get? (m, s) = some none := by
            rw [Grid.get?_of_row hmu]
            exact firstFree_free hfree
          have hnext := hpicked.concat hcell
          dsimp only at h
          split at h
          · cases h
            exact ⟨m + 1, hnext⟩
          · exact ih hnext hdrop h

/-- The job the scheduler is busy with, and its config. -/
def Pc.current : Pc → Option (Nat × ExecuteConfig)
  | .freezeOpposing id config => some (id, config)
  | .runDistgen id config => some (id, config)
  | .thawOpposing id config => some (id, config)
  | .overload id config _ => some (id, config)
  | .updateConfig id config _ _ => some (id, config)
  | .asleep (.change id config) => some (id, config)
  | _ => none

/-- The job holds the slots it was placed on, or has completed and left them free. -/
structure CurrentJob (c : Controller) (id : Nat) (config : ExecuteConfig) : Prop where
  row : c.idToConfig[id]? = some config
  machines : (config.map Prod.fst).Nodup
  nonempty : config ≠ []
  last : id + 1 = c.cmdCounter
  slots : c.Running id ∨ ∀ p ∈ config, c.machineUsage.get? p = some none

/-- The job that was started and has not been frozen yet. -/
def Pc.fresh : Pc → Option Nat
  | .freezeOpposing id _ => some id
  | .runDistgen id _ => some id
  | .thawOpposing id _ => some id
  | .overload id _ false => some id
  | _ => none

structure WellFormed (s : State) : Prop where
  consistent : s.controller.Consistent
  slots : s.controller.systemConfig.slots.length = 2
  usage : s.controller.machineUsage.Rectangular s.controller.machines.length 2
  util : s.membwUtil.Rectangular s.controller.machines.length 2
  current : ∀ id config, s.pc.current = some (id, config) →
    CurrentJob s.controller id config
  fresh : ∀ id, s.pc.fresh = some id → s.controller.Running id

namespace CurrentJob

variable {c c' : Controller} {id : Nat} {config : ExecuteConfig}

theorem nodup (h : CurrentJob c id config) : config.Nodup :=
  List.Nodup.of_map _ h.machines

theorem owner_eq (h : CurrentJob c id config) (hc : c.Consistent) (hid : c.Running id)
    {p : Cell} : c.machineUsage.get? p = some (some id) ↔ p ∈ config := by
  rw [hc.owner_iff]
  constructor
  · rintro ⟨_, config', hrow, hp⟩
    rwa [Option.some_inj.mp (h.row.symm.trans hrow)]
  · intro hp
    exact ⟨hid, config, h.row, hp⟩

theorem owner_cases (h : CurrentJob c id config) (hc : c.Consistent) {p : Cell}
    (hp : p ∈ config) :
    c.machineUsage.get? p = some (some id) ∨ c.machineUsage.get? p = some none := by
  rcases h.slots with hid | hfree
  · exact .inl ((h.owner_eq hc hid).mpr hp)
  · exact .inr (hfree p hp)

theorem movable (h : CurrentJob c id config) : c.MovableJob id := by
  rcases h.slots with hid | hfree
  · exact .inl hid
  · refine .inr fun m p _ hp => ?_
    have hcell := Grid.get?_of_row (g := c.placement.configs) h.row
    rw [hcell] at hp
    refine ⟨hfree p (List.mem_of_getElem? hp), fun m' _ hp' => ?_⟩
    rw [hcell] at hp'
    have hlt := (List.getElem?_eq_some_iff.mp hp').1
    exact (List.getElem?_inj hlt h.nodup).mp (hp'.trans hp.symm)

theorem setPhase (h : CurrentJob c id config) {k : Nat} {phase : Phase}
    (hrunning : ∀ j, (c.setPhase k phase).Running j ↔ c.Running j) :
    CurrentJob (c.setPhase k phase) id config :=
  ⟨h.row, h.machines, h.nonempty, h.last, by
    rcases h.slots with hid | hfree
    · exact .inl ((hrunning id).mpr hid)
    · exact .inr hfree⟩

theorem complete (h : CurrentJob c id config) {k : Nat} {config' : ExecuteConfig}
    (heffect : CompleteEffect c c' k config') : CurrentJob c' id config := by
  refine ⟨by rw [heffect.idToConfig, h.row], h.machines, h.nonempty,
    by rw [heffect.cmdCounter, h.last], ?_⟩
  rcases h.slots with hid | hfree
  · rcases eq_or_ne id k with rfl | hne
    · right
      intro p hp
      have hrow := Option.some_inj.mp (h.row.symm.trans heffect.row)
      rw [heffect.usage, if_pos (hrow ▸ hp)]
    · exact .inl ((heffect.running_iff id).mpr ⟨hid, hne⟩)
  · right
    intro p hp
    rw [heffect.usage]
    split
    · rfl
    · exact hfree p hp

end CurrentJob

namespace WellFormed

variable {σ : Settings} {s s' : State}

theorem config_range (h : WellFormed s) {id : Nat}
    {config : ExecuteConfig} (hcurrent : CurrentJob s.controller id config)
    {p : Cell} (hp : p ∈ config) : p.1 < s.controller.machines.length ∧ p.2 < 2 := by
  apply (h.usage.isSome_iff p).mp
  rcases hcurrent.owner_cases h.consistent hp with howner | hfree
  · simp [howner]
  · simp [hfree]

theorem start {machines : List String} {systemConfig : SystemConfig}
    {vmLocations : Vm.VmLocations} {queue : List Job}
    (hslots : systemConfig.slots.length = 2) :
    WellFormed (start machines systemConfig vmLocations queue) := by
  refine ⟨create_consistent machines systemConfig, hslots, ?_, ?_, ?_, by rintro _ ⟨⟩⟩
  · exact Grid.rectangular_replicate machines.length [none, none]
  · have := Grid.rectangular_replicate machines.length
      (List.replicate systemConfig.slots.length (0 : ℚ))
    rw [List.length_replicate, hslots] at this
    exact hslots ▸ this
  · intro id config h
    cases h

theorem updateMembwLoop_rectangular {slots rows columns : Nat}
    {moves : List (Cell × Cell)} {util util' : MembwUtil}
    (hu : util.Rectangular rows columns)
    (h : updateMembwLoop slots moves util = .ok util') :
    util'.Rectangular rows columns := by
  induction moves generalizing util with
  | nil =>
      cases h
      exact hu
  | cons move rest ih =>
      simp only [updateMembwLoop, bind_eq_ok] at h
      obtain ⟨util₁, hswap, _, _, _, _, _, _, _, _, h⟩ := h
      exact ih (hu.swap hswap) h

theorem select (h : WellFormed s) {slotSize reqCpus : Nat} {job : Job}
    {config : ExecuteConfig} {c : Controller} {id : Nat}
    (hselect : selectSlots s.controller.systemConfig.slots.length slotSize reqCpus 0
      s.controller.machineUsage [] = .ok config)
    (heffect : ExecuteEffect s.controller c job config id) :
    WellFormed { s with controller := c, pc := .freezeOpposing id config } := by
  have hpicked : Picked s.controller.machineUsage 0 [] :=
    ⟨List.nodup_nil, by simp, by simp⟩
  obtain ⟨_, hconfig⟩ := selectSlots_picked hpicked rfl hselect
  have hid : c.Running id := (heffect.running_iff id).mpr (.inr rfl)
  refine ⟨heffect.consistent h.consistent, ?_, ?_, ?_, ?_, by rintro _ ⟨⟩; exact hid⟩
  · rw [heffect.systemConfig]
    exact h.slots
  · rw [heffect.machines]
    exact heffect.rectangular _ _ h.usage
  · rw [heffect.machines]
    exact h.util
  · intro id' config' hcurrent
    cases hcurrent
    refine ⟨?_, hconfig.machines, heffect.nonempty, ?_, .inl hid⟩
    · rw [heffect.idToConfig, heffect.id_eq, ← h.consistent.configs_length]
      simp
    · rw [heffect.id_eq, heffect.cmdCounter]

theorem setPhase (h : WellFormed s) {id : Nat} {phase : Phase} {waiters : List Waiter}
    (hrunning : ∀ j, (s.controller.setPhase id phase).Running j ↔
      s.controller.Running j) :
    WellFormed { s with
      controller := s.controller.setPhase id phase, waiters := waiters } :=
  ⟨h.consistent.setPhase hrunning, h.slots, h.usage, h.util,
    fun id' config' hcurrent => (h.current id' config' hcurrent).setPhase hrunning,
    fun id' hfresh => (hrunning id').mpr (h.fresh id' hfresh)⟩

theorem complete (h : WellFormed s) {id : Nat} {wait : Wait} {c : Controller}
    {config : ExecuteConfig} {util : MembwUtil} (hpc : s.pc = .asleep wait)
    (hphase : InPhase s.controller id .ended)
    (heffect : CompleteEffect s.controller c id config)
    (hclear : Cleared config s.membwUtil util) :
    WellFormed { s with controller := c, membwUtil := util } := by
  refine ⟨heffect.consistent h.consistent (running_of_inPhase hphase (.inr rfl)),
    ?_, ?_, ?_, fun id' config' hcurrent => (h.current id' config' hcurrent).complete heffect,
    fun id' hfresh => by rw [hpc] at hfresh; cases hfresh⟩
  · rw [heffect.systemConfig]
    exact h.slots
  · rw [heffect.machines]
    exact heffect.rectangular _ _ h.usage
  · rw [heffect.machines]
    exact hclear.rectangular _ _ h.util

theorem updateConfig (h : WellFormed s) {id : Nat}
    {config oldConfig newConfig : ExecuteConfig} {c : Controller}
    {vmLocations vmLocations' : Vm.VmLocations} {util : MembwUtil} {log : List Message}
    {tasks : List (String × Vm.Migrate)}
    (hpc : s.pc = .updateConfig id config oldConfig newConfig)
    (hupdate : Vm.updateConfig id newConfig s.controller vmLocations =
      .ok (c, vmLocations', tasks))
    (hmembw : updateMembwUtil s.controller.systemConfig.slots.length s.membwUtil
      oldConfig newConfig = .ok util) :
    WellFormed { s with
      controller := c
      vmLocations := vmLocations'
      membwUtil := util
      log := log
      pc := .nextJob } := by
  have hcurrent := h.current id config (by rw [hpc]; rfl)
  obtain ⟨_, hok⟩ := Vm.updateConfig_ok hupdate
  obtain ⟨_, heffect⟩ := updateConfig_effect h.consistent hcurrent.movable hok.base
  simp only [updateMembwUtil, bind_eq_ok] at hmembw
  obtain ⟨_, _, hloop⟩ := hmembw
  refine ⟨heffect.consistent h.consistent, ?_, ?_, ?_, ?_, by rintro _ ⟨⟩⟩
  · rw [heffect.systemConfig]
    exact h.slots
  · rw [heffect.machines]
    exact heffect.rectangular _ _ h.usage
  · rw [heffect.machines]
    exact updateMembwLoop_rectangular h.util hloop
  · intro id' config' hcurrent'
    cases hcurrent'

/-- Steps that leave the controller alone. -/
theorem of_pc (h : WellFormed s) {pc : Pc} {queue : List Job} {log : List Message}
    {waiters : List Waiter} {util : MembwUtil}
    (hutil : util.Rectangular s.controller.machines.length 2)
    (hcurrent : ∀ id config, pc.current = some (id, config) →
      s.pc.current = some (id, config))
    (hfresh : ∀ id, pc.fresh = some id → s.pc.fresh = some id) :
    WellFormed { s with
      pc := pc, queue := queue, log := log, waiters := waiters, membwUtil := util } :=
  ⟨h.consistent, h.slots, h.usage, hutil,
    fun id config hpc => h.current id config (hcurrent id config hpc),
    fun id hpc => h.fresh id (hfresh id hpc)⟩

theorem trans {action : Action} (h : WellFormed s) (ht : Trans σ s action s') :
    WellFormed s' := by
  cases ht with
  | select _ hselect heffect => exact h.select hselect heffect
  | updateConfig hpc hupdate hmembw => exact h.updateConfig hpc hupdate hmembw
  | processEnd hphase => exact h.setPhase (running_setPhase_ended hphase)
  | complete hpc hphase heffect hclear => exact h.complete hpc hphase heffect hclear
  | notifyAll hphase =>
      exact h.setPhase (running_setPhase_finished h.consistent hphase)
  | runDistgen hpc hmeasured =>
      exact h.of_pc (hmeasured.rectangular _ _ h.util) (by rw [hpc]; exact fun _ _ h => h)
        (by rw [hpc]; exact fun _ h => h)
  | freezeOpposing hpc | thawOpposing hpc =>
      exact h.of_pc h.util (by rw [hpc]; exact fun _ _ h => h) (by rw [hpc]; exact fun _ h => h)
  | swap hpc | stillFrozen hpc | freeze hpc =>
      exact h.of_pc h.util (by rw [hpc]; exact fun _ _ h => h) (by rintro _ ⟨⟩)
  | @wake wait hpc =>
      cases wait with
      | ressource job => exact h.of_pc h.util (by rintro _ _ ⟨⟩) (by rintro _ ⟨⟩)
      | change id config =>
          exact h.of_pc h.util (by rw [hpc]; exact fun _ _ h => h) (by rintro _ ⟨⟩)
      | done => exact h.of_pc h.util (by rintro _ _ ⟨⟩) (by rintro _ ⟨⟩)
  | waiterWait | waiterThaw | waiterSleep =>
      exact h.of_pc h.util (fun _ _ h => h) (fun _ h => h)
  | _ => exact h.of_pc h.util (by rintro _ _ ⟨⟩) (by rintro _ ⟨⟩)

end WellFormed

theorem CurrentJob.freeze_sendTo {backend : Backend} {c : Controller}
    {vmLocations : Vm.VmLocations} {id : Nat} {config : ExecuteConfig}
    {messages : List Message} (hcurrent : CurrentJob c id config)
    (h : Controller.freeze backend c vmLocations id = .ok messages) :
    ∃ domains, SendTo .suspend backend c vmLocations config domains messages := by
  obtain ⟨config', domains, hrow, hsend⟩ := Poncos.freeze_sendTo h
  obtain rfl := Option.some_inj.mp (hcurrent.row.symm.trans hrow)
  exact ⟨domains, hsend⟩

theorem thawIfFrozen_cases {σ : Settings} {s : State} {id : Nat} {config : ExecuteConfig}
    {frozen : Bool} {messages : List Message} (hcurrent : CurrentJob s.controller id config)
    (h : thawIfFrozen σ id frozen s = .ok messages) :
    frozen = false ∧ messages = [] ∨ frozen = true ∧ ∃ domains,
      SendTo .resume σ.backend s.controller s.vmLocations config domains messages := by
  cases frozen with
  | false =>
      cases h
      exact .inl ⟨rfl, rfl⟩
  | true =>
      obtain ⟨config', domains, hrow, hsend⟩ := thaw_sendTo h
      obtain rfl := Option.some_inj.mp (hcurrent.row.symm.trans hrow)
      exact .inr ⟨rfl, domains, hsend⟩

theorem reachable_wellFormed {σ : Settings} {guard : State → Action → Prop} {s : State}
    (hs : (system σ).ReachableVia guard s) : WellFormed s := by
  refine hs.invariant ?_ ?_
  · rintro s ⟨machines, systemConfig, vmLocations, queue, hslots, _, rfl⟩
    exact .start hslots
  · intro s action s' _ hwf _ hstep
    exact hwf.trans (step_trans hstep)

end Poncos.MultiApp
