import Poncos.Controller.SuspendedSlots
import Poncos.MultiApp.Cells
import Poncos.MultiApp.Measurements
import Poncos.MultiApp.Waiters

/-!
The bandwidth cap: whenever the scheduler takes the next job or waits, the running
domains of a machine need no more than the threshold together.  A machine above the
threshold has a suspended slot; under the controller with update support this can
only be a machine of the job the scheduler is busy with.
-/

namespace Poncos.MultiApp

open Poncos.Library
open Poncos.Library.Execution
open Poncos.Library.Transition
open Poncos.Controller

/-- Measured utilisations are not negative, and no job alone exceeds the threshold. -/
def UtilisationsFit (s : State) : Action → Prop
  | .schedule distgenRes => ∀ id config, s.pc = .runDistgen id config →
      ∀ result ∈ distgenRes, 0 ≤ 1 - result ∧ 1 - result ≤ perMachineTh
  | _ => True

/-- The utilisation of a slot, if a domain occupies it and is not suspended. -/
def activeUtil (σ : Settings) (s : State) (p : Cell) : ℚ :=
  match s.controller.machineUsage.get? p with
  | some (some owner) =>
      match domainNameFromConfigElem σ.backend s.vmLocations p owner with
      | .ok d => if suspended s.log d then 0 else cellUtil s.membwUtil p
      | .error _ => cellUtil s.membwUtil p
  | _ => 0

def BandwidthCap (σ : Settings) (s : State) : Prop :=
  ∀ m, activeUtil σ s (m, 0) + activeUtil σ s (m, 1) ≤ perMachineTh

abbrev SlotFrozen (σ : Settings) (s : State) (p : Cell) : Prop :=
  SlotSuspended σ.backend s.controller s.vmLocations s.log p

/-- The machine is below the threshold, or a slot of it is suspended until its job
fits.  The controller with update support leaves no such slot behind. -/
def Held (σ : Settings) (s : State) (m : Nat) : Prop :=
  nodeUtil s.membwUtil m ≤ perMachineTh ∨
    σ.backend = .cgroup ∧ ∃ slot < 2, SlotFrozen σ s (m, slot)

/-- The config of the job the scheduler has frozen and waits for. -/
def Pc.frozenConfig : Pc → Option ExecuteConfig
  | .overload _ config true => some config
  | .asleep (.change _ config) => some config
  | _ => none

theorem Pc.frozenConfig_of_waits {pc : Pc} (hpc : pc.Waits) {id : Nat}
    {config : ExecuteConfig} (h : pc.current = some (id, config)) :
    pc.frozenConfig = some config := by
  cases pc with
  | asleep wait =>
      cases wait with
      | change id' config' =>
          cases h
          rfl
      | _ => cases h
  | nextJob | waitRessource _ | done => cases h
  | _ => exact hpc.elim

/-- The machines the scheduler is not busy with are held, and while it waits for a
frozen job so are the slots of that job. -/
structure CapOk (σ : Settings) (s : State) : Prop where
  cells : CellsOk s
  nonneg : ∀ p, 0 ≤ cellUtil s.membwUtil p
  held : ∀ m, (∀ id config, s.pc.current = some (id, config) → m ∉ config.map Prod.fst) →
    Held σ s m
  frozen : ∀ config, s.pc.frozenConfig = some config →
    Quiet σ.backend s.controller s.vmLocations s.log config

variable {σ : Settings} {s s' : State}

section Active

theorem activeUtil_of_free {p : Cell} (h : s.controller.machineUsage.get? p = some none) :
    activeUtil σ s p = 0 := by
  simp only [activeUtil, h]

theorem activeUtil_of_frozen {p : Cell} (h : SlotFrozen σ s p) : activeUtil σ s p = 0 := by
  obtain ⟨d, ⟨owner, howner, hdomain⟩, hd⟩ := h
  simp only [activeUtil, howner, hdomain, hd, if_true]

theorem activeUtil_le (hnonneg : ∀ p, 0 ≤ cellUtil s.membwUtil p) (p : Cell) :
    activeUtil σ s p ≤ cellUtil s.membwUtil p := by
  unfold activeUtil
  split
  · split
    · split
      · exact hnonneg p
      · exact le_rfl
    · exact le_rfl
  · exact hnonneg p

theorem active_le_of_nodeUtil (hnonneg : ∀ p, 0 ≤ cellUtil s.membwUtil p) {m : Nat}
    (h : nodeUtil s.membwUtil m ≤ perMachineTh) :
    activeUtil σ s (m, 0) + activeUtil σ s (m, 1) ≤ perMachineTh :=
  (add_le_add (activeUtil_le hnonneg (m, 0)) (activeUtil_le hnonneg (m, 1))).trans h

/-- One slot of the two counts for nothing. -/
theorem active_le_of_slot (hcells : CellsOk s) (hnonneg : ∀ p, 0 ≤ cellUtil s.membwUtil p)
    {m slot : Nat} (hslot : slot < 2) (h : activeUtil σ s (m, slot) = 0) :
    activeUtil σ s (m, 0) + activeUtil σ s (m, 1) ≤ perMachineTh := by
  have hle : ∀ p, activeUtil σ s p ≤ perMachineTh :=
    fun p => (activeUtil_le hnonneg p).trans (hcells.le p)
  rcases (show slot = 0 ∨ slot = 1 by omega) with rfl | rfl
  · rw [h, zero_add]
    exact hle _
  · rw [h, add_zero]
    exact hle _

end Active

theorem CapOk.cap (h : CapOk σ s) (hpc : s.pc.Waits)
    (hrange : ∀ id config, s.pc.current = some (id, config) → ∀ p ∈ config, p.2 < 2) :
    BandwidthCap σ s := by
  intro m
  rcases Classical.em (∃ id config, s.pc.current = some (id, config) ∧
      m ∈ config.map Prod.fst) with ⟨id, config, hcurrent, hm⟩ | hother
  · -- the scheduler waits for this job, whose slots are frozen or free
    obtain ⟨p, hp, rfl⟩ := List.mem_map.mp hm
    have hwaits := Pc.frozenConfig_of_waits hpc hcurrent
    have hslot := hrange id config hcurrent p hp
    apply active_le_of_slot h.cells h.nonneg hslot
    rcases h.frozen config hwaits p hp with hfree | hfrozen
    · exact activeUtil_of_free hfree
    · exact activeUtil_of_frozen hfrozen
  · rcases h.held m fun id config hcurrent hm => hother ⟨id, config, hcurrent, hm⟩ with
      hle | ⟨_, slot, hslot, hfrozen⟩
    · exact active_le_of_nodeUtil h.nonneg hle
    · exact active_le_of_slot h.cells h.nonneg hslot (activeUtil_of_frozen hfrozen)

namespace Held

variable {m : Nat}

/-- Where no cell of the machine grows, a step has to keep its suspended slots. -/
theorem transfer (h : Held σ s m)
    (hcells : ∀ slot < 2, cellUtil s'.membwUtil (m, slot) ≤ cellUtil s.membwUtil (m, slot))
    (hslots : ∀ slot < 2, σ.backend = .cgroup → SlotFrozen σ s (m, slot) →
      SlotFrozen σ s' (m, slot) ∨ nodeUtil s'.membwUtil m ≤ perMachineTh) : Held σ s' m := by
  rcases h with hle | ⟨hσ, slot, hslot, hfrozen⟩
  · left
    exact (add_le_add (hcells 0 (by omega)) (hcells 1 (by omega))).trans hle
  · rcases hslots slot hslot hσ hfrozen with hfrozen | hle
    · exact .inr ⟨hσ, slot, hslot, hfrozen⟩
    · exact .inl hle

theorem select (h : Held σ s m) {job : Job} {config : ExecuteConfig} {c : Controller}
    {id : Nat} (heffect : ExecuteEffect s.controller c job config id) :
    Held σ { s with controller := c, pc := .freezeOpposing id config } m := by
  refine h.transfer (fun _ _ => le_rfl) fun slot _ _ hfrozen => .inl ?_
  obtain ⟨d, ⟨owner, howner, hdomain⟩, hd⟩ := hfrozen
  refine ⟨d, ⟨owner, ?_, hdomain⟩, hd⟩
  rw [heffect.usage, if_neg, howner]
  intro hp
  cases (heffect.free _ hp).symm.trans howner

theorem suspend (h : Held σ s m) {config : ExecuteConfig} {domains : List Domain}
    {messages : List Message} {waiters : List Waiter} {pc : Pc}
    (hsend : SendTo .suspend σ.backend s.controller s.vmLocations config domains messages) :
    Held σ { s with log := s.log ++ messages, waiters := waiters, pc := pc } m :=
  h.transfer (fun _ _ => le_rfl) fun _ _ _ hfrozen => .inl (hfrozen.suspend hsend)

theorem resume (h : Held σ s m) {config : ExecuteConfig} {domains : List Domain}
    {messages : List Message} {waiters : List Waiter} {pc : Pc}
    (hsend : SendTo .resume σ.backend s.controller s.vmLocations config domains messages)
    (hm : m ∉ config.map Prod.fst) :
    Held σ { s with log := s.log ++ messages, waiters := waiters, pc := pc } m := by
  refine h.transfer (fun _ _ => le_rfl) fun slot _ hσ hfrozen => .inl ?_
  rw [SlotFrozen, hσ] at hfrozen ⊢
  rw [hσ] at hsend
  exact hfrozen.resume_elsewhere hsend hm

theorem measure (h : Held σ s m) {r : List ℚ} {config : ExecuteConfig} {util : MembwUtil}
    {pc : Pc} (hmeasured : Measured config r s.membwUtil util)
    (hm : m ∉ config.map Prod.fst) :
    Held σ { s with membwUtil := util, pc := pc } m := by
  refine h.transfer (fun slot _ => ?_) fun _ _ _ hfrozen => .inl hfrozen
  rw [cellUtil, cellUtil, hmeasured.others]
  exact fun hp => hm (List.mem_map_of_mem hp)

theorem complete (h : Held σ s m) (hcells : CellsOk s)
    (hnonneg : ∀ p, 0 ≤ cellUtil s.membwUtil p) {id : Nat} {c : Controller}
    {config : ExecuteConfig} {util : MembwUtil}
    (heffect : CompleteEffect s.controller c id config)
    (hclear : Cleared config s.membwUtil util) :
    Held σ { s with controller := c, membwUtil := util } m := by
  have hle : ∀ p, cellUtil util p ≤ cellUtil s.membwUtil p := by
    intro p
    rw [cellUtil, hclear.get?_eq]
    split
    · exact hnonneg p
    · exact le_rfl
  refine h.transfer (fun slot _ => hle _) fun slot hslot _ hfrozen => ?_
  rcases Classical.em ((m, slot) ∈ config) with hp | hp
  · -- the slot of the completed job counts for nothing now
    right
    have hzero : cellUtil util (m, slot) = 0 := by
      rw [cellUtil, hclear.get?_eq, if_pos hp]
      rfl
    change nodeUtil util m ≤ perMachineTh
    rw [← cellUtil_add_otherSlot util m hslot, hzero, zero_add]
    exact (hle _).trans (hcells.le _)
  · exact .inl (hfrozen.complete heffect hp)

theorem thaw (h : Held σ s m) {id : Nat} {config : ExecuteConfig} {frozen : Bool}
    {messages : List Message} {pc : Pc} (hcurrent : CurrentJob s.controller id config)
    (hthaw : thawIfFrozen σ id frozen s = .ok messages) (hm : m ∉ config.map Prod.fst) :
    Held σ { s with log := s.log ++ messages, pc := pc } m := by
  rcases thawIfFrozen_cases hcurrent hthaw with ⟨_, rfl⟩ | ⟨_, domains, hsend⟩
  · rw [List.append_nil]
    exact h
  · exact h.resume hsend hm

end Held

/-- A machine of the config that the check does not mark is below the threshold. -/
theorem nodeUtil_le_of_check (hwf : WellFormed s) {config : ExecuteConfig}
    {marked : List Nat} (hrange : ∀ p ∈ config, p.1 < s.controller.machines.length)
    (hcheck : Check s config marked) {m : Nat} (hm : m ∈ config.map Prod.fst)
    (hnot : m ∉ marked) : nodeUtil s.membwUtil m ≤ perMachineTh := by
  rw [Check, hwf.slots, checkMembw_two hwf.util hrange] at hcheck
  rw [← Except.ok.inj hcheck] at hnot
  obtain ⟨p, hp, rfl⟩ := List.mem_map.mp hm
  by_contra hover
  exact hnot (List.mem_map_of_mem
    (List.mem_filter.mpr ⟨hp, by simpa using not_le.mp hover⟩))

theorem nonneg_trans {action : Action} (h : ∀ p, 0 ≤ cellUtil s.membwUtil p)
    (hwf : WellFormed s) (hswaps : SwapsGenerated σ s) (hfit : UtilisationsFit s action)
    (ht : Trans σ s action s') : ∀ p, 0 ≤ cellUtil s'.membwUtil p := by
  intro p
  cases ht with
  | @runDistgen r id config util hpc hmeasured =>
      have hcurrent := hwf.current id config (by rw [hpc]; rfl)
      rcases Classical.em (p ∈ config) with hp | hp
      · obtain ⟨result, hmem, hcell⟩ := hmeasured.entered hcurrent.nodup p hp
        change 0 ≤ cellUtil util p
        rw [cellUtil, hcell]
        exact (hfit id config hpc result hmem).1
      · change 0 ≤ cellUtil util p
        rw [cellUtil, hmeasured.others p hp]
        exact h p
  | @complete _ _ _ _ util _ _ _ hclear =>
      change 0 ≤ cellUtil util p
      rw [cellUtil, hclear.get?_eq]
      split
      · exact le_rfl
      · exact h p
  | @updateConfig _ _ _ _ _ _ _ util _ hpc hupdate hmembw =>
      change 0 ≤ cellUtil util p
      rw [cellUtil, (hwf.exchanged hpc hswaps hupdate hmembw).util]
      exact h _
  | _ => exact h p

namespace CapOk

theorem start {machines : List String} {systemConfig : SystemConfig}
    {vmLocations : Vm.VmLocations} {queue : List Job} :
    CapOk σ (start machines systemConfig vmLocations queue) := by
  have hzero := cellUtil_start machines systemConfig
  refine ⟨.start, fun p => (hzero p).ge, fun m _ => .inl ?_, by rintro _ ⟨⟩⟩
  change nodeUtil (List.replicate machines.length
    (List.replicate systemConfig.slots.length 0)) m ≤ perMachineTh
  rw [nodeUtil, hzero, hzero]
  norm_num [perMachineTh]

/-- Steps that change no table and send nothing. -/
theorem of_pc (h : CapOk σ s) (hcells : CellsOk s') (hutil : s'.membwUtil = s.membwUtil)
    (husage : s'.controller.machineUsage = s.controller.machineUsage)
    (hvms : s'.vmLocations = s.vmLocations) (hlog : s'.log = s.log)
    (hcurrent : s'.pc.current = s.pc.current)
    (hfrozen : ∀ config, s'.pc.frozenConfig = some config →
      s.pc.frozenConfig = some config) : CapOk σ s' := by
  have hat : ∀ p, SlotFrozen σ s' p ↔ SlotFrozen σ s p := by
    intro p
    simp only [SlotSuspended, DomainAt, husage, hvms, hlog]
  refine ⟨hcells, by rw [hutil]; exact h.nonneg, fun m hm => ?_, fun config hpc p hp => ?_⟩
  · rw [hcurrent] at hm
    rw [Held, hutil]
    refine (h.held m hm).imp_right ?_
    rintro ⟨hσ, slot, hslot, hfrozen⟩
    exact ⟨hσ, slot, hslot, (hat _).mpr hfrozen⟩
  · rw [husage]
    exact (h.frozen config (hfrozen config hpc) p hp).imp_right (hat p).mpr

theorem updateConfig (h : CapOk σ s) (hwf : WellFormed s) {id : Nat}
    {config oldConfig newConfig : ExecuteConfig} {c : Controller}
    {vmLocations : Vm.VmLocations} {util : MembwUtil} {log : List Message}
    (hpc : s.pc = .updateConfig id config oldConfig newConfig)
    (hswaps : SwapsGenerated σ s)
    (hmembw : updateMembwUtil s.controller.systemConfig.slots.length s.membwUtil
      oldConfig newConfig = .ok util) (m : Nat) :
    Held σ { s with
      controller := c
      vmLocations := vmLocations
      membwUtil := util
      log := log
      pc := .nextJob } m := by
  obtain ⟨_, _, _, hat⟩ := hswaps _ _ _ _ hpc
  simp only [updateMembwUtil, bind_eq_ok, ensure_eq_ok, hwf.slots] at hmembw
  obtain ⟨_, _, hloop⟩ := hmembw
  left
  change nodeUtil util m ≤ perMachineTh
  rcases Classical.em (∃ move ∈ oldConfig.zip newConfig, m = move.1.1 ∨ m = move.2.1) with
    ⟨move, hmove, hm⟩ | hapart
  · exact (updateMembwLoop_fits hwf.util hloop hmove hm).le
  · rw [nodeUtil_updateMembwLoop hloop fun move hmove =>
      ⟨fun heq => hapart ⟨move, hmove, .inl heq.symm⟩,
        fun heq => hapart ⟨move, hmove, .inr heq.symm⟩⟩]
    have hlen : oldConfig.length = newConfig.length := by assumption
    have hm : m ∉ config.map Prod.fst := by
      rw [← hat.old_eq]
      intro hm
      obtain ⟨p, hp, rfl⟩ := List.mem_map.mp hm
      obtain ⟨i, hi⟩ := List.mem_iff_getElem?.mp hp
      have hlt := (List.getElem?_eq_some_iff.mp hi).1
      refine hapart ⟨(p, newConfig[i]), ?_, .inl rfl⟩
      exact List.mem_of_getElem? (List.getElem?_zip_eq_some.mpr
        ⟨hi, List.getElem?_eq_getElem (hlen ▸ hlt)⟩)
    have hheld := h.held m fun id' config' hcurrent => by
      rw [hpc] at hcurrent
      cases hcurrent
      exact hm
    rcases hheld with hle | ⟨hσ, _⟩
    · exact hle
    · have hsupported := hat.supported
      rw [hσ] at hsupported
      cases hsupported

/-- The machines of the job are held by what was just found or done, the others as
before. -/
theorem held_of_config (h : CapOk σ s) {id : Nat} {config : ExecuteConfig}
    (hcurrent : s.pc.current = some (id, config)) (hown : ∀ m ∈ config.map Prod.fst, Held σ s' m)
    (hother : ∀ m, m ∉ config.map Prod.fst → Held σ s m → Held σ s' m) (m : Nat) :
    Held σ s' m := by
  rcases Classical.em (m ∈ config.map Prod.fst) with hm | hm
  · exact hown m hm
  · refine hother m hm (h.held m fun id' config' hpc => ?_)
    cases hcurrent.symm.trans hpc
    exact hm

/-- The job is left to its waiter, and every slot it holds is suspended. -/
theorem freezeDetach (h : CapOk σ s) (hwf : WellFormed s) {id : Nat} {config : ExecuteConfig}
    {messages : List Message}
    (hcells : CellsOk { s with
      log := s.log ++ messages
      waiters := s.waiters ++ [⟨id, config, .started⟩]
      pc := .nextJob })
    (hσ : σ.backend = .cgroup) (hpc : s.pc = .overload id config false)
    (hfreeze : Controller.freeze σ.backend s.controller s.vmLocations id = .ok messages) :
    CapOk σ { s with
      log := s.log ++ messages
      waiters := s.waiters ++ [⟨id, config, .started⟩]
      pc := .nextJob } := by
  have hcurrent := hwf.current _ _ (by rw [hpc]; rfl)
  have hid := hwf.fresh _ (by rw [hpc]; rfl)
  obtain ⟨_, _, _, hsend⟩ := freeze_sendTo hfreeze
  refine ⟨hcells, h.nonneg, fun m _ => h.held_of_config (by rw [hpc]; rfl) ?_ ?_ m,
    by rintro _ ⟨⟩⟩
  · intro m hm
    obtain ⟨p, hp, rfl⟩ := List.mem_map.mp hm
    right
    refine ⟨hσ, p.2, (hwf.config_range hcurrent hp).2, ?_⟩
    rcases quiet_of_freeze hcurrent.row hfreeze p hp with hfree | hfrozen
    · cases ((hcurrent.owner_eq hwf.consistent hid).mpr hp).symm.trans hfree
    · exact hfrozen
  · exact fun m _ hheld => hheld.suspend hsend

/-- A waiter resumes its job where the machines of the job are within the threshold. -/
theorem waiterThaw (h : CapOk σ s) (hwf : WellFormed s) (hwaiters : WaitersOk σ s)
    {index id : Nat} {wait : Wait} {config : ExecuteConfig} {notified : Bool}
    {marked : List Nat} {messages : List Message}
    (hcells : CellsOk { s with
      log := s.log ++ messages
      waiters := s.waiters.set index ⟨id, config, .finished⟩ })
    (hpc : s.pc = .asleep wait)
    (hwaiter : s.waiters[index]? = some ⟨id, config, .asleep notified⟩)
    (hcheck : Check s config marked) (hall : ∀ m ∈ marked, ∀ c ∈ config, c.1 ≠ m)
    (hthaw : Controller.thaw σ.backend s.controller s.vmLocations id = .ok messages) :
    CapOk σ { s with
      log := s.log ++ messages
      waiters := s.waiters.set index ⟨id, config, .finished⟩ } := by
  have hσ := hwaiters.cgroup_of_mem (List.mem_of_getElem? hwaiter)
  have hok := hwaiters.ok id config (List.mem_map_of_mem (List.mem_of_getElem? hwaiter))
  obtain ⟨config', _, hrow, hsend⟩ := thaw_sendTo hthaw
  obtain rfl := Option.some_inj.mp (hok.row.symm.trans hrow)
  refine ⟨hcells, h.nonneg, fun m hm => ?_, fun config' hconfig => ?_⟩
  · rcases Classical.em (m ∈ config.map Prod.fst) with hmem | hmem
    · left
      refine nodeUtil_le_of_check hwf (fun p hp => (hok.range p hp).1) hcheck hmem ?_
      intro hmarked
      obtain ⟨p, hp, rfl⟩ := List.mem_map.mp hmem
      exact hall _ hmarked p hp rfl
    · exact Held.resume (h.held m hm) hsend hmem
  · have hconfig : s.pc.frozenConfig = some config' := hconfig
    have hnot := hwaiters.cgroup hσ
    rw [hpc] at hconfig hnot
    cases wait with
    | change => exact absurd trivial hnot
    | _ => cases hconfig

theorem trans {action : Action} (h : CapOk σ s) (hwf : WellFormed s)
    (hswaps : SwapsGenerated σ s) (hwaiters : WaitersOk σ s)
    (hfit : UtilisationsFit s action) (ht : Trans σ s action s') : CapOk σ s' := by
  have hcells : CellsOk s' := by
    refine h.cells.trans hwf hswaps ?_ ht
    cases action with
    | schedule r => exact fun id config hpc result hr => (hfit id config hpc result hr).2
    | _ => trivial
  have hnonneg := nonneg_trans h.nonneg hwf hswaps hfit ht
  cases ht with
  | select hpc _ heffect =>
      refine ⟨hcells, hnonneg, fun m _ => Held.select (h.held m ?_) heffect, by rintro _ ⟨⟩⟩
      rw [hpc]
      rintro _ _ ⟨⟩
  | freezeOpposing hpc hfreeze =>
      have hcurrent := hwf.current _ _ (by rw [hpc]; rfl)
      obtain ⟨_, hsend⟩ := freezeOpposing_sendTo hcurrent.row hfreeze
      refine ⟨hcells, hnonneg, fun m hm => Held.suspend (h.held m ?_) hsend, by rintro _ ⟨⟩⟩
      rw [hpc]
      exact hm
  | runDistgen hpc hmeasured =>
      refine ⟨hcells, hnonneg, fun m hm => ?_, by rintro _ ⟨⟩⟩
      refine Held.measure (h.held m ?_) hmeasured (hm _ _ rfl)
      rw [hpc]
      exact hm
  | @thawOpposing _ id config _ hpc hthaw =>
      have hcurrent := hwf.current _ _ (by rw [hpc]; rfl)
      obtain ⟨_, hsend⟩ := thawOpposing_sendTo hcurrent.row hthaw
      refine ⟨hcells, hnonneg, fun m hm => ?_, by rintro _ ⟨⟩⟩
      refine Held.resume (h.held m ?_) hsend ?_
      · rw [hpc]
        exact hm
      · rw [List.map_map]
        exact hm id config rfl
  | fits hpc hcheck hthaw =>
      have hcurrent := hwf.current _ _ (by rw [hpc]; rfl)
      refine ⟨hcells, hnonneg, fun m _ => h.held_of_config (by rw [hpc]; rfl) ?_ ?_ m,
        by rintro _ ⟨⟩⟩
      · intro m hm
        exact .inl (nodeUtil_le_of_check hwf (fun p hp => (hwf.config_range hcurrent hp).1)
          hcheck hm List.not_mem_nil)
      · exact fun m hm hheld => hheld.thaw hcurrent hthaw hm
  | swap hpc _ _ _ _ hthaw =>
      have hcurrent := hwf.current _ _ (by rw [hpc]; rfl)
      refine ⟨hcells, hnonneg, fun m hm => ?_, by rintro _ ⟨⟩⟩
      refine Held.thaw (h.held m ?_) hcurrent hthaw (hm _ _ rfl)
      rw [hpc]
      exact hm
  | freeze hpc _ _ _ _ hfreeze =>
      have hcurrent := hwf.current _ _ (by rw [hpc]; rfl)
      obtain ⟨_, _, _, hsend⟩ := freeze_sendTo hfreeze
      refine ⟨hcells, hnonneg, fun m hm => Held.suspend (h.held m ?_) hsend, ?_⟩
      · rw [hpc]
        exact hm
      · rintro _ ⟨⟩
        exact quiet_of_freeze hcurrent.row hfreeze
  | freezeDetach hpc _ _ hσ hfreeze => exact h.freezeDetach hwf hcells hσ hpc hfreeze
  | updateConfig hpc _ hmembw =>
      exact ⟨hcells, hnonneg, fun m _ => h.updateConfig hwf hpc hswaps hmembw m,
        by rintro _ ⟨⟩⟩
  | complete hpc _ heffect hclear =>
      exact ⟨hcells, hnonneg,
        fun m hm => Held.complete (h.held m hm) h.cells h.nonneg heffect hclear,
        fun config hconfig => (h.frozen config hconfig).complete heffect⟩
  | waiterThaw hpc hwaiter hcheck hall hthaw =>
      exact h.waiterThaw hwf hwaiters hcells hpc hwaiter hcheck hall hthaw
  | processEnd => exact h.of_pc hcells rfl rfl rfl rfl rfl fun _ hconfig => hconfig
  | notifyAll => exact h.of_pc hcells rfl rfl rfl rfl rfl fun _ hconfig => hconfig
  | waiterWait => exact h.of_pc hcells rfl rfl rfl rfl rfl fun _ hconfig => hconfig
  | waiterSleep => exact h.of_pc hcells rfl rfl rfl rfl rfl fun _ hconfig => hconfig
  | @wake wait hpc =>
      refine h.of_pc hcells rfl rfl rfl rfl ?_ fun config hconfig => ?_
      · rw [hpc]
        cases wait <;> rfl
      · rw [hpc]
        cases wait with
        | change => exact hconfig
        | _ => cases hconfig
  | stillFrozen hpc =>
      exact h.of_pc hcells rfl rfl rfl rfl (by rw [hpc]; rfl) fun config hconfig => by
        rw [hpc]
        exact hconfig
  | nextJob hpc | lastJob hpc | ressource hpc | noRessource hpc | allDone hpc
  | notDone hpc =>
      exact h.of_pc hcells rfl rfl rfl rfl (by rw [hpc]; rfl) (by rintro _ ⟨⟩)

end CapOk

/-- The bandwidth cap holds whenever the scheduler takes the next job or waits. -/
theorem bandwidth_cap (σ : Settings) (s : State)
    (hs : (system σ).ReachableVia UtilisationsFit s) (hpc : s.pc.Waits) :
    BandwidthCap σ s := by
  have hcap : CapOk σ s := by
    refine hs.invariant ?_ ?_
    · rintro s ⟨machines, systemConfig, vmLocations, queue, _, _, rfl⟩
      exact .start
    · intro s action s' hs h hfit hstep
      exact h.trans (reachable_wellFormed hs) (reachable_swapsGenerated hs)
        (reachable_waitersOk hs) hfit (step_trans hstep)
  have hwf := reachable_wellFormed hs
  exact hcap.cap hpc fun id config hcurrent p hp =>
    (hwf.config_range (hwf.current id config hcurrent) hp).2

def utilisationsTest (_ : State) : Action → Bool
  | .schedule distgenRes => distgenRes.all fun result =>
      decide (0 ≤ 1 - result ∧ 1 - result ≤ perMachineTh)
  | _ => true

theorem utilisationsFit_of_test (s : State) (action : Action)
    (h : utilisationsTest s action = true) : UtilisationsFit s action := by
  cases action with
  | schedule r =>
      intro id config _ result hr
      simpa using List.all_eq_true.mp h result hr
  | _ => trivial

/-- Two jobs need more than the machines have, and no swap helps: the second one
waits frozen. -/
theorem bandwidth_cap_frozenJob : ∃ s, s.pc = .asleep (.change 1 [(0, 1), (1, 1)]) ∧
    s.membwUtil = [[8 / 10, 7 / 10], [8 / 10, 7 / 10]] ∧
    BandwidthCap (plainSettings .vm) s := by
  have hrun : ((system (plainSettings .vm)).runVia utilisationsTest
      (twoMachines .vm [⟨2, 1, "", true⟩, ⟨2, 1, "", true⟩])
      (placeJob [2 / 10, 2 / 10] ++ [.schedule []] ++ placeJob [3 / 10, 3 / 10] ++
        [.schedule []])).map (fun s => (s.pc, s.membwUtil)) =
      .ok (.asleep (.change 1 [(0, 1), (1, 1)]), [[8 / 10, 7 / 10], [8 / 10, 7 / 10]]) := by
    decide +kernel
  obtain ⟨s, hrun, heq⟩ := map_eq_ok.mp hrun
  obtain ⟨hpc, hutil⟩ := Prod.mk.inj heq
  have hs : (system (plainSettings .vm)).ReachableVia UtilisationsFit s :=
    System.runVia_reachable utilisationsFit_of_test (.init (twoMachines_init _ _)) hrun
  exact ⟨s, hpc, hutil, bandwidth_cap _ s hs (by rw [hpc]; trivial)⟩

end Poncos.MultiApp
