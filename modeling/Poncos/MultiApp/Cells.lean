import Poncos.MultiApp.SwapTables

/-!
The cells of the utilisation table in runs: a free slot has none, and no slot has
more than one machine takes.  A swap keeps this because it exchanges the slots of
both tables alike.
-/

namespace Poncos.MultiApp

open Poncos.Library
open Poncos.Library.Execution
open Poncos.Library.Transition
open Poncos.Controller

structure CellsOk (s : State) : Prop where
  le : ∀ p, cellUtil s.membwUtil p ≤ perMachineTh
  free : ∀ p, s.controller.machineUsage.get? p = some none →
    cellUtil s.membwUtil p = 0

/-- No job uses more of a machine than the threshold. -/
def ResultsFit (s : State) : Action → Prop
  | .schedule distgenRes => ∀ id config, s.pc = .runDistgen id config →
      ∀ result ∈ distgenRes, 1 - result ≤ perMachineTh
  | _ => True

theorem cellUtil_start (machines : List String) (systemConfig : SystemConfig) (p : Cell) :
    cellUtil (List.replicate machines.length
      (List.replicate systemConfig.slots.length 0)) p = 0 := by
  rw [cellUtil, Grid.get?, List.getElem?_replicate]
  split
  · rw [Option.bind_some, List.getElem?_replicate]
    split <;> rfl
  · rfl

namespace CellsOk

variable {σ : Settings} {s s' : State}

theorem start {machines : List String} {systemConfig : SystemConfig}
    {vmLocations : Vm.VmLocations} {queue : List Job} :
    CellsOk (start machines systemConfig vmLocations queue) := by
  have hzero := cellUtil_start machines systemConfig
  refine ⟨fun p => ?_, fun p _ => hzero p⟩
  exact (hzero p).trans_le (by norm_num [perMachineTh])

theorem runDistgen (h : CellsOk s) (hwf : WellFormed s) {r : List ℚ} {id : Nat}
    {config : ExecuteConfig} {util : MembwUtil} (hpc : s.pc = .runDistgen id config)
    (hmeasured : Measured config r s.membwUtil util)
    (hfit : ∀ result ∈ r, 1 - result ≤ perMachineTh) :
    CellsOk { s with membwUtil := util, pc := .thawOpposing id config } := by
  have hcurrent := hwf.current id config (by rw [hpc]; rfl)
  have hid := hwf.fresh id (by rw [hpc]; rfl)
  have hothers : ∀ p, p ∉ config → cellUtil util p = cellUtil s.membwUtil p := by
    intro p hp
    rw [cellUtil, cellUtil, hmeasured.others p hp]
  refine ⟨fun p => ?_, fun p hfree => ?_⟩
  · rcases Classical.em (p ∈ config) with hp | hp
    · obtain ⟨result, hmem, hcell⟩ := hmeasured.entered hcurrent.nodup p hp
      rw [cellUtil, hcell]
      exact hfit result hmem
    · rw [hothers p hp]
      exact h.le p
  · have hp : p ∉ config := by
      intro hp
      have howner := (hcurrent.owner_eq hwf.consistent hid).mpr hp
      cases howner.symm.trans hfree
    exact (hothers p hp).trans (h.free p hfree)

theorem complete (h : CellsOk s) {id : Nat} {c : Controller} {config : ExecuteConfig}
    {util : MembwUtil} (heffect : CompleteEffect s.controller c id config)
    (hclear : Cleared config s.membwUtil util) :
    CellsOk { s with controller := c, membwUtil := util } := by
  refine ⟨fun p => ?_, fun p hfree => ?_⟩
  · rw [cellUtil, hclear.get?_eq]
    split
    · norm_num [perMachineTh]
    · exact h.le p
  · rw [cellUtil, hclear.get?_eq]
    rw [heffect.usage] at hfree
    split at hfree
    · rename_i hp
      rw [if_pos hp]
      rfl
    · rename_i hp
      rw [if_neg hp]
      exact h.free p hfree

theorem updateConfig (h : CellsOk s) (hwf : WellFormed s) {id : Nat}
    {config oldConfig newConfig : ExecuteConfig} {c : Controller}
    {vmLocations : Vm.VmLocations} {util : MembwUtil} {log : List Message}
    {tasks : List (String × Vm.Migrate)}
    (hpc : s.pc = .updateConfig id config oldConfig newConfig)
    (hswaps : SwapsGenerated σ s)
    (hupdate : Vm.updateConfig id newConfig s.controller s.vmLocations =
      .ok (c, vmLocations, tasks))
    (hmembw : updateMembwUtil s.controller.systemConfig.slots.length s.membwUtil
      oldConfig newConfig = .ok util) :
    CellsOk { s with
      controller := c
      vmLocations := vmLocations
      membwUtil := util
      log := log
      pc := .nextJob } := by
  have hexchanged := hwf.exchanged hpc hswaps hupdate hmembw
  have hutil : ∀ p, cellUtil util p =
      cellUtil s.membwUtil (swapSeq (oldConfig.zip newConfig) p) := by
    intro p
    rw [cellUtil, cellUtil, hexchanged.util]
  refine ⟨fun p => ?_, fun p hfree => ?_⟩
  · rw [hutil]
    exact h.le _
  · rw [hutil]
    exact h.free _ ((hexchanged.usage p).symm.trans hfree)

theorem trans {action : Action} (h : CellsOk s) (hwf : WellFormed s)
    (hswaps : SwapsGenerated σ s)
    (hfit : ResultsFit s action) (ht : Trans σ s action s') : CellsOk s' := by
  cases ht with
  | select _ _ heffect =>
      exact ⟨h.le, fun p hfree => h.free p (heffect.free_before hfree)⟩
  | runDistgen hpc hmeasured => exact h.runDistgen hwf hpc hmeasured (hfit _ _ hpc)
  | updateConfig hpc hupdate hmembw =>
      exact h.updateConfig hwf hpc hswaps hupdate hmembw
  | complete _ _ heffect hclear => exact h.complete heffect hclear
  | _ => exact ⟨h.le, h.free⟩

/-- An overloaded machine is shared: the slot beside one of a job is not free. -/
theorem opposing_taken (h : CellsOk s) {p : ExecuteConfigElem} (hp : p.2 < 2)
    (hover : perMachineTh < nodeUtil s.membwUtil p.1) :
    s.controller.machineUsage.get? (opposing p) ≠ some none := by
  intro hfree
  have hzero : cellUtil s.membwUtil (p.1, otherSlot p.2) = 0 := h.free _ hfree
  rw [← cellUtil_add_otherSlot s.membwUtil p.1 hp, hzero, add_zero] at hover
  exact absurd (h.le p) (not_le.mpr hover)

theorem exists_opposing (h : CellsOk s) (hwf : WellFormed s) {p : ExecuteConfigElem}
    (hp : p.1 < s.controller.machines.length ∧ p.2 < 2)
    (hover : perMachineTh < nodeUtil s.membwUtil p.1) :
    ∃ i, s.controller.machineUsage.get? (opposing p) = some (some i) := by
  have hsome := (hwf.usage.isSome_iff (opposing p)).mpr ⟨hp.1, otherSlot_lt p.2⟩
  obtain ⟨owner, howner⟩ := Option.isSome_iff_exists.mp hsome
  cases owner with
  | none => exact absurd howner (h.opposing_taken hp.2 hover)
  | some i => exact ⟨i, howner⟩

end CellsOk

/-- A job with one slot per machine does not hold the slot beside one of its own. -/
theorem not_opposing_mem {config : ExecuteConfig} (hmachines : (config.map Prod.fst).Nodup)
    {p : ExecuteConfigElem} (hp : p ∈ config) : opposing p ∉ config := by
  intro hopposing
  have heq : opposing p = p := List.inj_on_of_nodup_map hmachines hopposing hp rfl
  exact otherSlot_ne p.2 (congrArg Prod.snd heq)

end Poncos.MultiApp
