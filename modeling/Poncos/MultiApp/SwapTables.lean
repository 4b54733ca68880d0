import Poncos.MultiApp.SwapAccess
import Poncos.MultiApp.ValidPlacement
import Poncos.Vm.TablesMove

/-!
What the scheduler's call of `update_config` does to its tables: the occupancy, the
configs of the running jobs, the VM names and the utilisations are exchanged along
the same moves, also where the job completed while it was frozen.
-/

namespace Poncos.MultiApp

open Poncos.Library
open Poncos.Library.Execution
open Poncos.Controller

/-- All tables of `s` relabelled by one permutation of the slots. -/
structure Exchanged (π : Equiv.Perm Cell) (s : State) (c : Controller)
    (vmLocations : Vm.VmLocations) (util : MembwUtil) : Prop where
  usage : ∀ p, c.machineUsage.get? p = s.controller.machineUsage.get? (π p)
  configs : ∀ j k, s.controller.Running j → c.placement.configs.get? (j, k) =
    (s.controller.placement.configs.get? (j, k)).map π.symm
  locations : ∀ p, vmLocations.get? p = s.vmLocations.get? (π p)
  util : ∀ p, util.get? p = s.membwUtil.get? (π p)
  running_iff : ∀ j, c.Running j ↔ s.controller.Running j

/-- The moves of a swap touch pairwise different slots, unless the job completed
before the call. -/
theorem WellFormed.swap_separate {σ : Settings} {s : State} (hwf : WellFormed s) {id : Nat}
    {config oldConfig newConfig : ExecuteConfig} {c : Controller}
    {vmLocations : Vm.VmLocations} {tasks : List (String × Vm.Migrate)}
    (hpc : s.pc = .updateConfig id config oldConfig newConfig)
    (hswaps : SwapsGenerated σ s)
    (hupdate : Vm.updateConfig id newConfig s.controller s.vmLocations =
      .ok (c, vmLocations, tasks)) :
    SeparateMoves (oldConfig.zip newConfig) ∨ ¬ s.controller.Running id := by
  rcases Classical.em (s.controller.Running id) with hid | hstale
  · left
    have hcurrent := hwf.current id config (by rw [hpc]; rfl)
    obtain ⟨marked, markedSorted, candidates, hat⟩ := hswaps _ _ _ _ hpc
    obtain rfl := hat.old_eq
    obtain ⟨_, hok⟩ := Vm.updateConfig_ok hupdate
    obtain ⟨_, heffect⟩ := updateConfig_effect hwf.consistent hcurrent.movable hok.base
    have hnodup : newConfig.Nodup :=
      (heffect.consistent hwf.consistent).nodup ((heffect.running_iff id).mpr hid)
        heffect.moved
    obtain ⟨hfit, rfl⟩ := hat.input.generateNewConfig_iff.mp hat.generated
    exact hat.input.separateMoves hfit hnodup
  · exact .inr hstale

theorem WellFormed.exchanged {σ : Settings} {s : State} (hwf : WellFormed s) {id : Nat}
    {config oldConfig newConfig : ExecuteConfig} {c : Controller}
    {vmLocations : Vm.VmLocations} {util : MembwUtil}
    {tasks : List (String × Vm.Migrate)}
    (hpc : s.pc = .updateConfig id config oldConfig newConfig)
    (hswaps : SwapsGenerated σ s)
    (hupdate : Vm.updateConfig id newConfig s.controller s.vmLocations =
      .ok (c, vmLocations, tasks))
    (hmembw : updateMembwUtil s.controller.systemConfig.slots.length s.membwUtil oldConfig
      newConfig = .ok util) :
    Exchanged (swapSeq (oldConfig.zip newConfig)) s c vmLocations util := by
  have hcurrent := hwf.current id config (by rw [hpc]; rfl)
  obtain ⟨_, _, _, hat⟩ := hswaps _ _ _ _ hpc
  obtain rfl := hat.old_eq
  have hseparate := hwf.swap_separate hpc hswaps hupdate
  obtain ⟨config, hok⟩ := Vm.updateConfig_ok hupdate
  obtain rfl : oldConfig = config :=
    Option.some_inj.mp (hcurrent.row.symm.trans hok.row)
  obtain ⟨_, heffect⟩ := updateConfig_effect hwf.consistent hcurrent.movable hok.base
  obtain ⟨husage, hconfigs⟩ := updateConfig_separate hwf.consistent hcurrent.movable
    hok.row hok.length_eq hseparate hok.base
  simp only [updateMembwUtil, bind_eq_ok] at hmembw
  obtain ⟨_, _, hloop⟩ := hmembw
  exact ⟨husage, hconfigs, hok.locations, Vm.get?_updateMembwLoop hloop,
    heffect.running_iff⟩

theorem nodeUtil_eq_of_get? {util util' : MembwUtil} {m : Nat}
    (h : ∀ slot, util'.get? (m, slot) = util.get? (m, slot)) :
    nodeUtil util' m = nodeUtil util m := by
  rw [nodeUtil, nodeUtil, cellUtil, cellUtil, h, h, cellUtil, cellUtil]

theorem nodeUtil_updateMembwLoop {slots : Nat} {moves : List (Cell × Cell)}
    {util util' : MembwUtil} (h : updateMembwLoop slots moves util = .ok util') {m : Nat}
    (hm : ∀ move ∈ moves, move.1.1 ≠ m ∧ move.2.1 ≠ m) :
    nodeUtil util' m = nodeUtil util m := by
  apply nodeUtil_eq_of_get?
  intro slot
  rw [Vm.get?_updateMembwLoop h, swapSeq_apply_of_forall_ne]
  intro move hmove
  constructor
  · exact fun heq => (hm move hmove).1 (congrArg Prod.fst heq).symm
  · exact fun heq => (hm move hmove).2 (congrArg Prod.fst heq).symm

/-- The last assertion about a machine is made after the last exchange on it. -/
theorem updateMembwLoop_fits {n : Nat} {moves : List (Cell × Cell)}
    {util util' : MembwUtil} (hu : util.Rectangular n 2)
    (h : updateMembwLoop 2 moves util = .ok util') {move : Cell × Cell} (hmove : move ∈ moves)
    {m : Nat} (hm : m = move.1.1 ∨ m = move.2.1) : nodeUtil util' m < perMachineTh := by
  induction moves generalizing util move with
  | nil => simp at hmove
  | cons head rest ih =>
      rcases head with ⟨old, new⟩
      simp only [updateMembwLoop, bind_eq_ok, ensure_eq_ok] at h
      obtain ⟨util₁, hswap, oldTotal, hold, _, holdlt, newTotal, hnew, _, hnewlt, hrest⟩ := h
      have hu₁ := hu.swap hswap
      rcases Classical.em (∃ move ∈ rest, m = move.1.1 ∨ m = move.2.1) with
        ⟨move, hmove, hm⟩ | hlast
      · exact ih hu₁ hrest hmove hm
      · have hmove : move = (old, new) := by
          rcases List.mem_cons.mp hmove with heq | hmove
          · exact heq
          · exact absurd ⟨move, hmove, hm⟩ hlast
        subst hmove
        obtain ⟨hsrc, hdest⟩ := Grid.isSome_of_swap hswap
        rw [nodeUtil_updateMembwLoop hrest fun move hmove =>
          ⟨fun heq => hlast ⟨move, hmove, .inl heq.symm⟩,
            fun heq => hlast ⟨move, hmove, .inr heq.symm⟩⟩]
        rw [membwUtilOfNode_two hu₁ ((hu.isSome_iff _).mp hsrc).1] at hold
        rw [membwUtilOfNode_two hu₁ ((hu.isSome_iff _).mp hdest).1] at hnew
        rcases hm with rfl | rfl
        · rw [Except.ok.inj hold]
          exact holdlt
        · rw [Except.ok.inj hnew]
          exact hnewlt

end Poncos.MultiApp
