import Poncos.Controller.TableRuns
import Poncos.MultiApp.Utilisation
import Poncos.Vm.UpdateConfig

/-!
When the three placement tables move together.  The VM names and the
utilisations are exchanged along the config as it was before the call, the
occupancy along the config as the loop rewrites it.
-/

namespace Poncos.Vm

open Poncos.Library
open Poncos.Library.Execution
open Poncos.Controller
open Poncos.MultiApp

theorem get?_updateMembwLoop {slots : Nat} {moves : List (Cell × Cell)}
    {util util' : MembwUtil} (h : updateMembwLoop slots moves util = .ok util')
    (p : Cell) : util'.get? p = util.get? (swapSeq moves p) := by
  induction moves generalizing util with
  | nil =>
      cases h
      rfl
  | cons move rest ih =>
      simp only [updateMembwLoop, bind_eq_ok] at h
      obtain ⟨util₁, hswap, _, _, _, _, _, _, _, _, h⟩ := h
      rw [ih h, Grid.get?_swap hswap, swapSeq_cons, Equiv.Perm.mul_apply]

theorem get?_swap_same {α : Type} {g : Grid α} {p q : Cell} (h : g.get? p = g.get? q)
    (x : Cell) : g.get? (Equiv.swap p q x) = g.get? x := by
  rcases eq_or_ne x p with rfl | hxp
  · rw [Equiv.swap_apply_left, h]
  · rcases eq_or_ne x q with rfl | hxq
    · rw [Equiv.swap_apply_right, h]
    · rw [Equiv.swap_apply_of_ne_of_ne hxp hxq]

/-- The occupancy after the first `i` moves is the one the old config predicts.
A leaving position still has its old slot, and the old slots of the others hold
the moved job. -/
structure InStep (R : Nat → Prop) (id : Nat) (moves : List (Cell × Cell))
    (usage : MachineUsage) (i : Nat) (t : Placement) : Prop where
  placed : Placed R t
  pending : ∀ k p, i ≤ k → Leaves moves k → moves[k]? = some p →
    t.configs.get? (id, k) = some p.1
  own : ∀ k p, moves[k]? = some p → ¬ Leaves moves k →
    t.usage.get? p.1 = some (some id)
  usage_eq : ∀ x, t.usage.get? x = usage.get? (swapSeq (moves.take i) x)

section Simulation

variable {R : Nat → Prop} {id i : Nat} {moves : List (Cell × Cell)}
  {usage : MachineUsage} {t t' : Placement} {p : Cell × Cell}
  (hfst : (moves.map Prod.fst).Nodup)

include hfst

theorem InStep.step_leaves (h : InStep R id moves usage i t) (hid : R id)
    (hchain : NoChainOut moves) (hp : moves[i]? = some p) (hleaves : Leaves moves i)
    {oc : Cell} (hoc : t.configs.get? (id, i) = some oc)
    (heffect : StepEffect R id i oc p.2 t t') : InStep R id moves usage (i + 1) t' := by
  obtain rfl : p.1 = oc := by
    have := h.pending i p le_rfl hleaves hp
    simpa [hoc] using this.symm
  have hstart : ∀ k q, moves[k]? = some q → k ≠ i → q.1 ≠ p.1 := by
    intro k q hq hki heq
    exact hki (index_unique hfst hq hp heq)
  refine ⟨heffect.placed h.placed, ?_, ?_, ?_⟩
  · intro k q hik hk hq
    have hdest : q.1 ≠ p.2 := fun heq => hchain i k p q (by omega) hp hq heq.symm hk
    rw [heffect.configs id k hid, h.pending k q (by omega) hk hq, Option.map_some,
      Equiv.swap_apply_of_ne_of_ne (hstart k q hq (by omega)) hdest]
  · intro k q hq hk
    have hki : k ≠ i := by
      rintro rfl
      exact hk hleaves
    have hdest : q.1 ≠ p.2 := fun heq => hk (hleaves.of_follow hfst hp hq heq.symm)
    rw [heffect.usage, Equiv.swap_apply_of_ne_of_ne (hstart k q hq hki) hdest]
    exact h.own k q hq hk
  · intro x
    rw [heffect.usage, h.usage_eq, swapSeq_take_succ hp, Equiv.Perm.mul_apply]

/-- A move inside a cycle exchanges two slots of the moved job. -/
theorem InStep.step_stays (h : InStep R id moves usage i t) (hid : R id)
    (hp : moves[i]? = some p) (hstays : ¬ Leaves moves i)
    {oc : Cell} (hoc : t.configs.get? (id, i) = some oc)
    (heffect : StepEffect R id i oc p.2 t t') : InStep R id moves usage (i + 1) t' := by
  obtain ⟨q, r, hr, heq, hq⟩ := exists_follow_of_not_leaves hp hstays
  have hdest : t.usage.get? p.2 = some (some id) := heq ▸ h.own q r hr hq
  have hsrc := h.placed.owner_of_config hid hoc
  have hsame : ∀ x, t'.usage.get? x = t.usage.get? x := by
    intro x
    rw [heffect.usage, get?_swap_same (hsrc.trans hdest.symm)]
  refine ⟨heffect.placed h.placed, ?_, ?_, ?_⟩
  · intro k s hik hk hs
    have hentry := h.pending k s (by omega) hk hs
    have hne : s.1 ≠ oc := by
      rintro rfl
      have := h.placed.inj id k i _ hid hentry hoc
      omega
    have hne' : s.1 ≠ p.2 := by
      intro hsp
      exact hq (index_unique hfst hs hr (hsp.trans heq) ▸ hk)
    rw [heffect.configs id k hid, hentry, Option.map_some,
      Equiv.swap_apply_of_ne_of_ne hne hne']
  · intro k s hs hk
    rw [hsame]
    exact h.own k s hs hk
  · intro x
    have howner := h.own i p hp hstays
    rw [hsame, swapSeq_take_succ hp, Equiv.Perm.mul_apply, ← h.usage_eq,
      get?_swap_same (howner.trans hdest.symm)]

theorem InStep.step (h : InStep R id moves usage i t) (hid : R id)
    (hchain : NoChainOut moves) (hp : moves[i]? = some p)
    (hstep : updateStep id i p.2 t = .ok t') : InStep R id moves usage (i + 1) t' := by
  obtain ⟨oc, hoc⟩ := entry_of_updateStep hstep
  have heffect := updateStep_effect h.placed (.inl hid) hoc hstep
  rcases Classical.em (Leaves moves i) with hleaves | hstays
  · exact h.step_leaves hfst hid hchain hp hleaves hoc heffect
  · exact h.step_stays hfst hid hp hstays hoc heffect

theorem InStep.loop (h : InStep R id moves usage i t) (hid : R id)
    (hchain : NoChainOut moves) {done rest : List (Cell × Cell)}
    (hmoves : moves = done ++ rest) (hi : i = done.length)
    (hloop : updateLoop id i (rest.map Prod.snd) t = .ok t') (x : Cell) :
    t'.usage.get? x = usage.get? (swapSeq moves x) := by
  induction rest generalizing done i t with
  | nil =>
      cases hloop
      rw [h.usage_eq, List.take_of_length_le]
      simp [hmoves, hi]
  | cons p rest ih =>
      simp only [List.map_cons, updateLoop, bind_eq_ok] at hloop
      obtain ⟨t₁, hstep, hrest⟩ := hloop
      have hp : moves[i]? = some p := by simp [hmoves, hi]
      have hmoves' : moves = (done ++ [p]) ++ rest := by simp [hmoves]
      have hi' : i + 1 = (done ++ [p]).length := by simp [hi]
      exact ih (h.step hfst hid hchain hp hstep) hmoves' hi' hrest

end Simulation

/-- For a running job and moves without a leaving chain, the occupancy is
exchanged along the old config as well. -/
theorem updateConfig_usage {c c' : Controller} (hc : c.Consistent) {id : Nat}
    (hid : c.Running id) {oldConfig newConfig : ExecuteConfig}
    (hrow : c.idToConfig[id]? = some oldConfig)
    (hlen : oldConfig.length = newConfig.length)
    (hchain : NoChainOut (oldConfig.zip newConfig))
    (hupdate : c.updateConfig id newConfig = .ok c') (x : Cell) :
    c'.machineUsage.get? x =
      c.machineUsage.get? (swapSeq (oldConfig.zip newConfig) x) := by
  simp only [Controller.updateConfig, bind_eq_ok] at hupdate
  obtain ⟨_, _, _, _, t, hloop, _, _, _, _, h⟩ := hupdate
  cases h
  have hcell := Grid.get?_of_row (g := c.placement.configs) hrow
  have hfst : ((oldConfig.zip newConfig).map Prod.fst).Nodup := by
    rw [List.map_fst_zip hlen.le]
    exact hc.nodup hid hrow
  have hentry : ∀ k p, (oldConfig.zip newConfig)[k]? = some p →
      c.placement.configs.get? (id, k) = some p.1 := by
    intro k p hp
    rw [hcell]
    exact (List.getElem?_zip_eq_some.mp hp).1
  have hinit : InStep c.Running id (oldConfig.zip newConfig) c.machineUsage 0
      c.placement :=
    ⟨hc.placed, fun k p _ _ hp => hentry k p hp,
      fun k p hp _ => hc.placed.owner_of_config hid (hentry k p hp), fun x => rfl⟩
  have hloop' : updateLoop id 0 ((oldConfig.zip newConfig).map Prod.snd) c.placement =
      .ok t := by
    rw [List.map_snd_zip hlen.ge]
    exact hloop
  exact hinit.loop hfst hid hchain (List.nil_append _).symm rfl hloop' x

/-- Every slot shows a VM, a job and a utilisation that belonged together before. -/
def TablesTogether (usage usage' : MachineUsage) (vmLocations vmLocations' : VmLocations)
    (util util' : MembwUtil) : Prop :=
  ∀ p, ∃ q, vmLocations'.get? p = vmLocations.get? q ∧
    usage'.get? p = usage.get? q ∧ util'.get? p = util.get? q

/-- The VM table shows one VM for every slot, and no VM twice. -/
structure VmTable (usage : MachineUsage) (vmLocations : VmLocations) : Prop where
  isSome_iff : ∀ p, (vmLocations.get? p).isSome ↔ (usage.get? p).isSome
  names : ∀ p q name, vmLocations.get? p = some name →
    vmLocations.get? q = some name → p = q

theorem cell_eq_of_name {vmLocations : VmLocations} (hnodup : vmLocations.flatten.Nodup)
    {p q : Cell} {name : String} (hp : vmLocations.get? p = some name)
    (hq : vmLocations.get? q = some name) : p = q := by
  obtain ⟨hrows, hdisjoint⟩ := List.nodup_flatten.mp hnodup
  obtain ⟨row, hrow, hcell⟩ := Grid.get?_eq_some_iff.mp hp
  obtain ⟨row', hrow', hcell'⟩ := Grid.get?_eq_some_iff.mp hq
  have hne : ¬ p.1 < q.1 ∧ ¬ q.1 < p.1 := by
    constructor
    · intro hlt
      obtain ⟨hp', rfl⟩ := List.getElem?_eq_some_iff.mp hrow
      obtain ⟨hq', rfl⟩ := List.getElem?_eq_some_iff.mp hrow'
      exact List.pairwise_iff_getElem.mp hdisjoint _ _ hp' hq' hlt
        (List.mem_of_getElem? hcell) (List.mem_of_getElem? hcell')
    · intro hlt
      obtain ⟨hp', rfl⟩ := List.getElem?_eq_some_iff.mp hrow
      obtain ⟨hq', rfl⟩ := List.getElem?_eq_some_iff.mp hrow'
      exact List.pairwise_iff_getElem.mp hdisjoint _ _ hq' hp' hlt
        (List.mem_of_getElem? hcell') (List.mem_of_getElem? hcell)
  have hmach : p.1 = q.1 := by omega
  rw [hmach, hrow', Option.some_inj] at hrow
  subst hrow
  have hlt := (List.getElem?_eq_some_iff.mp hcell).1
  exact Prod.ext hmach ((List.getElem?_inj hlt (hrows _ (List.mem_of_getElem? hrow'))).mp
    (hcell.trans hcell'.symm))

theorem VmTable.of_nodup {usage : MachineUsage} {vmLocations : VmLocations}
    {rows columns : Nat} (husage : usage.Rectangular rows columns)
    (hvm : vmLocations.Rectangular rows columns) (hnodup : vmLocations.flatten.Nodup) :
    VmTable usage vmLocations :=
  ⟨fun p => by rw [hvm.isSome_iff, husage.isSome_iff],
    fun _ _ _ => cell_eq_of_name hnodup⟩

/-- The three tables move together exactly when no move of the job is followed by
a later one that leaves the old config. -/
theorem tablesTogether_iff {c c' : Controller} (hc : c.Consistent) {id : Nat}
    (hid : c.Running id) {oldConfig newConfig : ExecuteConfig}
    (hrow : c.idToConfig[id]? = some oldConfig) (hnodup : newConfig.Nodup)
    {vmLocations vmLocations' : VmLocations} (hvm : VmTable c.machineUsage vmLocations)
    {tasks : List (String × Migrate)}
    (hupdate : updateConfig id newConfig c vmLocations = .ok (c', vmLocations', tasks))
    {slots : Nat} {util util' : MembwUtil}
    (hmembw : updateMembwUtil slots util oldConfig newConfig = .ok util') :
    TablesTogether c.machineUsage c'.machineUsage vmLocations vmLocations' util util' ↔
      NoChainOut (oldConfig.zip newConfig) := by
  obtain ⟨oldConfig', hok⟩ := updateConfig_ok hupdate
  obtain rfl : oldConfig = oldConfig' := Option.some_inj.mp (hrow.symm.trans hok.row)
  obtain ⟨σ, heffect⟩ := updateConfig_effect hc (.inl hid) hok.base
  have hlen := hok.length_eq
  simp only [updateMembwUtil, bind_eq_ok] at hmembw
  obtain ⟨_, _, hloop⟩ := hmembw
  have hfst : (oldConfig.zip newConfig).map Prod.fst = oldConfig :=
    List.map_fst_zip hlen.le
  have hsnd : (oldConfig.zip newConfig).map Prod.snd = newConfig :=
    List.map_snd_zip hlen.ge
  constructor
  · intro htogether i k p r hik hp hr heq hleaves
    have hstarts : ((oldConfig.zip newConfig).map Prod.fst).Nodup := by
      rw [hfst]
      exact hc.nodup hid hrow
    have hends : ((oldConfig.zip newConfig).map Prod.snd).Nodup := by
      rw [hsnd]
      exact hnodup
    obtain ⟨x, hx, hforeign⟩ :=
      exists_foreign_of_chain hstarts hends hik hp hr heq hleaves
    rw [hsnd] at hx
    rw [hfst] at hforeign
    -- slot `x` shows the moved job, but the VM of a slot that was not the job's
    obtain ⟨q, hname, hjob, _⟩ := htogether x
    have hx' : c'.machineUsage.get? x = some (some id) :=
      ((heffect.consistent hc).owner_iff x id).mpr
        ⟨(heffect.running_iff id).mpr hid, newConfig, heffect.moved, hx⟩
    have hq : c.machineUsage.get? q = some (some id) := hjob.symm.trans hx'
    obtain ⟨name, hqname⟩ := Option.isSome_iff_exists.mp
      ((hvm.isSome_iff q).mpr (by simp [hq]))
    rw [hok.locations, hqname] at hname
    obtain rfl := hvm.names _ _ name hname hqname
    obtain ⟨_, config, hconfig, hmem⟩ := (hc.owner_iff _ id).mp hq
    obtain rfl : oldConfig = config := Option.some_inj.mp (hrow.symm.trans hconfig)
    exact hforeign hmem
  · intro hchain p
    exact ⟨swapSeq (oldConfig.zip newConfig) p, hok.locations p,
      updateConfig_usage hc hid hrow hlen hchain hok.base p, get?_updateMembwLoop hloop p⟩

def fullCluster : Controller where
  machines := ["a", "b", "c"]
  systemConfig := ⟨[⟨[0], []⟩, ⟨[1], []⟩]⟩
  machineUsage := [[some 0, some 1], [some 0, some 2], [some 3, some 4]]
  idToConfig := [[(0, 0), (1, 0)], [(0, 1)], [(1, 1)], [(2, 0)], [(2, 1)]]
  idToJob := [⟨2, 1, "", true⟩, ⟨1, 1, "", true⟩, ⟨1, 1, "", true⟩,
    ⟨1, 1, "", true⟩, ⟨1, 1, "", true⟩]
  idToTpool := [0, 1, 2, 3, 4]
  threadPool := [⟨"", 0, .executing⟩, ⟨"", 1, .executing⟩, ⟨"", 2, .executing⟩,
    ⟨"", 3, .executing⟩, ⟨"", 4, .executing⟩]
  cmdCounter := 5

def fullVms : VmLocations := [["vm0", "vm1"], ["vm2", "vm3"], ["vm4", "vm5"]]

def fullUtil : MembwUtil := [[1 / 10, 2 / 10], [3 / 10, 4 / 10], [35 / 100, 1 / 4]]

theorem fullCluster_consistent : fullCluster.Consistent := by
  have hrun : (tableSystem fun _ _ _ _ => .ok "").run
      (create ["a", "b", "c"] ⟨[⟨[0], []⟩, ⟨[1], []⟩]⟩)
      [.execute ⟨2, 1, "", true⟩ [(0, 0), (1, 0)], .execute ⟨1, 1, "", true⟩ [(0, 1)],
       .execute ⟨1, 1, "", true⟩ [(1, 1)], .execute ⟨1, 1, "", true⟩ [(2, 0)],
       .execute ⟨1, 1, "", true⟩ [(2, 1)]] = .ok fullCluster := by
    rfl
  exact tableSystem_consistent
    (Transition.System.run_reachable (fun _ _ => trivial) (.init ⟨_, _, rfl⟩) hrun)

theorem fullVms_vmTable : VmTable fullCluster.machineUsage fullVms := by
  have husage : fullCluster.machineUsage.Rectangular 3 2 := ⟨rfl, by decide⟩
  exact .of_nodup husage ⟨rfl, by decide⟩ (by decide)

theorem tablesTogether_backwards : ∃ c' vmLocations' tasks util',
    updateConfig 0 [(2, 0), (0, 0)] fullCluster fullVms =
      .ok (c', vmLocations', tasks) ∧
    updateMembwUtil 2 fullUtil [(0, 0), (1, 0)] [(2, 0), (0, 0)] = .ok util' ∧
    TablesTogether fullCluster.machineUsage c'.machineUsage fullVms vmLocations'
      fullUtil util' := by
  have hid : fullCluster.Running 0 := by decide
  have hmembw : updateMembwUtil 2 fullUtil [(0, 0), (1, 0)] [(2, 0), (0, 0)] =
      .ok [[3 / 10, 2 / 10], [35 / 100, 4 / 10], [1 / 10, 1 / 4]] := by
    decide +kernel
  refine ⟨_, _, _, _, rfl, hmembw, ?_⟩
  refine (tablesTogether_iff fullCluster_consistent hid rfl (by decide) fullVms_vmTable
    rfl hmembw).mpr ?_
  intro i k p r hik hp hr heq
  have hk := (List.getElem?_eq_some_iff.mp hr).1
  obtain rfl : k = 1 := by
    simp only [List.zip_cons_cons, List.zip_nil_right, List.length_cons,
      List.length_nil] at hk
    omega
  obtain rfl : i = 0 := by omega
  cases hp
  cases hr
  simp at heq

/-- The first slot moves to the second one's place, and the second one away: the
occupancy follows the live config, the other two tables do not. -/
theorem not_tablesTogether_forwards : ∃ c' vmLocations' tasks util',
    fullCluster.Consistent ∧ fullCluster.Running 0 ∧
    (∀ p, fullCluster.machineUsage.get? p ≠ some none) ∧
    VmTable fullCluster.machineUsage fullVms ∧
    updateConfig 0 [(1, 0), (2, 0)] fullCluster fullVms =
      .ok (c', vmLocations', tasks) ∧
    updateMembwUtil 2 fullUtil [(0, 0), (1, 0)] [(1, 0), (2, 0)] = .ok util' ∧
    ¬ TablesTogether fullCluster.machineUsage c'.machineUsage fullVms vmLocations'
      fullUtil util' := by
  have hmembw : updateMembwUtil 2 fullUtil [(0, 0), (1, 0)] [(1, 0), (2, 0)] =
      .ok [[3 / 10, 2 / 10], [35 / 100, 4 / 10], [1 / 10, 1 / 4]] := by
    decide +kernel
  have hfull : ∀ row ∈ fullCluster.machineUsage, none ∉ row := by decide
  refine ⟨_, _, _, _, fullCluster_consistent, by decide, ?_, fullVms_vmTable, rfl,
    hmembw, ?_⟩
  · intro p hp
    obtain ⟨row, hrow, hcell⟩ := Grid.get?_eq_some_iff.mp hp
    exact hfull row (List.mem_of_getElem? hrow) (List.mem_of_getElem? hcell)
  · intro htogether
    obtain ⟨q, hname, hjob, _⟩ := htogether (1, 0)
    obtain rfl : q = (2, 0) := fullVms_vmTable.names q (2, 0) "vm4" hname.symm rfl
    cases hjob

end Poncos.Vm
