import Poncos.Library.History
import Poncos.MultiApp.SwapTables

/-!
The utilisations the scheduler works with are the ones it measured.  The answers of
`run_distgen` are a history variable of the run; the table shows them at the slots
the running jobs now occupy, position by position, and nothing anywhere else.
-/

namespace Poncos.MultiApp

open Poncos.Library
open Poncos.Library.Execution
open Poncos.Library.Transition
open Poncos.Controller

/-- The history: what `run_distgen` returned for each job. -/
def recordResults (s : State) (action : Action) (results : Nat → List ℚ) : Nat → List ℚ :=
  match action, s.pc with
  | .schedule distgenRes, .runDistgen id _ => Function.update results id distgenRes
  | _, _ => results

theorem recordResults_runDistgen {s : State} {r : List ℚ} {id : Nat}
    {config : ExecuteConfig} (hpc : s.pc = .runDistgen id config)
    (results : Nat → List ℚ) :
    recordResults s (.schedule r) results = Function.update results id r := by
  simp only [recordResults, hpc]

theorem recordResults_of_ne {s : State} (hpc : ∀ id config, s.pc ≠ .runDistgen id config)
    (action : Action) (results : Nat → List ℚ) :
    recordResults s action results = results := by
  unfold recordResults
  split
  · rename_i hrun
    exact absurd hrun (hpc _ _)
  · rfl

abbrev measuredSystem (σ : Settings) : System (State × (Nat → List ℚ)) Action :=
  (system σ).withHistory (fun _ => []) recordResults

/-- The job whose measurement is still to come. -/
def Pc.unmeasured : Pc → Option Nat
  | .freezeOpposing id _ => some id
  | .runDistgen id _ => some id
  | _ => none

/-- The scheduler takes the next job, or waits, or is about to. -/
def Pc.Waits : Pc → Prop
  | .nextJob | .waitRessource _ | .done | .asleep _ => True
  | _ => False

/-- Slot `p` is a position of job `j`, and its cell holds what was measured there. -/
def ShowsResult (s : State) (results : Nat → List ℚ) (p : Cell) (j : Nat) : Prop :=
  ∃ i result, s.controller.placement.configs.get? (j, i) = some p ∧
    (results j)[i]? = some result ∧ s.membwUtil.get? p = some (1 - result)

structure TableInStep (s : State) (results : Nat → List ℚ) : Prop where
  free : ∀ p, s.controller.machineUsage.get? p = some none → s.membwUtil.get? p = some 0
  taken : ∀ p j, s.controller.machineUsage.get? p = some (some j) →
    s.pc.unmeasured ≠ some j → ShowsResult s results p j
  unmeasured : ∀ p j, s.controller.machineUsage.get? p = some (some j) →
    s.pc.unmeasured = some j → s.membwUtil.get? p = some 0

/-- Every position gets the answer given for it. -/
theorem enterMeasured_get? {config : ExecuteConfig} {distgenRes : List ℚ}
    {util util' : MembwUtil} (hlen : distgenRes.length = config.length)
    (hnodup : config.Nodup) (h : enterMeasured (config.zip distgenRes) util = .ok util')
    {i : Nat} {p : ExecuteConfigElem} (hp : config[i]? = some p) :
    ∃ result, distgenRes[i]? = some result ∧ util'.get? p = some (1 - result) := by
  induction config generalizing distgenRes util i with
  | nil => simp at hp
  | cons c rest ih =>
      obtain ⟨hnot, hnodup⟩ := List.nodup_cons.mp hnodup
      cases distgenRes with
      | nil => simp at hlen
      | cons r results =>
          have hlen' : results.length = rest.length := by simpa using hlen
          simp only [List.zip_cons_cons, enterMeasured, bind_eq_ok, Grid.read_eq_ok] at h
          obtain ⟨old, hc, _, _, h⟩ := h
          cases i with
          | zero =>
              obtain rfl : c = p := Option.some_inj.mp hp
              refine ⟨r, rfl, ?_⟩
              rw [(enterMeasured_measured hlen' h).others c hnot]
              exact Grid.get?_put_self _ (by simp [hc])
          | succ i => exact ih hlen' hnodup h hp

theorem enterMeasured_ok {config : ExecuteConfig} (distgenRes : List ℚ) {util : MembwUtil}
    (hnodup : config.Nodup) (hzero : ∀ p ∈ config, util.get? p = some 0) :
    ∃ util', enterMeasured (config.zip distgenRes) util = .ok util' := by
  induction config generalizing distgenRes util with
  | nil => exact ⟨util, rfl⟩
  | cons c rest ih =>
      obtain ⟨hnot, hnodup⟩ := List.nodup_cons.mp hnodup
      cases distgenRes with
      | nil => exact ⟨util, rfl⟩
      | cons r results =>
          have hzero' : ∀ p ∈ rest, (util.put c (1 - r)).get? p = some 0 := by
            intro p hp
            have hne : c ≠ p := fun h => hnot (h ▸ hp)
            rw [Grid.get?_put_of_ne _ hne]
            exact hzero p (List.mem_cons_of_mem c hp)
          obtain ⟨util', h⟩ := ih results hnodup hzero'
          exact ⟨util', by simp [enterMeasured, hzero c List.mem_cons_self, h]⟩

theorem step_runDistgen {σ : Settings} {s s' : State} {r : List ℚ} {id : Nat}
    {config : ExecuteConfig} (hpc : s.pc = .runDistgen id config)
    (h : step σ s (.schedule r) = .ok s') :
    r.length = config.length ∧ ∃ util, enterMeasured (config.zip r) s.membwUtil = .ok util ∧
      s' = { s with membwUtil := util, pc := .thawOpposing id config } := by
  simp only [step, scheduleStep, hpc, bind_eq_ok, ensure_eq_ok] at h
  obtain ⟨_, _, _, _, _, _, _, hlen, util, hmeasured, h⟩ := h
  cases h
  exact ⟨hlen, util, hmeasured, rfl⟩

namespace TableInStep

variable {σ : Settings} {s s' : State} {results : Nat → List ℚ}

theorem start {machines : List String} {systemConfig : SystemConfig}
    {vmLocations : Vm.VmLocations} {queue : List Job}
    (hslots : systemConfig.slots.length = 2) :
    TableInStep (start machines systemConfig vmLocations queue) fun _ => [] := by
  have hwf : WellFormed (MultiApp.start machines systemConfig vmLocations queue) :=
    .start hslots
  have hfree : ∀ p j, ¬ (MultiApp.start machines systemConfig vmLocations queue
      ).controller.machineUsage.get? p = some (some j) := by
    intro p j hp
    obtain ⟨⟨_, hmem, _⟩, _⟩ := (hwf.consistent.owner_iff p j).mp hp
    simp [MultiApp.start, create] at hmem
  refine ⟨fun p hp => ?_, fun p j hp => absurd hp (hfree p j),
    fun p j hp => absurd hp (hfree p j)⟩
  have hcell := (hwf.util.isSome_iff p).mpr ((hwf.usage.isSome_iff p).mp (by simp [hp]))
  obtain ⟨x, hx⟩ := Option.isSome_iff_exists.mp hcell
  obtain ⟨row, hrow, hentry⟩ := Grid.get?_eq_some_iff.mp hx
  have hrow := List.eq_of_mem_replicate (List.mem_of_getElem? hrow)
  subst hrow
  rw [hx, List.eq_of_mem_replicate (List.mem_of_getElem? hentry)]

theorem of_eq (h : TableInStep s results)
    (husage : s'.controller.machineUsage = s.controller.machineUsage)
    (hconfigs : s'.controller.idToConfig = s.controller.idToConfig)
    (hutil : s'.membwUtil = s.membwUtil) (hpc : s'.pc.unmeasured = s.pc.unmeasured) :
    TableInStep s' results := by
  have hplaced : s'.controller.placement.configs = s.controller.placement.configs := hconfigs
  refine ⟨fun p hp => ?_, fun p j hp hj => ?_, fun p j hp hj => ?_⟩
  · rw [hutil]
    exact h.free p (husage ▸ hp)
  · obtain ⟨i, result, hi, hr, hu⟩ := h.taken p j (husage ▸ hp) (hpc ▸ hj)
    exact ⟨i, result, by rw [hplaced, hi], hr, by rw [hutil, hu]⟩
  · rw [hutil]
    exact h.unmeasured p j (husage ▸ hp) (hpc ▸ hj)

theorem select (h : TableInStep s results) (hwf : WellFormed s) {job : Job}
    {config : ExecuteConfig} {c : Controller} {id : Nat} (hpc : s.pc = .select job)
    (heffect : ExecuteEffect s.controller c job config id) :
    TableInStep { s with controller := c, pc := .freezeOpposing id config } results := by
  have hother : ∀ p j, c.machineUsage.get? p = some (some j) → j ≠ id →
      s.controller.machineUsage.get? p = some (some j) := by
    intro p j hp hj
    exact (heffect.owner_cases hp).resolve_left fun h => hj h.2
  refine ⟨fun p hp => h.free p ?_, fun p j hp hj => ?_, fun p j hp hj => h.free p ?_⟩
  · exact heffect.free_before hp
  · have hne : j ≠ id := by
      rintro rfl
      exact hj rfl
    have howner := hother p j hp hne
    obtain ⟨i, result, hi, hr, hu⟩ := h.taken p j howner (by rw [hpc]; rintro ⟨⟩)
    refine ⟨i, result, ?_, hr, hu⟩
    have hlt := hwf.consistent.running_lt ((hwf.consistent.owner_iff p j).mp howner).1
    rw [← hwf.consistent.configs_length] at hlt
    rw [← hi, placement, placement, Grid.get?, Grid.get?, heffect.idToConfig,
      List.getElem?_append_left hlt]
  · cases hj
    rcases heffect.owner_cases hp with ⟨hmem, _⟩ | hp
    · exact heffect.free p hmem
    · have hlt := hwf.consistent.running_lt ((hwf.consistent.owner_iff p id).mp hp).1
      rw [heffect.id_eq] at hlt
      exact absurd hlt (lt_irrefl _)

theorem runDistgen (h : TableInStep s results) (hwf : WellFormed s) {r : List ℚ} {id : Nat}
    {config : ExecuteConfig} {util : MembwUtil} (hpc : s.pc = .runDistgen id config)
    (hlen : r.length = config.length)
    (hmeasured : enterMeasured (config.zip r) s.membwUtil = .ok util) :
    TableInStep { s with membwUtil := util, pc := .thawOpposing id config }
      (Function.update results id r) := by
  have hcurrent := hwf.current id config (by rw [hpc]; rfl)
  have hid := hwf.fresh id (by rw [hpc]; rfl)
  have hothers := (enterMeasured_measured hlen hmeasured).others
  refine ⟨fun p hp => ?_, fun p j hp _ => ?_, by rintro _ _ _ ⟨⟩⟩
  · have hnot : p ∉ config := by
      intro hmem
      cases ((hcurrent.owner_eq hwf.consistent hid).mpr hmem).symm.trans hp
    rw [hothers p hnot]
    exact h.free p hp
  · rcases eq_or_ne j id with rfl | hne
    · obtain ⟨i, hi⟩ := List.mem_iff_getElem?.mp
        ((hcurrent.owner_eq hwf.consistent hid).mp hp)
      obtain ⟨result, hr, hu⟩ := enterMeasured_get? hlen hcurrent.nodup hmeasured hi
      refine ⟨i, result, ?_, by rw [Function.update_self, hr], hu⟩
      rw [Grid.get?_of_row (g := s.controller.placement.configs) hcurrent.row, hi]
    · have hnot : p ∉ config := by
        intro hmem
        have howner := ((hcurrent.owner_eq hwf.consistent hid).mpr hmem).symm.trans hp
        exact hne (Option.some_inj.mp (Option.some_inj.mp howner)).symm
      obtain ⟨i, result, hi, hr, hu⟩ := h.taken p j hp (by
        rw [hpc]
        exact fun heq => hne (Option.some_inj.mp heq).symm)
      refine ⟨i, result, hi, ?_, by rw [← hu]; exact hothers p hnot⟩
      rw [Function.update_of_ne hne, hr]

theorem complete (h : TableInStep s results) {id : Nat} {wait : Wait}
    {c : Controller} {config : ExecuteConfig} {util : MembwUtil} (hpc : s.pc = .asleep wait)
    (heffect : CompleteEffect s.controller c id config)
    (hclear : Cleared config s.membwUtil util) :
    TableInStep { s with controller := c, membwUtil := util } results := by
  have hplaced : c.placement.configs = s.controller.placement.configs := heffect.idToConfig
  refine ⟨fun p hp => ?_, fun p j hp hj => ?_, fun p j _ hj => ?_⟩
  · have hp : c.machineUsage.get? p = some none := hp
    rw [heffect.usage] at hp
    rw [hclear.get?_eq]
    split
    · rfl
    · rename_i hnot
      rw [if_neg hnot] at hp
      exact h.free p hp
  · obtain ⟨hnot, hp⟩ := heffect.owner_before hp
    obtain ⟨i, result, hi, hr, hu⟩ := h.taken p j hp hj
    exact ⟨i, result, by rw [hplaced, hi], hr, by rw [hclear.get?_eq, if_neg hnot, hu]⟩
  · have hj : s.pc.unmeasured = some j := hj
    rw [hpc] at hj
    cases hj

/-- The moved positions keep their cells, for they are exchanged in both tables. -/
theorem exchanged (h : TableInStep s results) (hwf : WellFormed s) {π : Equiv.Perm Cell}
    {c : Controller} {vmLocations : Vm.VmLocations} {util : MembwUtil}
    (hexchanged : Exchanged π s c vmLocations util) {log : List Message}
    (hpc : s.pc.unmeasured = none) :
    TableInStep { s with
      controller := c
      vmLocations := vmLocations
      membwUtil := util
      log := log
      pc := .nextJob } results := by
  refine ⟨fun p hp => ?_, fun p j hp _ => ?_, by rintro _ _ _ ⟨⟩⟩
  · rw [hexchanged.util]
    exact h.free _ ((hexchanged.usage p).symm.trans hp)
  · have howner := (hexchanged.usage p).symm.trans hp
    obtain ⟨i, result, hi, hr, hu⟩ := h.taken _ j howner (by rw [hpc]; rintro ⟨⟩)
    refine ⟨i, result, ?_, hr, by rw [hexchanged.util, hu]⟩
    have hj := ((hwf.consistent.owner_iff _ j).mp howner).1
    rw [hexchanged.configs j i hj, hi, Option.map_some, Equiv.symm_apply_apply]

theorem trans {action : Action} (h : TableInStep s results) (hwf : WellFormed s)
    (hswaps : SwapsGenerated σ s) (hstep : step σ s action = .ok s') :
    TableInStep s' (recordResults s action results) := by
  cases step_trans hstep with
  | runDistgen hpc _ =>
      obtain ⟨hlen, util, hmeasured, heq⟩ := step_runDistgen hpc hstep
      rw [heq, recordResults_runDistgen hpc]
      exact h.runDistgen hwf hpc hlen hmeasured
  | select hpc _ heffect =>
      rw [recordResults_of_ne (by rw [hpc]; rintro _ _ ⟨⟩)]
      exact h.select hwf hpc heffect
  | updateConfig hpc hupdate hmembw =>
      rw [recordResults_of_ne (by rw [hpc]; rintro _ _ ⟨⟩)]
      exact h.exchanged hwf (hwf.exchanged hpc hswaps hupdate hmembw) (by rw [hpc]; rfl)
  | complete hpc _ heffect hclear => exact h.complete hpc heffect hclear
  | processEnd => exact h.of_eq rfl rfl rfl rfl
  | notifyAll => exact h.of_eq rfl rfl rfl rfl
  | waiterWait => exact h.of_eq rfl rfl rfl rfl
  | waiterThaw => exact h.of_eq rfl rfl rfl rfl
  | waiterSleep => exact h.of_eq rfl rfl rfl rfl
  | @wake wait hpc => cases wait <;> exact h.of_eq rfl rfl rfl (by rw [hpc]; rfl)
  | nextJob hpc | lastJob hpc | ressource hpc | noRessource hpc | freezeOpposing hpc
  | thawOpposing hpc | fits hpc | swap hpc | stillFrozen hpc | freeze hpc
  | freezeDetach hpc | allDone hpc | notDone hpc =>
      rw [recordResults_of_ne (by rw [hpc]; rintro _ _ ⟨⟩)]
      exact h.of_eq rfl rfl rfl (by rw [hpc]; rfl)

end TableInStep

theorem reachable_tableInStep {σ : Settings} {s : State × (Nat → List ℚ)}
    (hs : (measuredSystem σ).Reachable s) : WellFormed s.1 ∧ TableInStep s.1 s.2 := by
  refine ⟨reachable_wellFormed (System.forget_reachable hs), ?_⟩
  refine System.history_invariant ?_ ?_ hs
  · rintro s ⟨machines, systemConfig, vmLocations, queue, hslots, _, rfl⟩
    exact .start hslots
  · intro s action s' results hs h hstep
    exact h.trans (reachable_wellFormed hs) (reachable_swapsGenerated hs) hstep

/-- What the table promises: the measurements where jobs are, nothing where none is,
an empty cell for every new measurement, and an empty cell behind every job. -/
structure BandwidthInStep (σ : Settings) (s : State) (results : Nat → List ℚ) : Prop where
  free : s.pc.Waits → ∀ p, s.controller.machineUsage.get? p = some none →
    s.membwUtil.get? p = some 0
  taken : s.pc.Waits → ∀ p j, s.controller.machineUsage.get? p = some (some j) →
    ShowsResult s results p j
  stores : ∀ id config, s.pc = .runDistgen id config → ∀ distgenRes : List ℚ,
    distgenRes.length = config.length → ∃ s', step σ s (.schedule distgenRes) = .ok s'
  clears : ∀ id s', step σ s (.complete id) = .ok s' → ∀ p,
    s.controller.machineUsage.get? p = some (some id) → s'.membwUtil.get? p = some 0

theorem TableInStep.stores {σ : Settings} {s : State} {results : Nat → List ℚ}
    (h : TableInStep s results) (hwf : WellFormed s) {id : Nat} {config : ExecuteConfig}
    (hpc : s.pc = .runDistgen id config) (distgenRes : List ℚ)
    (hlen : distgenRes.length = config.length) :
    ∃ s', step σ s (.schedule distgenRes) = .ok s' := by
  have hcurrent := hwf.current id config (by rw [hpc]; rfl)
  have hid := hwf.fresh id (by rw [hpc]; rfl)
  obtain ⟨util, hmeasured⟩ := enterMeasured_ok distgenRes hcurrent.nodup fun p hp =>
    h.unmeasured p id ((hcurrent.owner_eq hwf.consistent hid).mpr hp) (by rw [hpc]; rfl)
  have hne : config.map opposing ≠ [] := by simpa using hcurrent.nonempty
  refine ⟨{ s with membwUtil := util, pc := .thawOpposing id config }, ?_⟩
  simp only [step, scheduleStep, hpc]
  rw [generateOpposingConfig_ok hcurrent.row hwf.slots, bind_of_ok rfl, ensure_of hne,
    bind_of_ok rfl, require_of (by simpa using hlen), bind_of_ok rfl, ensure_of hlen,
    bind_of_ok rfl, hmeasured, bind_of_ok rfl]

theorem TableInStep.clears {σ : Settings} {s s' : State} {results : Nat → List ℚ}
    (h : TableInStep s results) (hwf : WellFormed s) (hswaps : SwapsGenerated σ s) {id : Nat}
    (hstep : step σ s (.complete id) = .ok s') {p : Cell}
    (hp : s.controller.machineUsage.get? p = some (some id)) :
    s'.membwUtil.get? p = some 0 := by
  apply (h.trans hwf hswaps hstep).free
  cases step_trans hstep with
  | complete _ _ heffect _ =>
      obtain ⟨_, config, hrow, hmem⟩ := (hwf.consistent.owner_iff p id).mp hp
      have hconfig := Option.some_inj.mp (hrow.symm.trans heffect.row)
      change Grid.get? _ p = _
      rw [heffect.usage, if_pos (hconfig ▸ hmem)]

/-- The table of utilisations stays in step with the occupancy along every run. -/
theorem bandwidth_in_step (σ : Settings) (s : State) (results : Nat → List ℚ)
    (hs : (measuredSystem σ).Reachable (s, results)) : BandwidthInStep σ s results := by
  obtain ⟨hwf, htable⟩ := reachable_tableInStep hs
  have hwaits : s.pc.Waits → s.pc.unmeasured = none := by
    cases s.pc <;> simp [Pc.Waits, Pc.unmeasured]
  refine ⟨fun _ => htable.free, fun hpc p j hp => ?_,
    fun id config hpc r hlen => htable.stores hwf hpc r hlen,
    fun id s' hstep p hp =>
      htable.clears hwf (reachable_swapsGenerated (System.forget_reachable hs)) hstep hp⟩
  exact htable.taken p j hp (by rw [hwaits hpc]; rintro ⟨⟩)

/-- Two jobs fill both machines; after the swap each of them has one for itself. -/
theorem bandwidth_in_step_swapped : ∃ s results,
    (measuredSystem (plainSettings .vm)).Reachable (s, results) ∧ s.pc = .nextJob ∧
      s.controller.idToConfig = [[(0, 0), (0, 1)], [(1, 0), (1, 1)]] ∧
      BandwidthInStep (plainSettings .vm) s results := by
  have hrun : ((measuredSystem (plainSettings .vm)).run
      (twoMachines .vm [⟨2, 1, "", true⟩, ⟨2, 1, "", true⟩], fun _ => [])
      (placeJob [7 / 10, 9 / 10] ++ [.schedule []] ++ placeJob [35 / 100, 8 / 10] ++
        [.schedule [], .schedule []])).map (fun s => (s.1.pc, s.1.controller.idToConfig)) =
      .ok (.nextJob, [[(0, 0), (0, 1)], [(1, 0), (1, 1)]]) := by
    decide +kernel
  obtain ⟨⟨s, results⟩, hrun, heq⟩ := map_eq_ok.mp hrun
  obtain ⟨hpc, hconfigs⟩ := Prod.mk.inj heq
  have hs : (measuredSystem (plainSettings .vm)).Reachable (s, results) :=
    System.run_reachable (fun _ _ => trivial) (.init ⟨twoMachines_init _ _, rfl⟩) hrun
  exact ⟨s, results, hs, hpc, hconfigs, bandwidth_in_step (plainSettings .vm) s results hs⟩

end Poncos.MultiApp
