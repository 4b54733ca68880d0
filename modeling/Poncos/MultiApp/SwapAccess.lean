import Poncos.MultiApp.SwapResolves
import Poncos.MultiApp.WellFormed

/-!
The accesses of `vm_controller::update_config` in runs of the scheduler.  It reads
the job at every destination slot, where the base controller skips a free one, so
they are in range exactly when the slot rule never picks a free slot.
-/

namespace Poncos.MultiApp

open Poncos.Library
open Poncos.Library.Execution
open Poncos.Library.Transition
open Poncos.Controller

/-- At the call of `update_config`, the old config is the one the job was placed
on and the new one comes from `generate_new_config`. -/
structure AtSwap (σ : Settings) (s : State) (config oldConfig newConfig : ExecuteConfig)
    (marked markedSorted candidates : List Nat) : Prop where
  supported : σ.backend.updateSupported = true
  old_eq : oldConfig = config
  input : SwapInput σ.sorter s.membwUtil s.controller.machines.length config marked
    markedSorted candidates
  generated : generateNewConfig σ.sorter 2 s.membwUtil config marked candidates =
    .ok newConfig

theorem WellFormed.swapInput {σ : Settings} {s : State} (h : WellFormed s) {id : Nat}
    {config : ExecuteConfig} (hcurrent : CurrentJob s.controller id config)
    {marked candidates : List Nat} (hcheck : Check s config marked)
    (hcandidates : findSwapCandidates σ.sorter s.controller.systemConfig.slots.length
      s.membwUtil marked = .ok candidates) (hne : candidates ≠ []) :
    ∃ markedSorted, SwapInput σ.sorter s.membwUtil s.controller.machines.length config
      marked markedSorted candidates := by
  rw [Check, h.slots] at hcheck
  rw [h.slots] at hcandidates
  have hrange := fun p (hp : p ∈ config) => h.config_range hcurrent hp
  -- the marked machines are machines of the config, so there are not too many to sort
  have hmarked : marked =
      (config.filter fun p => perMachineTh < nodeUtil s.membwUtil p.1).map Prod.fst := by
    rw [checkMembw_two h.util fun p hp => (hrange p hp).1] at hcheck
    exact (Except.ok.inj hcheck).symm
  have hsub : ∀ m ∈ marked, m < s.controller.machines.length := by
    intro m hm
    rw [hmarked] at hm
    obtain ⟨p, hp, rfl⟩ := List.mem_map.mp hm
    exact (hrange p (List.mem_of_mem_filter hp)).1
  have hnodup : marked.Nodup := by
    rw [hmarked]
    exact (List.filter_sublist.map Prod.fst).nodup hcurrent.machines
  have hlen : marked.length ≤ s.controller.machines.length := by
    have hsubset : marked ⊆ List.range s.controller.machines.length :=
      fun m hm => List.mem_range.mpr (hsub m hm)
    simpa using (List.subperm_of_subset hnodup hsubset).length_le
  obtain ⟨markedSorted, hsorted, _⟩ :=
    sortMachines_two h.util σ.sorter true hlen
  exact ⟨markedSorted, h.util, hcurrent.machines, hrange, hcheck, hsorted,
    hcandidates, hne⟩

theorem candidates_ne_of_generated {S : StdSort Nat} {slots : Nat} {util : MembwUtil}
    {oldConfig newConfig : ExecuteConfig} {marked candidates : List Nat}
    (h : generateNewConfig S slots util oldConfig marked candidates = .ok newConfig)
    (hne : newConfig ≠ []) : candidates ≠ [] := by
  rintro rfl
  rw [generateNewConfig, if_pos rfl] at h
  exact hne (Except.ok.inj h).symm

theorem WellFormed.atSwap {σ : Settings} {s : State} (h : WellFormed s) {id : Nat}
    {config oldConfig newConfig : ExecuteConfig} {frozen : Bool}
    {marked candidates : List Nat} (hpc : s.pc = .overload id config frozen)
    (hcheck : Check s config marked)
    (hproposed : Proposed σ s id marked oldConfig newConfig candidates)
    (hne : newConfig ≠ []) :
    ∃ markedSorted, AtSwap σ s config oldConfig newConfig marked markedSorted
      candidates := by
  have hcurrent := h.current id config (by rw [hpc]; rfl)
  obtain rfl : config = oldConfig :=
    Option.some_inj.mp (hcurrent.row.symm.trans hproposed.row)
  have hgenerated := hproposed.generated
  obtain ⟨markedSorted, hinput⟩ := h.swapInput hcurrent hcheck hproposed.candidates
    (candidates_ne_of_generated hgenerated hne)
  rw [h.slots] at hgenerated
  exact ⟨markedSorted, hproposed.supported, rfl, hinput, hgenerated⟩

def SwapsGenerated (σ : Settings) (s : State) : Prop :=
  ∀ id config oldConfig newConfig, s.pc = .updateConfig id config oldConfig newConfig →
    ∃ marked markedSorted candidates,
      AtSwap σ s config oldConfig newConfig marked markedSorted candidates

theorem SwapsGenerated.trans {σ : Settings} {s s' : State} {action : Action}
    (hinv : SwapsGenerated σ s) (hwf : WellFormed s) (ht : Trans σ s action s') :
    SwapsGenerated σ s' := by
  intro id config oldConfig newConfig hpc'
  cases ht with
  | swap hpc hcheck _ hproposed hne _ =>
      cases hpc'
      obtain ⟨markedSorted, hat⟩ := hwf.atSwap hpc hcheck hproposed hne
      exact ⟨_, markedSorted, _, hat.supported, hat.old_eq, hat.input, hat.generated⟩
  | processEnd =>
      obtain ⟨marked, markedSorted, candidates, hat⟩ := hinv _ _ _ _ hpc'
      exact ⟨marked, markedSorted, candidates, hat.supported, hat.old_eq, hat.input,
        hat.generated⟩
  | notifyAll =>
      obtain ⟨marked, markedSorted, candidates, hat⟩ := hinv _ _ _ _ hpc'
      exact ⟨marked, markedSorted, candidates, hat.supported, hat.old_eq, hat.input,
        hat.generated⟩
  | @wake wait => cases wait <;> cases hpc'
  | complete hpc => cases hpc.symm.trans hpc'
  | waiterWait hpc => cases hpc.symm.trans hpc'
  | waiterThaw hpc => cases hpc.symm.trans hpc'
  | waiterSleep hpc => cases hpc.symm.trans hpc'
  | _ => cases hpc'

theorem reachable_swapsGenerated {σ : Settings} {guard : State → Action → Prop}
    {s : State} (hs : (system σ).ReachableVia guard s) : SwapsGenerated σ s := by
  refine hs.invariant ?_ ?_
  · rintro s ⟨_, _, _, _, _, _, rfl⟩ _ _ _ _ ⟨⟩
  · intro s action s' hs hinv _ hstep
    exact hinv.trans (reachable_wellFormed hs) (step_trans hstep)

/-- Slot `f` of machine `m` is not the one the rule picks for a slot of
utilisation `own` beside one of utilisation `other`: its neighbour is heavier
where the rule wants the heavier slot, lighter where it wants the lighter one, or
equally loaded and first. -/
def Outranked (util : MembwUtil) (own other : ℚ) (m f : Nat) : Prop :=
  if own < other then
    cellUtil util (m, f) < cellUtil util (m, otherSlot f) ∨
      cellUtil util (m, f) = cellUtil util (m, otherSlot f) ∧ otherSlot f < f
  else
    cellUtil util (m, otherSlot f) < cellUtil util (m, f) ∨
      cellUtil util (m, f) = cellUtil util (m, otherSlot f) ∧ otherSlot f < f

theorem outranked_iff (util : MembwUtil) (own other : ℚ) (m : Nat) {f : Nat}
    (hf : f < 2) : Outranked util own other m f ↔ chosenSlot util own other m ≠ f := by
  rcases slot_cases hf with ⟨rfl, hother⟩ | ⟨rfl, hother⟩
  · rw [Outranked, chosenSlot, hother]
    split_ifs with h₁ h₂ h₃ <;> simp_all
  · rw [Outranked, chosenSlot, hother]
    split_ifs with h₁ h₂ h₃ <;> grind

/-- For every marked machine and its candidate, no free slot of the candidate is
the one to be exchanged with the job's slot. -/
def FreeSlotsOutranked (usage : MachineUsage) (util : MembwUtil) (config : ExecuteConfig)
    (markedSorted candidates : List Nat) : Prop :=
  ∀ (rank newMach f : Nat) (p : ExecuteConfigElem), p ∈ config →
    markedSorted[rank]? = some p.1 → candidates[rank]? = some newMach →
    usage.get? (newMach, f) = some none →
      Outranked util (cellUtil util p) (cellUtil util (p.1, otherSlot p.2)) newMach f

/-- Every access to a table of jobs that `update_config` is about to make through
the destination of a moved slot is in range. -/
def AccessesInRange (s : State) : Prop :=
  ∀ id config oldConfig newConfig, s.pc = .updateConfig id config oldConfig newConfig →
    ∀ p ∈ oldConfig.zip newConfig, p.1.1 ≠ p.2.1 →
      ∃ destJobId, s.controller.machineUsage.get? p.2 = some (some destJobId) ∧
        destJobId < s.controller.idToJob.length ∧
        destJobId < s.controller.idToConfig.length

theorem WellFormed.owner_lt {s : State} (h : WellFormed s) {p : Cell} {j : Nat}
    (hj : s.controller.machineUsage.get? p = some (some j)) :
    j < s.controller.idToJob.length ∧ j < s.controller.idToConfig.length := by
  have hrunning := ((h.consistent.owner_iff p j).mp hj).1
  rw [h.consistent.jobs_length, h.consistent.configs_length]
  exact ⟨h.consistent.running_lt hrunning, h.consistent.running_lt hrunning⟩

theorem accessesInRange_iff {σ : Settings} {s : State} (h : WellFormed s) {id : Nat}
    {config oldConfig newConfig : ExecuteConfig} {marked markedSorted candidates : List Nat}
    (hpc : s.pc = .updateConfig id config oldConfig newConfig)
    (hat : AtSwap σ s config oldConfig newConfig marked markedSorted candidates) :
    AccessesInRange s ↔ FreeSlotsOutranked s.controller.machineUsage s.membwUtil config
      markedSorted candidates := by
  have hinput := hat.input
  obtain ⟨hfit, rfl⟩ := hinput.generateNewConfig_iff.mp hat.generated
  obtain rfl := hat.old_eq
  have hmoved : ∀ p ∈ oldConfig, ∀ (rank newMach : Nat), markedSorted[rank]? = some p.1 →
      candidates[rank]? = some newMach →
      reassign s.membwUtil markedSorted candidates p =
        (newMach, chosenSlot s.membwUtil (cellUtil s.membwUtil p)
          (cellUtil s.membwUtil (p.1, otherSlot p.2)) newMach) :=
    fun p _ rank newMach hold hnew => reassign_of_rank hinput.markedSorted_nodup hold hnew
  constructor
  · intro haccess rank newMach f p hp hold hnew hfree
    have hf : f < 2 := ((h.usage.isSome_iff (newMach, f)).mp (by simp [hfree])).2
    rw [outranked_iff _ _ _ _ hf]
    intro hchosen
    have hdest := hmoved p hp rank newMach hold hnew
    have hne : p.1 ≠ newMach := fun heq =>
      hinput.candidate_not_marked hfit hnew (heq ▸ List.mem_of_getElem? hold)
    have hmem : (p, reassign s.membwUtil markedSorted candidates p) ∈
        oldConfig.zip (oldConfig.map (reassign s.membwUtil markedSorted candidates)) := by
      rw [zip_map_self]
      exact List.mem_map.mpr ⟨p, hp, rfl⟩
    obtain ⟨j, hj, _⟩ := haccess _ _ _ _ hpc _ hmem (by simpa [hdest] using hne)
    simp only [hdest, hchosen, hfree] at hj
    cases hj
  · intro houtranked id' config' oldConfig' newConfig' hpc' q hq hhost
    cases hpc.symm.trans hpc'
    rw [zip_map_self] at hq
    obtain ⟨p, hp, rfl⟩ := List.mem_map.mp hq
    rcases hinput.elem_cases p with ⟨_, hstay⟩ | ⟨rank, newMach, hold, hnew, hlt, _, hdest⟩
    · exact absurd (by simp [hstay]) hhost
    · have hsome : (s.controller.machineUsage.get?
          (reassign s.membwUtil markedSorted candidates p)).isSome := by
        rw [h.usage.isSome_iff, hdest]
        exact ⟨hlt, chosenSlot_lt _ _ _ _⟩
      obtain ⟨owner, howner⟩ := Option.isSome_iff_exists.mp hsome
      cases owner with
      | none =>
          rw [hdest] at howner
          have := houtranked rank newMach _ p hp hold hnew howner
          rw [outranked_iff _ _ _ _ (chosenSlot_lt _ _ _ _)] at this
          exact absurd rfl this
      | some j => exact ⟨j, howner, h.owner_lt howner⟩

/-- The condition on a step: where the overload loop computes a swap, no free slot
is picked. -/
def SwapsWithJobs (σ : Settings) (s : State) : Action → Prop
  | .schedule _ =>
      ∀ (id : Nat) (config : ExecuteConfig) (frozen : Bool)
        (marked markedSorted candidates : List Nat),
        s.pc = .overload id config frozen → Check s config marked →
        sortMachinesByMembwUtil σ.sorter 2 s.membwUtil marked true = .ok markedSorted →
        findSwapCandidates σ.sorter 2 s.membwUtil marked = .ok candidates →
          FreeSlotsOutranked s.controller.machineUsage s.membwUtil config markedSorted
            candidates
  | _ => True

section Steps

variable {σ : Settings} {s s' : State} {action : Action}

theorem AccessesInRange.trans (h : AccessesInRange s) (hwf : WellFormed s)
    (hguard : SwapsWithJobs σ s action) (ht : Trans σ s action s') :
    AccessesInRange s' := by
  have hwf' := hwf.trans ht
  cases ht with
  | swap hpc hcheck _ hproposed hne _ =>
      obtain ⟨markedSorted, hat⟩ := hwf.atSwap hpc hcheck hproposed hne
      have hcandidates := hproposed.candidates
      rw [hwf.slots] at hcandidates
      refine (accessesInRange_iff hwf' rfl
        ⟨hat.supported, hat.old_eq, hat.input, hat.generated⟩).mpr ?_
      exact hguard _ _ _ _ _ _ hpc hcheck hat.input.sorted_eq hcandidates
  | processEnd => exact fun id config oldConfig newConfig hpc => h id config _ _ hpc
  | notifyAll => exact fun id config oldConfig newConfig hpc => h id config _ _ hpc
  | @wake wait => cases wait <;> rintro _ _ _ _ ⟨⟩
  | complete hpc => exact fun _ _ _ _ hpc' => by cases hpc.symm.trans hpc'
  | waiterWait hpc => exact fun _ _ _ _ hpc' => by cases hpc.symm.trans hpc'
  | waiterThaw hpc => exact fun _ _ _ _ hpc' => by cases hpc.symm.trans hpc'
  | waiterSleep hpc => exact fun _ _ _ _ hpc' => by cases hpc.symm.trans hpc'
  | _ => rintro _ _ _ _ ⟨⟩

theorem not_accessesInRange_of_trans (hσ : σ.backend = .vm) (hwf : WellFormed s)
    (hguard : ¬ SwapsWithJobs σ s action) (ht : Trans σ s action s') :
    ¬ AccessesInRange s' := by
  cases action with
  | schedule r =>
      simp only [SwapsWithJobs, not_forall] at hguard
      obtain ⟨id, config, frozen, marked, markedSorted, candidates, hpc, hcheck, hsorted,
        hcandidates, hpicked⟩ := hguard
      have hwf' := hwf.trans ht
      have hcurrent := hwf.current id config (by rw [hpc]; rfl)
      have hne : candidates ≠ [] := by
        rintro rfl
        exact hpicked fun rank newMach f p _ _ hnew => by simp at hnew
      have hslots := hcandidates
      rw [← hwf.slots] at hslots
      obtain ⟨markedSorted', hinput⟩ := hwf.swapInput hcurrent hcheck hslots hne
      obtain rfl : markedSorted = markedSorted' :=
        Except.ok.inj (hsorted.symm.trans hinput.sorted_eq)
      have hnoSwap : ¬ NoSwap σ s id marked := by
        rintro ⟨oldConfig, hpropose⟩
        simp only [proposeSwap, hσ, Backend.updateSupported, if_true, bind_eq_ok,
          fetch_eq_ok, hwf.slots] at hpropose
        obtain ⟨candidates', hcandidates', oldConfig', hrow, newConfig, hgenerate, h⟩ :=
          hpropose
        cases h
        obtain rfl : candidates = candidates' :=
          Except.ok.inj (hcandidates.symm.trans hcandidates')
        obtain rfl : config = oldConfig :=
          Option.some_inj.mp (hcurrent.row.symm.trans hrow)
        have hempty := (hinput.generateNewConfig_iff.mp hgenerate).2
        exact hcurrent.nonempty (List.map_eq_nil_iff.mp hempty.symm)
      cases ht with
      | fits hpc' hcheck' =>
          cases hpc.symm.trans hpc'
          rw [Except.ok.inj (hcheck.symm.trans hcheck')] at hinput
          exact absurd hinput.candidates_length (by simpa using hne)
      | swap hpc' hcheck' _ hproposed hnew =>
          cases hpc.symm.trans hpc'
          obtain rfl := Except.ok.inj (hcheck.symm.trans hcheck')
          obtain ⟨markedSorted', hat⟩ := hwf.atSwap hpc hcheck hproposed hnew
          obtain rfl := Except.ok.inj (hsorted.symm.trans hat.input.sorted_eq)
          obtain rfl := Except.ok.inj (hcandidates.symm.trans hat.input.candidates_eq)
          intro haccess
          exact hpicked ((accessesInRange_iff hwf' rfl
            ⟨hat.supported, hat.old_eq, hat.input, hat.generated⟩).mp haccess)
      | stillFrozen hpc' hcheck' _ hno =>
          cases hpc.symm.trans hpc'
          obtain rfl := Except.ok.inj (hcheck.symm.trans hcheck')
          exact absurd hno hnoSwap
      | freeze hpc' hcheck' _ hno =>
          cases hpc.symm.trans hpc'
          obtain rfl := Except.ok.inj (hcheck.symm.trans hcheck')
          exact absurd hno hnoSwap
      | freezeDetach _ _ _ hbackend =>
          rw [hσ] at hbackend
          cases hbackend
      | nextJob hpc' => cases hpc.symm.trans hpc'
      | lastJob hpc' => cases hpc.symm.trans hpc'
      | ressource hpc' => cases hpc.symm.trans hpc'
      | noRessource hpc' => cases hpc.symm.trans hpc'
      | select hpc' => cases hpc.symm.trans hpc'
      | freezeOpposing hpc' => cases hpc.symm.trans hpc'
      | runDistgen hpc' => cases hpc.symm.trans hpc'
      | thawOpposing hpc' => cases hpc.symm.trans hpc'
      | updateConfig hpc' => cases hpc.symm.trans hpc'
      | allDone hpc' => cases hpc.symm.trans hpc'
      | notDone hpc' => cases hpc.symm.trans hpc'
  | _ => exact absurd trivial hguard

end Steps

/-- The accesses of `update_config` are in range along every run in which no swap
takes a free slot, and the first step that takes one breaks this. -/
theorem accesses_in_range_iff (σ : Settings) (hσ : σ.backend = .vm) :
    (∀ s, (system σ).ReachableVia (SwapsWithJobs σ) s → AccessesInRange s) ∧
      ∀ s action s', (system σ).Reachable s → (system σ).step s action = .ok s' →
        ¬ SwapsWithJobs σ s action → ¬ AccessesInRange s' := by
  constructor
  · intro s hs
    refine hs.invariant ?_ ?_
    · rintro s ⟨_, _, _, _, _, _, rfl⟩ _ _ _ _ ⟨⟩
    · intro s action s' hs h hguard hstep
      exact h.trans (reachable_wellFormed hs) hguard (step_trans hstep)
  · intro s action s' hs hstep hguard
    exact not_accessesInRange_of_trans hσ (reachable_wellFormed hs) hguard
      (step_trans hstep)

/-- A test that implies the condition: all slots are taken, or nothing is marked. -/
def swapTest (s : State) (_ : Action) : Bool :=
  match s.pc with
  | .overload _ config _ =>
      decide (checkMembw s.controller.systemConfig.slots.length s.membwUtil config =
        .ok []) || s.controller.machineUsage.all fun row => row.all Option.isSome
  | _ => true

theorem swapsWithJobs_of_test (σ : Settings) (s : State) (action : Action)
    (h : swapTest s action = true) : SwapsWithJobs σ s action := by
  cases action with
  | schedule r =>
      intro id config frozen marked markedSorted candidates hpc hcheck hsorted _ rank
        newMach f p hp hold _ hfree
      simp only [swapTest, hpc, Bool.or_eq_true, decide_eq_true_eq] at h
      rcases h with hempty | hfull
      · obtain rfl : marked = [] := Except.ok.inj (hcheck.symm.trans hempty)
        simp only [sortMachinesByMembwUtil, bind_eq_ok] at hsorted
        obtain ⟨_, _, _, _, hsorted⟩ := hsorted
        cases hsorted
        have hlen := (List.getElem?_eq_some_iff.mp hold).1
        simp at hlen
      · obtain ⟨row, hrow, hcell⟩ := Grid.get?_eq_some_iff.mp hfree
        have hall := List.all_eq_true.mp hfull row (List.mem_of_getElem? hrow)
        have := List.all_eq_true.mp hall none (List.mem_of_getElem? hcell)
        simp at this
  | _ => exact trivial

/-- Two jobs fill both machines; the second one exchanges a slot with the first. -/
theorem accesses_in_range_fullMachines : ∃ s id config oldConfig newConfig,
    s.pc = .updateConfig id config oldConfig newConfig ∧
      (∃ p ∈ oldConfig.zip newConfig, p.1.1 ≠ p.2.1) ∧ AccessesInRange s := by
  have hrun : ((system (plainSettings .vm)).runVia swapTest
      (twoMachines .vm [⟨2, 1, "", true⟩, ⟨2, 1, "", true⟩])
      (placeJob [7 / 10, 9 / 10] ++ [.schedule []] ++ placeJob [35 / 100, 8 / 10] ++
        [.schedule []])).map State.pc =
      .ok (.updateConfig 1 [(0, 1), (1, 1)] [(0, 1), (1, 1)] [(1, 0), (1, 1)]) := by
    decide +kernel
  obtain ⟨s, hrun, hpc⟩ := map_eq_ok.mp hrun
  refine ⟨s, _, _, _, _, hpc, by decide, ?_⟩
  exact (accesses_in_range_iff (plainSettings .vm) rfl).1 s
    (System.runVia_reachable (swapsWithJobs_of_test _) (.init (twoMachines_init _ _)) hrun)

/-- Two jobs of one slot each share the first machine; the second machine is free,
and the swap takes a free slot of it. -/
theorem not_accessesInRange_freeMachine : ∃ s,
    (system (plainSettings .vm)).Reachable s ∧ ¬ AccessesInRange s := by
  have hrun : ((system (plainSettings .vm)).run
      (twoMachines .vm [⟨1, 1, "", true⟩, ⟨1, 1, "", true⟩])
      (placeJob [4 / 10] ++ [.schedule []] ++ placeJob [5 / 10] ++
        [.schedule []])).map (fun s => (s.pc, s.controller.machineUsage)) =
      .ok (.updateConfig 1 [(0, 1)] [(0, 1)] [(1, 0)],
        [[some 0, some 1], [none, none]]) := by
    decide +kernel
  obtain ⟨s, hrun, hs⟩ := map_eq_ok.mp hrun
  obtain ⟨hpc, husage⟩ := Prod.mk.inj hs
  refine ⟨s, System.run_reachable (fun _ _ => trivial) (.init (twoMachines_init _ _)) hrun,
    ?_⟩
  intro haccess
  obtain ⟨j, hj, _⟩ := haccess _ _ _ _ hpc ((0, 1), (1, 0)) (by simp) (by simp)
  rw [husage] at hj
  cases hj

end Poncos.MultiApp
