import Poncos.Controller.SeparateUpdate
import Poncos.MultiApp.SwapResolves
import Poncos.Vm.UpdateConfig

/-!
What `generate_new_config` returns is a placement of the job with one slot per
machine, away from the machines it had, as long as no machine of the job is among
the candidates.
-/

namespace Poncos.MultiApp

open Poncos.Library
open Poncos.Library.Execution

/-- The new config replaces the slots on marked machines by slots of other machines,
and both implementations of `update_config` accept it. -/
structure ValidPlacement (n : Nat) (marked : List Nat)
    (oldConfig newConfig : ExecuteConfig) : Prop where
  length_eq : newConfig.length = oldConfig.length
  stays : ∀ (i : Nat) (p : ExecuteConfigElem), oldConfig[i]? = some p → p.1 ∉ marked →
    newConfig[i]? = some p
  moves : ∀ (i : Nat) (p q : ExecuteConfigElem), oldConfig[i]? = some p →
    newConfig[i]? = some q → p.1 ∈ marked → q.1 ∉ oldConfig.map Prod.fst
  machines : (newConfig.map Prod.fst).Nodup
  range : ∀ p ∈ newConfig, p.1 < n ∧ p.2 < 2
  sameHost : Vm.SameHostSameSlot (oldConfig.zip newConfig)
  accepted : ∀ (c : Controller) (id : Nat), c.Consistent → c.MovableJob id →
    c.machineUsage.Rectangular n 2 → c.idToConfig[id]? = some oldConfig →
      ∃ c', c.updateConfig id newConfig = .ok c'

/-- The machines between which moves exchange slots. -/
def machineMoves (moves : List (ExecuteConfigElem × ExecuteConfigElem)) : List (Nat × Nat) :=
  (moves.filter fun move => decide (move.1.1 ≠ move.2.1)).map fun move =>
    (move.1.1, move.2.1)

namespace SwapInput

variable {S : StdSort Nat} {util : MembwUtil} {n : Nat} {oldConfig : ExecuteConfig}
  {marked markedSorted candidates : List Nat}
  (h : SwapInput S util n oldConfig marked markedSorted candidates)

include h

theorem rank_unique {i k m : Nat} (hi : candidates[i]? = some m)
    (hk : candidates[k]? = some m) : i = k :=
  (List.getElem?_inj (List.getElem?_eq_some_iff.mp hi).1 h.candidates_nodup).mp
    (hi.trans hk.symm)

/-- If no slot is assigned twice, the moves touch pairwise different slots: a slot
on the candidate of another one would stay, so that the two would meet there. -/
theorem separateMoves (hfit : PairsFit util markedSorted candidates)
    (hnodup : (oldConfig.map (reassign util markedSorted candidates)).Nodup) :
    SeparateMoves (oldConfig.zip (oldConfig.map (reassign util markedSorted candidates))) := by
  have hmeet : ∀ p q, p.1 ≠ q.1 → reassign util markedSorted candidates p ≠
      reassign util markedSorted candidates q →
        p ≠ reassign util markedSorted candidates q := by
    intro p q hne hapart heq
    rcases h.elem_cases q with ⟨_, hstay⟩ | ⟨rank, newMach, _, hnew, _, _, hmove⟩
    · rw [hstay] at heq
      exact hne (congrArg Prod.fst heq)
    · have hmach : p.1 = newMach := by rw [heq, hmove]
      have hstay : reassign util markedSorted candidates p = p := by
        apply reassign_of_not_mem
        rw [hmach]
        exact h.candidate_not_marked hfit hnew
      exact hapart (hstay.trans heq)
  rw [zip_map_self, SeparateMoves, List.pairwise_map]
  refine ((List.pairwise_map.mp h.machines).and (List.pairwise_map.mp hnodup)).imp ?_
  rintro p q ⟨hne, hapart⟩
  refine ⟨⟨?_, hmeet p q hne hapart⟩, ?_, hapart⟩
  · rintro rfl
    exact hne rfl
  · exact Ne.symm (hmeet q p (Ne.symm hne) (Ne.symm hapart))

theorem exists_rank_of_moved {p : ExecuteConfigElem}
    (hhost : p.1 ≠ (reassign util markedSorted candidates p).1) : ∃ rank : Nat,
      markedSorted[rank]? = some p.1 ∧
        candidates[rank]? = some (reassign util markedSorted candidates p).1 := by
  rcases h.elem_cases p with ⟨_, hstay⟩ | ⟨rank, newMach, hold, hnew, _, _, hmove⟩
  · exact absurd (congrArg Prod.fst hstay.symm) hhost
  · exact ⟨rank, hold, by rw [hmove, hnew]⟩

theorem marked_ne_candidate (hfit : PairsFit util markedSorted candidates)
    {i k old new : Nat} (hold : markedSorted[i]? = some old)
    (hnew : candidates[k]? = some new) : old ≠ new := by
  rintro rfl
  exact h.candidate_not_marked hfit hnew (List.mem_of_getElem? hold)

/-- The machines of the moved slots and their candidates are pairwise different. -/
theorem separateMachines (hfit : PairsFit util markedSorted candidates) :
    SeparateMoves (machineMoves
      (oldConfig.zip (oldConfig.map (reassign util markedSorted candidates)))) := by
  rw [zip_map_self, machineMoves, List.filter_map, List.map_map, SeparateMoves,
    List.pairwise_map]
  refine (List.Pairwise.and_mem.mp ((List.pairwise_map.mp h.machines).filter _)).imp ?_
  rintro p q ⟨hp, hq, hne⟩
  obtain ⟨i, hi, hm⟩ := h.exists_rank_of_moved (of_decide_eq_true (List.mem_filter.mp hp).2)
  obtain ⟨k, hk, hm'⟩ := h.exists_rank_of_moved (of_decide_eq_true (List.mem_filter.mp hq).2)
  refine ⟨⟨hne, h.marked_ne_candidate hfit hi hm'⟩,
    (h.marked_ne_candidate hfit hk hm).symm, fun heq => ?_⟩
  obtain rfl := h.rank_unique hm (hm'.trans (congrArg some heq.symm))
  exact hne (Option.some_inj.mp (hi.symm.trans hk))

theorem reassign_range {p : ExecuteConfigElem} (hp : p ∈ oldConfig) :
    (reassign util markedSorted candidates p).1 < n ∧
      (reassign util markedSorted candidates p).2 < 2 := by
  rcases h.elem_cases p with ⟨_, hstay⟩ | ⟨rank, newMach, _, _, hlt, _, hmove⟩
  · rw [hstay]
    exact h.range p hp
  · rw [hmove]
    exact ⟨hlt, chosenSlot_lt _ _ _ _⟩

theorem sameHostSameSlot (hfit : PairsFit util markedSorted candidates) :
    Vm.SameHostSameSlot
      (oldConfig.zip (oldConfig.map (reassign util markedSorted candidates))) := by
  rw [zip_map_self]
  intro move hmove hhost
  obtain ⟨p, hp, rfl⟩ := List.mem_map.mp hmove
  rcases (h.validPair hfit hp).stays_or_moves with hstay | hmachine
  · exact hstay
  · exact absurd hhost hmachine

/-- Where the candidates are foreign machines, so are the machines of the moved slots,
and no two slots share a machine. -/
theorem machines_nodup (hforeign : ∀ m ∈ candidates, m ∉ oldConfig.map Prod.fst) :
    ((oldConfig.map (reassign util markedSorted candidates)).map Prod.fst).Nodup := by
  rw [List.map_map, List.Nodup, List.pairwise_map]
  refine (List.Pairwise.and_mem.mp (List.pairwise_map.mp h.machines)).imp ?_
  rintro p q ⟨hp, hq, hne⟩
  change (reassign util markedSorted candidates p).1 ≠
    (reassign util markedSorted candidates q).1
  rcases h.elem_cases p with ⟨_, hpstay⟩ | ⟨i, m, hi, hm, _, _, hpmove⟩
  · rcases h.elem_cases q with ⟨_, hqstay⟩ | ⟨k, m', _, hm', _, _, hqmove⟩
    · rw [hpstay, hqstay]
      exact hne
    · rw [hpstay, hqmove]
      rintro rfl
      exact hforeign _ (List.mem_of_getElem? hm') (List.mem_map_of_mem hp)
  · rcases h.elem_cases q with ⟨_, hqstay⟩ | ⟨k, m', hk, hm', _, _, hqmove⟩
    · rw [hpmove, hqstay]
      rintro rfl
      exact hforeign _ (List.mem_of_getElem? hm) (List.mem_map_of_mem hq)
    · rw [hpmove, hqmove]
      rintro rfl
      obtain rfl := h.rank_unique hm hm'
      exact hne (Option.some_inj.mp (hi.symm.trans hk))

theorem validPlacement (hfit : PairsFit util markedSorted candidates)
    (hforeign : ∀ m ∈ candidates, m ∉ oldConfig.map Prod.fst) :
    ValidPlacement n marked oldConfig
      (oldConfig.map (reassign util markedSorted candidates)) := by
  have hmachines := h.machines_nodup hforeign
  have hrange : ∀ p ∈ oldConfig.map (reassign util markedSorted candidates),
      p.1 < n ∧ p.2 < 2 := by
    intro p hp
    obtain ⟨q, hq, rfl⟩ := List.mem_map.mp hp
    exact h.reassign_range hq
  refine ⟨by simp, ?_, ?_, hmachines, hrange, h.sameHostSameSlot hfit, ?_⟩
  · intro i p hp hnot
    have hstay : reassign util markedSorted candidates p = p :=
      reassign_of_not_mem fun hmem => hnot (h.markedSorted_perm.mem_iff.mp hmem)
    rw [List.getElem?_map, hp, Option.map_some, hstay]
  · intro i p q hp hq hmarked
    rw [List.getElem?_map, hp, Option.map_some, Option.some_inj] at hq
    subst hq
    rcases h.elem_cases p with ⟨hnot, _⟩ | ⟨rank, newMach, _, hnew, _, _, hmove⟩
    · exact absurd (h.markedSorted_perm.mem_iff.mpr hmarked) hnot
    · rw [hmove]
      exact hforeign _ (List.mem_of_getElem? hnew)
  · intro c id hc hmov husage hrow
    apply Controller.updateConfig_separate_ok hc hmov hrow (by simp)
      (h.separateMoves hfit (List.Nodup.of_map _ hmachines))
    intro nc hnc
    exact (husage.isSome_iff nc).mpr (hrange nc hnc)

end SwapInput

/-- A swap whose pairs fit is a valid placement exactly when no machine of the job is
among the candidates. -/
theorem validPlacement_iff {S : StdSort Nat} {util : MembwUtil} {n : Nat}
    {oldConfig newConfig : ExecuteConfig} {marked markedSorted candidates : List Nat}
    (h : SwapInput S util n oldConfig marked markedSorted candidates)
    (hgenerate : generateNewConfig S 2 util oldConfig marked candidates = .ok newConfig) :
    ValidPlacement n marked oldConfig newConfig ↔
      ∀ m ∈ candidates, m ∉ oldConfig.map Prod.fst := by
  obtain ⟨hfit, rfl⟩ := h.generateNewConfig_iff.mp hgenerate
  constructor
  · intro hvalid m hm
    -- the marked machine of the candidate's rank sends its slot there
    obtain ⟨rank, hrank⟩ := List.mem_iff_getElem?.mp hm
    have hlt := (List.getElem?_eq_some_iff.mp hrank).1
    rw [← h.markedSorted_length] at hlt
    have hold := List.getElem?_eq_getElem hlt
    obtain ⟨slot, hmem, _⟩ := h.exists_elem hold
    obtain ⟨i, hi⟩ := List.mem_iff_getElem?.mp hmem
    have hmove : reassign util markedSorted candidates (markedSorted[rank], slot) = _ :=
      reassign_of_rank h.markedSorted_nodup hold hrank
    have hmarked := h.markedSorted_perm.mem_iff.mp (List.mem_of_getElem? hold)
    have hnew : (oldConfig.map (reassign util markedSorted candidates))[i]? =
        some (reassign util markedSorted candidates (markedSorted[rank], slot)) := by
      rw [List.getElem?_map, hi, Option.map_some]
    have hout := hvalid.moves i _ _ hi hnew hmarked
    rw [hmove] at hout
    exact hout
  · exact h.validPlacement hfit

theorem validPlacement_lightMachine :
    ValidPlacement 3 [0] [(0, 0), (1, 0)] [(2, 1), (1, 0)] := by
  have hinput : SwapInput StdSort.insertion
      [[3 / 5, 2 / 5], [1 / 10, 1 / 10], [1 / 10, 1 / 20]] 3
      [(0, 0), (1, 0)] [0] [0] [2] :=
    ⟨⟨rfl, by simp⟩, by simp, by simp, by decide +kernel, by decide +kernel,
      by decide +kernel, by simp⟩
  exact (validPlacement_iff hinput (by decide +kernel)).mpr (by simp)

/-- Two full machines; job 1 has the first slot of both. -/
def sharedMachines : Controller where
  machines := ["a", "b"]
  systemConfig := ⟨[⟨[0], []⟩, ⟨[1], []⟩]⟩
  machineUsage := [[some 1, some 0], [some 1, some 2]]
  idToConfig := [[(0, 1)], [(0, 0), (1, 0)], [(1, 1)]]
  idToJob := [⟨1, 1, "", true⟩, ⟨2, 1, "", true⟩, ⟨1, 1, "", true⟩]
  idToTpool := [0, 1, 2]
  threadPool := [⟨"", 0, .executing⟩, ⟨"", 1, .executing⟩, ⟨"", 2, .executing⟩]
  cmdCounter := 3

/-- The only candidate is the other machine of the job itself, and both slots of the
job end at the same place, which `update_config` does not accept. -/
theorem not_validPlacement_ownMachine :
    SwapInput StdSort.insertion [[3 / 5, 2 / 5], [1 / 10, 1 / 10]] 2
        [(0, 0), (1, 0)] [0] [0] [1] ∧
      generateNewConfig StdSort.insertion 2 [[3 / 5, 2 / 5], [1 / 10, 1 / 10]]
        [(0, 0), (1, 0)] [0] [1] = .ok [(1, 0), (1, 0)] ∧
      sharedMachines.updateConfig 1 [(1, 0), (1, 0)] = .error .assertion ∧
      ¬ ValidPlacement 2 [0] [(0, 0), (1, 0)] [(1, 0), (1, 0)] := by
  refine ⟨⟨⟨rfl, by simp⟩, by simp, by simp, by decide +kernel, by decide +kernel,
    by decide +kernel, by simp⟩, by decide +kernel, by decide +kernel, ?_⟩
  intro h
  have := h.machines
  simp at this

end Poncos.MultiApp
