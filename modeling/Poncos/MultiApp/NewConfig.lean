import Mathlib.Data.List.Nodup
import Poncos.MultiApp.TwoSlots

/-!
`generate_new_config` in closed form: the marked machine of every rank is matched
with the candidate of that rank, and the result is the old config with each slot
on a marked machine replaced.
-/

namespace Poncos.MultiApp

open Poncos.Library
open Poncos.Library.Execution

/-- Where a slot of the job goes, given the marked machines and the candidates by
rank. -/
def reassign (util : MembwUtil) (markedSorted candidates : List Nat)
    (elem : ExecuteConfigElem) : ExecuteConfigElem :=
  match markedSorted.findIdx? (· = elem.1) with
  | some rank =>
      let newMach := candidates.getD rank 0
      (newMach, chosenSlot util (cellUtil util elem)
        (cellUtil util (elem.1, otherSlot elem.2)) newMach)
  | none => elem

/-- The larger shares of the machines of each rank fit together. -/
def PairsFit (util : MembwUtil) (markedSorted candidates : List Nat) : Prop :=
  ∀ rank oldMach newMach : Nat, markedSorted[rank]? = some oldMach →
    candidates[rank]? = some newMach →
      heavierUtil util oldMach + heavierUtil util newMach < perMachineTh

theorem findIdx?_of_getElem? {xs : List Nat} (hxs : xs.Nodup) {i x : Nat}
    (hx : xs[i]? = some x) : xs.findIdx? (· = x) = some i := by
  obtain ⟨hi, hxi⟩ := List.getElem?_eq_some_iff.mp hx
  rw [List.findIdx?_eq_some_iff_getElem]
  refine ⟨hi, by simpa using hxi, fun j hj => ?_⟩
  intro hxj
  have hxj' : xs[j] = xs[i] := by simpa [hxi] using hxj
  have := (List.Nodup.getElem_inj_iff hxs).mp hxj'
  omega

theorem reassign_of_rank {util : MembwUtil} {markedSorted candidates : List Nat}
    (hnodup : markedSorted.Nodup) {rank newMach : Nat} {elem : ExecuteConfigElem}
    (hold : markedSorted[rank]? = some elem.1) (hnew : candidates[rank]? = some newMach) :
    reassign util markedSorted candidates elem =
      (newMach, chosenSlot util (cellUtil util elem)
        (cellUtil util (elem.1, otherSlot elem.2)) newMach) := by
  rw [reassign, findIdx?_of_getElem? hnodup hold]
  simp [hnew]

theorem reassign_of_not_mem {util : MembwUtil} {markedSorted candidates : List Nat}
    {elem : ExecuteConfigElem} (h : elem.1 ∉ markedSorted) :
    reassign util markedSorted candidates elem = elem := by
  have hnone : markedSorted.findIdx? (· = elem.1) = none := by
    rw [List.findIdx?_eq_none_iff]
    intro x hx
    simpa using fun heq : x = elem.1 => h (heq ▸ hx)
  rw [reassign, hnone]

theorem find?_machine {config : ExecuteConfig} (hnodup : (config.map Prod.fst).Nodup)
    {elem : ExecuteConfigElem} (helem : elem ∈ config) :
    config.find? (·.1 = elem.1) = some elem := by
  induction config with
  | nil => simp at helem
  | cons p rest ih =>
      rw [List.map_cons, List.nodup_cons] at hnodup
      rcases List.mem_cons.mp helem with rfl | hrest
      · simp
      · have hne : p.1 ≠ elem.1 := fun h =>
          hnodup.1 (h ▸ List.mem_map_of_mem hrest)
        simpa [hne] using ih hnodup.2 hrest

/-- The arguments `generate_new_config` gets from the scheduler, on a table with
two slots per machine. -/
structure SwapInput (S : StdSort Nat) (util : MembwUtil) (n : Nat)
    (oldConfig : ExecuteConfig) (marked markedSorted candidates : List Nat) : Prop where
  table : util.Rectangular n 2
  machines : (oldConfig.map Prod.fst).Nodup
  range : ∀ p ∈ oldConfig, p.1 < n ∧ p.2 < 2
  marked_eq : checkMembw 2 util oldConfig = .ok marked
  sorted_eq : sortMachinesByMembwUtil S 2 util marked true = .ok markedSorted
  candidates_eq : findSwapCandidates S 2 util marked = .ok candidates
  candidates_ne : candidates ≠ []

namespace SwapInput

variable {S : StdSort Nat} {util : MembwUtil} {n : Nat} {oldConfig : ExecuteConfig}
  {marked markedSorted candidates : List Nat}
  (h : SwapInput S util n oldConfig marked markedSorted candidates)

include h

theorem marked_filter : marked =
    (oldConfig.filter fun p => perMachineTh < nodeUtil util p.1).map Prod.fst := by
  have := h.marked_eq
  rw [checkMembw_two h.table fun p hp => (h.range p hp).1] at this
  exact (Except.ok.inj this).symm

theorem mem_marked {m : Nat} : m ∈ marked ↔
    perMachineTh < nodeUtil util m ∧ ∃ s, (m, s) ∈ oldConfig := by
  rw [h.marked_filter]
  simp only [List.mem_map, List.mem_filter, decide_eq_true_eq, Prod.exists]
  constructor
  · rintro ⟨m, s, ⟨hmem, hlt⟩, rfl⟩
    exact ⟨hlt, s, hmem⟩
  · rintro ⟨hlt, s, hmem⟩
    exact ⟨m, s, ⟨hmem, hlt⟩, rfl⟩

theorem marked_nodup : marked.Nodup := by
  rw [h.marked_filter]
  exact (List.filter_sublist.map Prod.fst).nodup h.machines

theorem marked_lt {m : Nat} (hm : m ∈ marked) : m < n := by
  obtain ⟨_, s, hs⟩ := h.mem_marked.mp hm
  exact (h.range _ hs).1

theorem marked_length_le : marked.length ≤ n := by
  have hsub : marked ⊆ List.range n := fun m hm => List.mem_range.mpr (h.marked_lt hm)
  simpa using (List.subperm_of_subset h.marked_nodup hsub).length_le

theorem markedSorted_perm : markedSorted.Perm marked := by
  obtain ⟨sorted, heq, hperm, _⟩ := sortMachines_two h.table S true
    h.marked_length_le
  obtain rfl : markedSorted = sorted := by
    simpa using h.sorted_eq.symm.trans heq
  exact hperm

theorem markedSorted_nodup : markedSorted.Nodup :=
  h.markedSorted_perm.nodup_iff.mpr h.marked_nodup

theorem mem_markedSorted {m : Nat} : m ∈ markedSorted ↔
    perMachineTh < nodeUtil util m ∧ ∃ s, (m, s) ∈ oldConfig :=
  h.markedSorted_perm.mem_iff.trans h.mem_marked

theorem candidates_sorted : ∃ sorted : List Nat, sorted.Perm (List.range n) ∧
    sorted.Pairwise (fun i j => nodeUtil util i ≤ nodeUtil util j) ∧
    candidates = sorted.take marked.length := by
  have heq := h.candidates_eq
  have hlen : (List.range n).length ≤ n := by simp
  obtain ⟨sorted, hsort, hperm, hpairwise⟩ := sortMachines_two h.table S false hlen
  rw [findSwapCandidates, h.table.length_eq, hsort, bind_of_ok rfl] at heq
  simp only [bind_eq_ok] at heq
  obtain ⟨total, _, heq⟩ := heq
  split at heq
  · exact ⟨sorted, hperm, by simpa using hpairwise, (Except.ok.inj heq).symm⟩
  · exact absurd (Except.ok.inj heq).symm h.candidates_ne

theorem candidates_length : candidates.length = marked.length := by
  obtain ⟨sorted, hperm, _, rfl⟩ := h.candidates_sorted
  have := hperm.length_eq
  have := h.marked_length_le
  simp only [List.length_take, List.length_range] at *
  omega

theorem candidates_nodup : candidates.Nodup := by
  obtain ⟨sorted, hperm, _, rfl⟩ := h.candidates_sorted
  exact (List.take_sublist _ _).nodup (hperm.nodup_iff.mpr List.nodup_range)

theorem candidates_lt {m : Nat} (hm : m ∈ candidates) : m < n := by
  obtain ⟨sorted, hperm, _, rfl⟩ := h.candidates_sorted
  exact List.mem_range.mp (hperm.mem_iff.mp (List.mem_of_mem_take hm))

theorem markedSorted_length : markedSorted.length = candidates.length := by
  rw [h.markedSorted_perm.length_eq, h.candidates_length]

theorem exists_candidate {rank oldMach : Nat} (hold : markedSorted[rank]? = some oldMach) :
    ∃ newMach, candidates[rank]? = some newMach ∧ newMach < n := by
  have hlt := (List.getElem?_eq_some_iff.mp hold).1
  rw [h.markedSorted_length] at hlt
  exact ⟨candidates[rank], List.getElem?_eq_getElem hlt,
    h.candidates_lt (List.getElem_mem hlt)⟩

theorem exists_elem {rank oldMach : Nat} (hold : markedSorted[rank]? = some oldMach) :
    ∃ slot, (oldMach, slot) ∈ oldConfig ∧ perMachineTh < nodeUtil util oldMach := by
  obtain ⟨hlt, slot, hmem⟩ := h.mem_markedSorted.mp (List.mem_of_getElem? hold)
  exact ⟨slot, hmem, hlt⟩

/-- The closed form of `generate_new_config`. -/
theorem generateNewConfig_iff {newConfig : ExecuteConfig} :
    generateNewConfig S 2 util oldConfig marked candidates = .ok newConfig ↔
      PairsFit util markedSorted candidates ∧
        newConfig = oldConfig.map (reassign util markedSorted candidates) := by
  let elemOf := fun rank =>
    (oldConfig.find? (·.1 = markedSorted.getD rank 0)).getD (0, 0)
  let fits := fun rank => heavierUtil util (markedSorted.getD rank 0) +
    heavierUtil util (candidates.getD rank 0) < perMachineTh
  have hlen : marked.length = markedSorted.length := h.markedSorted_perm.length_eq.symm
  have hrank : ∀ elem ∈ oldConfig, ∀ rank, markedSorted[rank]? = some elem.1 →
      elemOf rank = elem := by
    intro elem helem rank hold
    simp [elemOf, hold, find?_machine h.machines helem]
  have hmatch : ∀ rank ∈ List.range marked.length, ∀ elem,
      matchRank 2 util oldConfig markedSorted candidates rank = .ok elem ↔
      fits rank ∧ elem = reassign util markedSorted candidates (elemOf rank) := by
    intro rank hmem elem
    rw [List.mem_range, hlen] at hmem
    have hold := List.getElem?_eq_getElem hmem
    obtain ⟨newMach, hnew, hnewlt⟩ := h.exists_candidate hold
    obtain ⟨slot, hslot, _⟩ := h.exists_elem hold
    rw [matchRank, fetch_eq_ok.mpr hold, bind_of_ok rfl, fetch_eq_ok.mpr hnew,
      bind_of_ok rfl, matchSlot_two h.table (find?_machine h.machines hslot) (h.range _ hslot).1
        (h.range _ hslot).2 hnewlt, hrank _ hslot rank hold,
      reassign_of_rank h.markedSorted_nodup hold hnew]
    simp [fits, hold, hnew]
  have hscatter : oldConfig.mapM (scatterElem markedSorted
        ((List.range marked.length).map fun rank =>
          reassign util markedSorted candidates (elemOf rank))) =
      .ok (oldConfig.map (reassign util markedSorted candidates)) := by
    refine mapM_eq_ok_map fun elem helem => ?_
    rw [scatterElem]
    cases hfind : markedSorted.findIdx? (· = elem.1) with
    | none => simp only [reassign, hfind]
    | some rank =>
        obtain ⟨hlt, heq, _⟩ := List.findIdx?_eq_some_iff_getElem.mp hfind
        have hold : markedSorted[rank]? = some elem.1 := by
          rw [List.getElem?_eq_getElem hlt]
          simpa using heq
        simp [hlen, hlt, hrank elem helem rank hold]
  have hfits : (∀ rank ∈ List.range marked.length, fits rank) ↔
      PairsFit util markedSorted candidates := by
    constructor
    · intro hall rank oldMach newMach hold hnew
      have hlt := (List.getElem?_eq_some_iff.mp hold).1
      simpa [fits, hold, hnew] using hall rank (by simpa [hlen] using hlt)
    · intro hpairs rank hmem
      rw [List.mem_range, hlen] at hmem
      have hold := List.getElem?_eq_getElem hmem
      obtain ⟨newMach, hnew, _⟩ := h.exists_candidate hold
      simpa [fits, hold, hnew] using hpairs rank _ _ hold hnew
  rw [generateNewConfig, if_neg h.candidates_ne,
    ensure_of (by rw [h.candidates_length]), bind_of_ok rfl, h.sorted_eq, bind_of_ok rfl]
  simp only [bind_eq_ok, mapM_eq_ok_iff_map hmatch, hfits, ensure_eq_ok]
  constructor
  · rintro ⟨_, ⟨hpairs, rfl⟩, _, _, hnew⟩
    rw [hscatter] at hnew
    exact ⟨hpairs, (Except.ok.inj hnew).symm⟩
  · rintro ⟨hpairs, rfl⟩
    exact ⟨_, ⟨hpairs, rfl⟩, (), by simp, hscatter⟩

end SwapInput

end Poncos.MultiApp
