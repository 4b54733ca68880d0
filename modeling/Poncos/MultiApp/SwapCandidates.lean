import Mathlib.Tactic.Ring
import Poncos.Library.SmallestPrefix
import Poncos.MultiApp.MachineTotals

/-!
The machines offered for a swap.  They are the least loaded ones, and they are offered
exactly where some equally large set of machines could take part of the load.
-/

namespace Poncos.MultiApp

open scoped BigOperators
open Poncos.Library
open Poncos.Library.Execution

/-- As many machines as there are marked ones, which together with these stay below
twice the threshold each. -/
def Resolves (slots : Nat) (util : MembwUtil) (marked : List Nat) (C : Finset Nat) : Prop :=
  (∀ m ∈ C, m < util.length) ∧ C.card = marked.length ∧
    (marked.map (machineUtil slots util)).sum + ∑ m ∈ C, machineUtil slots util m <
      2 * marked.length * perMachineTh

/-- What is promised of the candidates for `marked`. -/
structure Candidates (slots : Nat) (util : MembwUtil) (marked candidates : List Nat) :
    Prop where
  length_eq : candidates.length = marked.length
  nodup : candidates.Nodup
  range : ∀ m ∈ candidates, m < util.length
  ascending : candidates.Pairwise fun i j =>
    machineUtil slots util i ≤ machineUtil slots util j

theorem map_range_getD {α β : Type*} (f : α → β) {xs : List α} {k : Nat} (hk : k ≤ xs.length)
    (d : α) : (List.range k).map (fun i => f (xs.getD i d)) = (xs.take k).map f := by
  apply List.ext_getElem
  · simp [hk]
  · intro i hi hi'
    have hlt : i < xs.length := by
      simp only [List.length_map, List.length_range] at hi
      omega
    simp [hlt]

section Table

variable {util : MembwUtil} {n slots : Nat} (hu : util.Rectangular n slots)

include hu

theorem sumCandidates_eq {marked sorted : List Nat} (hmarked : ∀ m ∈ marked, m < n)
    (hsorted : ∀ m ∈ sorted, m < n) {idxs : List Nat}
    (hidxs : ∀ i ∈ idxs, i < marked.length ∧ i < sorted.length) (total : ℚ) :
    sumCandidates slots util marked sorted idxs total =
      .ok (total + (idxs.map fun i => machineUtil slots util (marked.getD i 0)).sum +
        (idxs.map fun i => machineUtil slots util (sorted.getD i 0)).sum) := by
  induction idxs generalizing total with
  | nil => simp [sumCandidates]
  | cons i rest ih =>
      obtain ⟨hi, hi'⟩ := hidxs i List.mem_cons_self
      have hfetch : fetch marked i = .ok (marked.getD i 0) :=
        fetch_eq_ok.mpr (by simp [hi])
      have hfetch' : fetch sorted i = .ok (sorted.getD i 0) :=
        fetch_eq_ok.mpr (by simp [hi'])
      have hlt : marked.getD i 0 < n := by
        simpa [hi] using hmarked _ (List.getElem_mem hi)
      have hlt' : sorted.getD i 0 < n := by
        simpa [hi'] using hsorted _ (List.getElem_mem hi')
      rw [sumCandidates, bind_of_ok hfetch, bind_of_ok (membwUtilOfNode_eq hu hlt),
        bind_of_ok hfetch', bind_of_ok (membwUtilOfNode_eq hu hlt'),
        ih fun j hj => hidxs j (List.mem_cons_of_mem i hj)]
      simp only [List.map_cons, List.sum_cons]
      refine congrArg Except.ok ?_
      ring

/-- The result is a prefix of the machines sorted by their totals, or empty. -/
theorem findSwapCandidates_eq (S : StdSort Nat) {marked : List Nat}
    (hmarked : ∀ m ∈ marked, m < n) (hlen : marked.length ≤ n) :
    ∃ sorted : List Nat, sorted.Perm (List.range n) ∧
      sorted.Pairwise (fun i j => machineUtil slots util i ≤ machineUtil slots util j) ∧
      findSwapCandidates S slots util marked = .ok
        (if (marked.map (machineUtil slots util)).sum +
            ((sorted.take marked.length).map (machineUtil slots util)).sum <
              2 * marked.length * perMachineTh
          then sorted.take marked.length else []) := by
  have hrange : (List.range n).length ≤ n := by simp
  obtain ⟨sorted, hsort, hperm, hpairwise⟩ := sortMachines_eq hu S false hrange
  have hlength : sorted.length = n := by simpa using hperm.length_eq
  have hlt : ∀ m ∈ sorted, m < n := fun m hm => List.mem_range.mp (hperm.mem_iff.mp hm)
  have hidxs : ∀ i ∈ List.range marked.length, i < marked.length ∧ i < sorted.length := by
    intro i hi
    rw [List.mem_range] at hi
    exact ⟨hi, by omega⟩
  have hsum := sumCandidates_eq hu hmarked hlt hidxs 0
  rw [map_range_getD _ le_rfl, map_range_getD _ (by omega), List.take_length, zero_add]
    at hsum
  refine ⟨sorted, hperm, by simpa using hpairwise, ?_⟩
  rw [findSwapCandidates, hu.length_eq, bind_of_ok hsort, bind_of_ok hsum]
  have hbound : perMachineTh * marked.length * 2 = 2 * marked.length * perMachineTh := by
    ring
  rw [hbound]
  split_ifs <;> rfl

end Table

/-- Candidates are offered exactly where some set of machines would do, and then no set
of that size is less loaded. -/
theorem findSwapCandidates_sound_complete (S : StdSort Nat) {util : MembwUtil} {n slots : Nat}
    (hu : util.Rectangular n slots) {marked : List Nat} (hnodup : marked.Nodup)
    (hne : marked ≠ []) (hrange : ∀ m ∈ marked, m < n) :
    ∃ candidates, findSwapCandidates S slots util marked = .ok candidates ∧
      (Candidates slots util marked candidates ↔ ∃ C, Resolves slots util marked C) ∧
      (¬ (∃ C, Resolves slots util marked C) → candidates = []) ∧
      (candidates ≠ [] → ∀ C : Finset Nat, (∀ m ∈ C, m < n) → C.card = marked.length →
        (candidates.map (machineUtil slots util)).sum ≤
          ∑ m ∈ C, machineUtil slots util m) := by
  have hlen : marked.length ≤ n := by
    have hsubset : marked ⊆ List.range n := fun m hm => List.mem_range.mpr (hrange m hm)
    simpa using (List.subperm_of_subset hnodup hsubset).length_le
  obtain ⟨sorted, hperm, hsorted, heq⟩ := findSwapCandidates_eq hu S hrange hlen
  have hlength : sorted.length = n := by simpa using hperm.length_eq
  have hmem : ∀ m, m ∈ sorted ↔ m < n := fun m => hperm.mem_iff.trans List.mem_range
  have hsortedNodup : sorted.Nodup := hperm.nodup_iff.mpr List.nodup_range
  have hresolves : (∃ C, Resolves slots util marked C) ↔
      (marked.map (machineUtil slots util)).sum +
        ((sorted.take marked.length).map (machineUtil slots util)).sum <
          2 * marked.length * perMachineTh := by
    rw [← lt_sub_iff_add_lt', ← exists_sum_lt_iff hsortedNodup hsorted (by omega)]
    simp only [Resolves, hu.length_eq, hmem, lt_sub_iff_add_lt']
  have hpos : 0 < marked.length := List.length_pos_iff.mpr hne
  refine ⟨_, heq, ?_, ?_, ?_⟩
  · rw [hresolves]
    constructor
    · intro h
      by_contra hnot
      have := h.length_eq
      rw [if_neg hnot, List.length_nil] at this
      omega
    · intro hlt
      rw [if_pos hlt]
      refine ⟨?_, ?_, ?_, ?_⟩
      · rw [List.length_take, hlength, Nat.min_eq_left hlen]
      · exact (List.take_sublist _ _).nodup hsortedNodup
      · intro m hm
        rw [hu.length_eq]
        exact (hmem m).mp (List.mem_of_mem_take hm)
      · exact hsorted.sublist (List.take_sublist _ _)
  · intro hnot
    rw [hresolves] at hnot
    rw [if_neg hnot]
  · intro hcandidates C hC hcard
    split at hcandidates
    · rename_i hlt
      rw [if_pos hlt, ← hcard]
      exact sum_take_le_sum hsorted fun m hm => (hmem m).mpr (hC m hm)
    · exact absurd rfl hcandidates

theorem findSwapCandidates_sound_complete_threeSlots :
    ∃ candidates, findSwapCandidates StdSort.insertion 3
        [[5 / 10, 4 / 10, 1 / 10], [0, 0, 0], [1 / 10, 2 / 10, 1 / 10]] [0] =
          .ok candidates ∧
      ∀ C : Finset Nat, (∀ m ∈ C, m < 3) → C.card = 1 →
        (candidates.map (machineUtil 3
          [[5 / 10, 4 / 10, 1 / 10], [0, 0, 0], [1 / 10, 2 / 10, 1 / 10]])).sum ≤
          ∑ m ∈ C, machineUtil 3
            [[5 / 10, 4 / 10, 1 / 10], [0, 0, 0], [1 / 10, 2 / 10, 1 / 10]] m := by
  have hfound : findSwapCandidates StdSort.insertion 3
      [[5 / 10, 4 / 10, 1 / 10], [0, 0, 0], [1 / 10, 2 / 10, 1 / 10]] [0] = .ok [1] := by
    decide +kernel
  have hu : Grid.Rectangular
      ([[5 / 10, 4 / 10, 1 / 10], [0, 0, 0], [1 / 10, 2 / 10, 1 / 10]] : MembwUtil) 3 3 :=
    ⟨rfl, by simp⟩
  have hrange : ∀ m ∈ [0], m < 3 := by decide
  obtain ⟨candidates, heq, _, _, hminimal⟩ := findSwapCandidates_sound_complete
    StdSort.insertion hu (by decide) (by decide) hrange
  cases hfound.symm.trans heq
  exact ⟨[1], hfound, hminimal (by simp)⟩

end Poncos.MultiApp
