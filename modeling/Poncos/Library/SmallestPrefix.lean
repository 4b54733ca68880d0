import Mathlib.Algebra.BigOperators.Group.Finset.Basic
import Mathlib.Algebra.Order.Group.Defs

/-!
A list sorted by a weight and the lightest choice of a given size: no set of elements
weighs less than the prefix of its size.
-/

namespace Poncos.Library

open scoped BigOperators

variable {α β : Type*} [DecidableEq α] [AddCommMonoid β] {xs : List α}

/-- A prefix is itself a choice of its size. -/
theorem exists_card_eq_sum_take (weight : α → β) (hnodup : xs.Nodup) {k : Nat}
    (hk : k ≤ xs.length) :
    ∃ C : Finset α, (∀ a ∈ C, a ∈ xs) ∧ C.card = k ∧
      ∑ a ∈ C, weight a = ((xs.take k).map weight).sum := by
  have htake : (xs.take k).Nodup := (List.take_sublist k xs).nodup hnodup
  refine ⟨(xs.take k).toFinset, fun a ha => ?_, ?_, ?_⟩
  · exact List.mem_of_mem_take (List.mem_toFinset.mp ha)
  · rw [List.toFinset_card_of_nodup htake, List.length_take, Nat.min_eq_left hk]
  · rw [List.sum_toFinset weight htake]

variable [PartialOrder β] [IsOrderedAddMonoid β] {weight : α → β}

theorem sum_take_le_sum (hsorted : xs.Pairwise fun a b => weight a ≤ weight b)
    {C : Finset α} (hC : ∀ a ∈ C, a ∈ xs) :
    ((xs.take C.card).map weight).sum ≤ ∑ a ∈ C, weight a := by
  induction xs generalizing C with
  | nil =>
      have hempty : C = ∅ := Finset.eq_empty_of_forall_notMem fun a ha => by
        simpa using hC a ha
      simp [hempty]
  | cons x xs ih =>
      rw [List.pairwise_cons] at hsorted
      rcases C.eq_empty_or_nonempty with rfl | ⟨c, hc⟩
      · simp
      -- the head is exchanged for itself, or for any element where it is not chosen
      · obtain ⟨a, ha, hle, hrest⟩ : ∃ a ∈ C, weight x ≤ weight a ∧
            ∀ b ∈ C.erase a, b ∈ xs := by
          rcases Classical.em (x ∈ C) with hx | hx
          · refine ⟨x, hx, le_rfl, fun b hb => ?_⟩
            obtain ⟨hne, hb⟩ := Finset.mem_erase.mp hb
            exact List.mem_of_ne_of_mem hne (hC b hb)
          · have hxs : ∀ b ∈ C, b ∈ xs := fun b hb =>
              List.mem_of_ne_of_mem (fun heq : b = x => hx (heq ▸ hb)) (hC b hb)
            exact ⟨c, hc, hsorted.1 c (hxs c hc), fun b hb =>
              hxs b (Finset.mem_of_mem_erase hb)⟩
        rw [← Finset.card_erase_add_one ha, List.take_succ_cons, List.map_cons,
          List.sum_cons, ← Finset.add_sum_erase C weight ha]
        exact add_le_add hle (ih hsorted.2 hrest)

/-- Some choice of a size stays below a bound exactly if the prefix does. -/
theorem exists_sum_lt_iff (hnodup : xs.Nodup)
    (hsorted : xs.Pairwise fun a b => weight a ≤ weight b) {k : Nat} (hk : k ≤ xs.length)
    {bound : β} :
    (∃ C : Finset α, (∀ a ∈ C, a ∈ xs) ∧ C.card = k ∧ ∑ a ∈ C, weight a < bound) ↔
      ((xs.take k).map weight).sum < bound := by
  constructor
  · rintro ⟨C, hC, rfl, hlt⟩
    exact (sum_take_le_sum hsorted hC).trans_lt hlt
  · intro hlt
    obtain ⟨C, hC, hcard, hsum⟩ := exists_card_eq_sum_take weight hnodup hk
    exact ⟨C, hC, hcard, hsum ▸ hlt⟩

end Poncos.Library
