import Mathlib.Tactic.Ring
import Poncos.MultiApp.TwoSlots

/-!
The slot picked for a swap.  The comparison of the source is the wrong way round: it
brings the heavier shares of both machines together, and so makes the totals of the two
machines as different as it can.
-/

namespace Poncos.MultiApp

open Poncos.Library
open Poncos.Library.Execution

/-- How far the totals of the two machines are apart once the slots were exchanged. -/
def imbalanceAfter (util : MembwUtil) (old new : Cell) : Exec ℚ := do
  let util ← util.swap old new
  let oldTotal ← membwUtilOfNode 2 util old.1
  let newTotal ← membwUtilOfNode 2 util new.1
  .ok |oldTotal - newTotal|

/-- No slot of the machine would leave the two totals closer together. -/
def LeastImbalance (util : MembwUtil) (old new : Cell) : Prop :=
  ∀ slot < 2, ∃ chosen other, imbalanceAfter util old new = .ok chosen ∧
    imbalanceAfter util old (new.1, slot) = .ok other ∧ chosen ≤ other

/-- Both slots of a machine have one utilisation. -/
def EvenSlots (util : MembwUtil) (m : Nat) : Prop :=
  cellUtil util (m, 0) = cellUtil util (m, 1)

theorem evenSlots_iff (util : MembwUtil) (m : Nat) {s : Nat} (hs : s < 2) :
    EvenSlots util m ↔ cellUtil util (m, s) = cellUtil util (m, otherSlot s) := by
  rcases slot_cases hs with ⟨rfl, h⟩ | ⟨rfl, h⟩
  · rw [h, EvenSlots]
  · rw [h, EvenSlots, eq_comm]

theorem abs_add_le_abs_sub_iff {x y : ℚ} (h : 0 ≤ x ∧ 0 ≤ y ∨ x ≤ 0 ∧ y ≤ 0) :
    |x + y| ≤ |x - y| ↔ x = 0 ∨ y = 0 := by
  constructor
  · intro hle
    rcases h with ⟨hx, hy⟩ | ⟨hx, hy⟩
    · rw [abs_of_nonneg (add_nonneg hx hy), le_abs] at hle
      rcases hle with hle | hle
      · exact .inr (by linarith)
      · exact .inl (by linarith)
    · rw [abs_of_nonpos (add_nonpos hx hy), le_abs] at hle
      rcases hle with hle | hle
      · exact .inl (by linarith)
      · exact .inr (by linarith)
  · rintro (rfl | rfl)
    · rw [zero_add, zero_sub, abs_neg]
    · rw [add_zero, sub_zero]

section TwoColumns

variable {util : MembwUtil} {n : Nat} (hu : util.Rectangular n 2)

include hu

theorem imbalanceAfter_two {m m' s s' : Nat} (hm : m < n) (hm' : m' < n) (hne : m ≠ m')
    (hs : s < 2) (hs' : s' < 2) :
    imbalanceAfter util (m, s) (m', s') =
      .ok |(cellUtil util (m, otherSlot s) - cellUtil util (m, s)) +
        (cellUtil util (m', s') - cellUtil util (m', otherSlot s'))| := by
  have hcell := get?_eq_cellUtil hu hm hs
  have hcell' := get?_eq_cellUtil hu hm' hs'
  obtain ⟨after, hswap⟩ := Grid.swap_ok_of_isSome (g := util) (p := (m, s)) (q := (m', s'))
    (by rw [hcell]; rfl) (by rw [hcell']; rfl)
  have hafter : ∀ p, cellUtil after p = cellUtil util (Equiv.swap (m, s) (m', s') p) := by
    intro p
    rw [cellUtil, Grid.get?_swap hswap, cellUtil]
  have hrect := hu.swap hswap
  have hold : nodeUtil after m =
      cellUtil util (m', s') + cellUtil util (m, otherSlot s) := by
    rw [← cellUtil_add_otherSlot after m hs, hafter, hafter, Equiv.swap_apply_left,
      Equiv.swap_apply_of_ne_of_ne]
    · simp [otherSlot_ne]
    · simp [hne]
  have hnew : nodeUtil after m' =
      cellUtil util (m, s) + cellUtil util (m', otherSlot s') := by
    rw [← cellUtil_add_otherSlot after m' hs', hafter, hafter, Equiv.swap_apply_right,
      Equiv.swap_apply_of_ne_of_ne]
    · simp [hne.symm]
    · simp [otherSlot_ne]
  rw [imbalanceAfter, bind_of_ok hswap, bind_of_ok (membwUtilOfNode_two hrect hm),
    bind_of_ok (membwUtilOfNode_two hrect hm'), hold, hnew]
  refine congrArg Except.ok (congrArg abs ?_)
  ring

theorem leastImbalance_two {m m' s s' : Nat} (hm : m < n) (hm' : m' < n) (hne : m ≠ m')
    (hs : s < 2) (hs' : s' < 2) :
    LeastImbalance util (m, s) (m', s') ↔
      |(cellUtil util (m, otherSlot s) - cellUtil util (m, s)) +
          (cellUtil util (m', s') - cellUtil util (m', otherSlot s'))| ≤
        |(cellUtil util (m, otherSlot s) - cellUtil util (m, s)) -
          (cellUtil util (m', s') - cellUtil util (m', otherSlot s'))| := by
  have hchosen := imbalanceAfter_two hu hm hm' hne hs hs'
  have hback : otherSlot (otherSlot s') = s' := by
    unfold otherSlot
    omega
  have hother := imbalanceAfter_two hu hm hm' hne hs (otherSlot_lt s')
  rw [hback, ← neg_sub (cellUtil util (m', s')), ← sub_eq_add_neg] at hother
  constructor
  · intro h
    obtain ⟨chosen, other, heq, heq', hle⟩ := h (otherSlot s') (otherSlot_lt s')
    cases hchosen.symm.trans heq
    cases hother.symm.trans heq'
    exact hle
  · intro hle slot hslot
    rcases eq_or_ne slot s' with rfl | hslot'
    · exact ⟨_, _, hchosen, hchosen, le_rfl⟩
    · obtain rfl : slot = otherSlot s' := by
        unfold otherSlot
        omega
      exact ⟨_, _, hchosen, hother, hle⟩

/-- The slot picked for a pair of machines leaves their totals as close together as
possible exactly if one of the two machines has the same utilisation on both slots. -/
theorem slotChoice_iff {oldConfig : ExecuteConfig} {markedSorted candidates : List Nat}
    {rank oldMach oldSlot newMach : Nat} {elem : ExecuteConfigElem}
    (hold : markedSorted[rank]? = some oldMach) (hnew : candidates[rank]? = some newMach)
    (hfind : oldConfig.find? (·.1 = oldMach) = some (oldMach, oldSlot))
    (hrange : oldMach < n ∧ oldSlot < 2 ∧ newMach < n) (hne : oldMach ≠ newMach)
    (hmatch : matchRank 2 util oldConfig markedSorted candidates rank = .ok elem) :
    LeastImbalance util (oldMach, oldSlot) elem ↔
      EvenSlots util oldMach ∨ EvenSlots util newMach := by
  obtain ⟨hm, hs, hm'⟩ := hrange
  rw [matchRank, bind_of_ok (fetch_eq_ok.mpr hold), bind_of_ok (fetch_eq_ok.mpr hnew),
    matchSlot_two hu hfind hm hs hm'] at hmatch
  obtain ⟨_, rfl⟩ := hmatch
  have hlt := chosenSlot_lt util (cellUtil util (oldMach, oldSlot))
    (cellUtil util (oldMach, otherSlot oldSlot)) newMach
  have hheavier := cellUtil_chosenSlot util (cellUtil util (oldMach, oldSlot))
    (cellUtil util (oldMach, otherSlot oldSlot)) newMach
  generalize chosenSlot util (cellUtil util (oldMach, oldSlot))
    (cellUtil util (oldMach, otherSlot oldSlot)) newMach = slot at hlt hheavier ⊢
  rw [leastImbalance_two hu hm hm' hne hs hlt, abs_add_le_abs_sub_iff, evenSlots_iff util _ hs,
    evenSlots_iff util _ hlt, sub_eq_zero, sub_eq_zero, eq_comm]
  -- both differences have one sign, so that they add up
  split at hheavier
  · rename_i hless
    exact .inl ⟨sub_nonneg.mpr hless.le, sub_nonneg.mpr hheavier⟩
  · rename_i hmore
    exact .inr ⟨sub_nonpos.mpr (not_lt.mp hmore), sub_nonpos.mpr hheavier⟩

end TwoColumns

theorem slotChoice_iff_evenMachine :
    LeastImbalance [[5 / 10, 5 / 10], [1 / 10, 3 / 10]] (0, 0) (1, 0) := by
  have hmatch : matchRank 2 [[5 / 10, 5 / 10], [1 / 10, 3 / 10]] [(0, 0)] [0] [1] 0 =
      .ok (1, 0) := by
    decide +kernel
  exact (slotChoice_iff ⟨rfl, by simp⟩ rfl rfl rfl (by decide) (by decide) hmatch).mpr
    (.inl rfl)

/-- The job is moved beside the heavier slot: the totals are then 5/10 and 8/10, with
the other slot they would be 6/10 and 7/10. -/
theorem not_leastImbalance_unevenMachines :
    generateNewConfig StdSort.insertion 2 [[6 / 10, 4 / 10], [1 / 10, 2 / 10]] [(0, 0)] [0]
        [1] = .ok [(1, 0)] ∧
      ¬ LeastImbalance [[6 / 10, 4 / 10], [1 / 10, 2 / 10]] (0, 0) (1, 0) := by
  refine ⟨by decide +kernel, fun h => ?_⟩
  have hchosen : imbalanceAfter [[6 / 10, 4 / 10], [1 / 10, 2 / 10]] (0, 0) (1, 0) =
      .ok (3 / 10) := by
    decide +kernel
  have hother : imbalanceAfter [[6 / 10, 4 / 10], [1 / 10, 2 / 10]] (0, 0) (1, 1) =
      .ok (1 / 10) := by
    decide +kernel
  obtain ⟨chosen, other, heq, heq', hle⟩ := h 1 (by decide)
  cases hchosen.symm.trans heq
  cases hother.symm.trans heq'
  norm_num at hle

end Poncos.MultiApp
