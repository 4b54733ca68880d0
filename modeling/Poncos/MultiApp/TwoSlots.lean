import Mathlib.Tactic.Linarith
import Mathlib.Tactic.NormNum
import Poncos.MultiApp.MachineTotals

/-!
The bandwidth functions on a table with two slots per machine, in closed form.
-/

namespace Poncos.MultiApp

open Poncos.Library
open Poncos.Library.Execution

def nodeUtil (util : MembwUtil) (m : Nat) : ℚ := cellUtil util (m, 0) + cellUtil util (m, 1)

theorem machineUtil_two (util : MembwUtil) (m : Nat) :
    machineUtil 2 util m = nodeUtil util m := by
  simp [machineUtil, nodeUtil, List.range_succ]

def heavierUtil (util : MembwUtil) (m : Nat) : ℚ :=
  max (cellUtil util (m, 0)) (cellUtil util (m, 1))

def otherSlot (s : Nat) : Nat := (s + 1) % 2

theorem otherSlot_lt (s : Nat) : otherSlot s < 2 := Nat.mod_lt _ (by decide)

theorem slot_cases {s : Nat} (hs : s < 2) :
    s = 0 ∧ otherSlot s = 1 ∨ s = 1 ∧ otherSlot s = 0 := by
  unfold otherSlot
  omega

theorem otherSlot_ne (s : Nat) : otherSlot s ≠ s := by
  unfold otherSlot
  omega

theorem cellUtil_add_otherSlot (util : MembwUtil) (m : Nat) {s : Nat} (hs : s < 2) :
    cellUtil util (m, s) + cellUtil util (m, otherSlot s) = nodeUtil util m := by
  rcases slot_cases hs with ⟨rfl, h⟩ | ⟨rfl, h⟩
  · rw [h, nodeUtil]
  · rw [h, nodeUtil, add_comm]

theorem heavierUtil_eq (util : MembwUtil) (m : Nat) {s : Nat} (hs : s < 2) :
    heavierUtil util m =
      max (cellUtil util (m, s)) (cellUtil util (m, otherSlot s)) := by
  rcases slot_cases hs with ⟨rfl, h⟩ | ⟨rfl, h⟩
  · rw [h, heavierUtil]
  · rw [h, heavierUtil, max_comm]

theorem nodeUtil_le_heavierUtil (util : MembwUtil) (m : Nat) :
    nodeUtil util m ≤ 2 * heavierUtil util m := by
  have h0 : cellUtil util (m, 0) ≤ heavierUtil util m := le_max_left _ _
  have h1 : cellUtil util (m, 1) ≤ heavierUtil util m := le_max_right _ _
  unfold nodeUtil
  linarith

section TwoColumns

variable {util : MembwUtil} {n : Nat} (hu : util.Rectangular n 2)

include hu

theorem sumSlots_two {m : Nat} (hm : m < n) :
    sumSlots util m (List.range 2) 0 = .ok (nodeUtil util m) := by
  rw [sumSlots_range hu hm, machineUtil_two]

theorem membwUtilOfNode_two {m : Nat} (hm : m < n) :
    membwUtilOfNode 2 util m = .ok (nodeUtil util m) := by
  rw [membwUtilOfNode_eq hu hm, machineUtil_two]

theorem checkMembw_two {config : ExecuteConfig} (hconfig : ∀ p ∈ config, p.1 < n) :
    checkMembw 2 util config =
      .ok ((config.filter fun p => perMachineTh < nodeUtil util p.1).map Prod.fst) := by
  induction config with
  | nil => rfl
  | cons p rest ih =>
      rw [checkMembw, sumSlots_two hu (hconfig p List.mem_cons_self), bind_of_ok rfl,
        ih fun q hq => hconfig q (List.mem_cons_of_mem p hq), bind_of_ok rfl]
      by_cases hp : perMachineTh < nodeUtil util p.1
      · simp [hp]
      · simp [hp]

theorem sortMachines_two (S : StdSort Nat) {machineIdxs : List Nat} (reverse : Bool)
    (hlen : machineIdxs.length ≤ n) :
    ∃ sorted, sortMachinesByMembwUtil S 2 util machineIdxs reverse = .ok sorted ∧
      sorted.Perm machineIdxs ∧
      sorted.Pairwise fun i j =>
        if reverse then nodeUtil util j ≤ nodeUtil util i
        else nodeUtil util i ≤ nodeUtil util j := by
  simpa only [machineUtil_two] using sortMachines_eq hu S reverse hlen

theorem row_two {m : Nat} (hm : m < n) :
    util[m]? = some [cellUtil util (m, 0), cellUtil util (m, 1)] := by
  refine Grid.row_eq_of_get? (by rw [hu.length_eq]; exact hm) fun s => ?_
  rcases s with _ | _ | s
  · exact get?_eq_cellUtil hu hm Nat.zero_lt_two
  · exact get?_eq_cellUtil hu hm Nat.one_lt_two
  · have hnone : ¬ (util.get? (m, s + 2)).isSome := by
      rw [hu.isSome_iff]
      simp
    simpa using hnone

end TwoColumns

/-- The slot of machine `m` that is exchanged with a slot of utilisation `own`
beside one of utilisation `other`. -/
def chosenSlot (util : MembwUtil) (own other : ℚ) (m : Nat) : Nat :=
  if own < other then
    if cellUtil util (m, 0) < cellUtil util (m, 1) then 1 else 0
  else if cellUtil util (m, 1) < cellUtil util (m, 0) then 1 else 0

theorem chosenSlot_lt (util : MembwUtil) (own other : ℚ) (m : Nat) :
    chosenSlot util own other m < 2 := by
  unfold chosenSlot
  split_ifs <;> decide

/-- Against a lighter partner the heavier slot is taken, otherwise the lighter one. -/
theorem cellUtil_chosenSlot (util : MembwUtil) (own other : ℚ) (m : Nat) :
    if own < other then
      cellUtil util (m, otherSlot (chosenSlot util own other m)) ≤
        cellUtil util (m, chosenSlot util own other m)
    else
      cellUtil util (m, chosenSlot util own other m) ≤
        cellUtil util (m, otherSlot (chosenSlot util own other m)) := by
  unfold chosenSlot
  split_ifs with h₁ h₂ h₃
  · exact h₂.le
  · exact not_lt.mp h₂
  · exact h₃.le
  · exact not_lt.mp h₃

theorem maxElement_two (x y : ℚ) : maxElement [x, y] = if x < y then 1 else 0 := by
  simp [maxElement, firstBest, firstBest.go]

theorem minElement_two (x y : ℚ) : minElement [x, y] = if y < x then 1 else 0 := by
  simp [minElement, firstBest, firstBest.go]

/-- Both assertions of the matching loop hold exactly when the larger shares of
the two machines fit together. -/
theorem exchange_fits_iff (util : MembwUtil) (m m' : Nat) {s : Nat} (hs : s < 2) :
    (cellUtil util (m, otherSlot s) + cellUtil util (m', chosenSlot util
          (cellUtil util (m, s)) (cellUtil util (m, otherSlot s)) m') < perMachineTh ∧
        cellUtil util (m', otherSlot (chosenSlot util
          (cellUtil util (m, s)) (cellUtil util (m, otherSlot s)) m')) +
            cellUtil util (m, s) < perMachineTh) ↔
      heavierUtil util m + heavierUtil util m' < perMachineTh := by
  have hchosen := cellUtil_chosenSlot util (cellUtil util (m, s))
    (cellUtil util (m, otherSlot s)) m'
  rw [heavierUtil_eq util m hs, heavierUtil_eq util m'
    (chosenSlot_lt util (cellUtil util (m, s)) (cellUtil util (m, otherSlot s)) m')]
  by_cases hlt : cellUtil util (m, s) < cellUtil util (m, otherSlot s)
  · rw [if_pos hlt] at hchosen
    rw [max_eq_right hlt.le, max_eq_left hchosen]
    constructor
    · exact fun h => h.1
    · exact fun h => ⟨h, by linarith⟩
  · rw [if_neg hlt] at hchosen
    rw [not_lt] at hlt
    rw [max_eq_left hlt, max_eq_right hchosen]
    constructor
    · intro h
      linarith [h.2]
    · exact fun h => ⟨by linarith, by linarith⟩

section TwoColumns

variable {util : MembwUtil} {n : Nat} (hu : util.Rectangular n 2)

include hu

theorem matchSlot_two {oldConfig : ExecuteConfig} {oldMach oldSlot newMach : Nat}
    (hfind : oldConfig.find? (·.1 = oldMach) = some (oldMach, oldSlot))
    (hold : oldMach < n) (hslot : oldSlot < 2) (hnew : newMach < n)
    {elem : ExecuteConfigElem} :
    matchSlot 2 util oldConfig oldMach newMach = .ok elem ↔
      heavierUtil util oldMach + heavierUtil util newMach < perMachineTh ∧
        elem = (newMach, chosenSlot util (cellUtil util (oldMach, oldSlot))
          (cellUtil util (oldMach, otherSlot oldSlot)) newMach) := by
  rw [← exchange_fits_iff util oldMach newMach hslot]
  have hchosen : (if cellUtil util (oldMach, oldSlot) <
        cellUtil util (oldMach, otherSlot oldSlot) then
      maxElement [cellUtil util (newMach, 0), cellUtil util (newMach, 1)]
      else minElement [cellUtil util (newMach, 0), cellUtil util (newMach, 1)]) =
      chosenSlot util (cellUtil util (oldMach, oldSlot))
        (cellUtil util (oldMach, otherSlot oldSlot)) newMach := by
    rw [maxElement_two, minElement_two, chosenSlot]
  have hown := get?_eq_cellUtil hu hold hslot
  have hother := get?_eq_cellUtil hu hold (otherSlot_lt oldSlot)
  have htaken := fun c (hc : c < 2) => get?_eq_cellUtil hu hnew hc
  simp only [matchSlot, hfind, bind_eq_ok, Grid.read_eq_ok, fetch_eq_ok, ensure_eq_ok,
    row_two hu hnew, Except.ok.injEq, Option.some.injEq, exists_eq_left', exists_and_left,
    exists_const, hown]
  rw [show (oldSlot + 1) % 2 = otherSlot oldSlot from rfl, hother]
  simp only [Option.some.injEq, exists_eq_left', hchosen]
  generalize hc : chosenSlot util (cellUtil util (oldMach, oldSlot))
    (cellUtil util (oldMach, otherSlot oldSlot)) newMach = c
  have hlt : c < 2 := hc ▸ chosenSlot_lt _ _ _ _
  rw [htaken c hlt, show (c + 1) % 2 = otherSlot c from rfl,
    htaken (otherSlot c) (otherSlot_lt c)]
  simp only [Option.some.injEq, exists_eq_left', and_assoc]
  exact and_congr_right fun _ => and_congr_right fun _ => eq_comm

end TwoColumns

end Poncos.MultiApp
