import Mathlib.Algebra.BigOperators.Group.List.Basic
import Mathlib.Algebra.Field.Rat
import Poncos.MultiApp.Utilisation

/-!
The total utilisation of a machine and the sort by it, on a table with any number of
slots per machine.
-/

namespace Poncos.MultiApp

open Poncos.Library
open Poncos.Library.Execution

def cellUtil (util : MembwUtil) (p : Cell) : ℚ := (util.get? p).getD 0

def machineUtil (slots : Nat) (util : MembwUtil) (m : Nat) : ℚ :=
  ((List.range slots).map fun slot => cellUtil util (m, slot)).sum

variable {util : MembwUtil} {n slots : Nat} (hu : util.Rectangular n slots)

include hu

theorem get?_eq_cellUtil {m s : Nat} (hm : m < n) (hs : s < slots) :
    util.get? (m, s) = some (cellUtil util (m, s)) := by
  have hsome := (hu.isSome_iff (m, s)).mpr ⟨hm, hs⟩
  obtain ⟨x, hx⟩ := Option.isSome_iff_exists.mp hsome
  simp [cellUtil, hx]

theorem sumSlots_eq {m : Nat} (hm : m < n) {xs : List Nat} (hxs : ∀ s ∈ xs, s < slots)
    (total : ℚ) : sumSlots util m xs total =
      .ok (total + (xs.map fun slot => cellUtil util (m, slot)).sum) := by
  induction xs generalizing total with
  | nil => simp [sumSlots]
  | cons s rest ih =>
      have hcell := get?_eq_cellUtil hu hm (hxs s List.mem_cons_self)
      rw [sumSlots, bind_of_ok (Grid.read_eq_ok.mpr hcell),
        ih fun s hs => hxs s (List.mem_cons_of_mem _ hs), List.map_cons, List.sum_cons,
        add_assoc]

theorem sumSlots_range {m : Nat} (hm : m < n) :
    sumSlots util m (List.range slots) 0 = .ok (machineUtil slots util m) := by
  rw [sumSlots_eq hu hm fun s hs => List.mem_range.mp hs, zero_add, machineUtil]

theorem membwUtilOfNode_eq {m : Nat} (hm : m < n) :
    membwUtilOfNode slots util m = .ok (machineUtil slots util m) := by
  rw [membwUtilOfNode, ensure_of (by rw [hu.length_eq]; exact hm), bind_of_ok rfl,
    sumSlots_range hu hm]

theorem machineUtil_of_le {m : Nat} (hm : n ≤ m) : machineUtil slots util m = 0 := by
  have hcell : ∀ slot, cellUtil util (m, slot) = 0 := by
    intro slot
    have hrow : util[m]? = none := List.getElem?_eq_none (by rw [hu.length_eq]; exact hm)
    simp [cellUtil, Grid.get?, hrow]
  simp [machineUtil, hcell]

theorem sortMachines_eq (S : StdSort Nat) {machineIdxs : List Nat} (reverse : Bool)
    (hlen : machineIdxs.length ≤ n) :
    ∃ sorted, sortMachinesByMembwUtil S slots util machineIdxs reverse = .ok sorted ∧
      sorted.Perm machineIdxs ∧
      sorted.Pairwise fun i j =>
        if reverse then machineUtil slots util j ≤ machineUtil slots util i
        else machineUtil slots util i ≤ machineUtil slots util j := by
  have htotal : (List.range util.length).mapM (membwUtilOfNode slots util) =
      .ok ((List.range util.length).map (machineUtil slots util)) :=
    mapM_eq_ok_map fun i hi => membwUtilOfNode_eq hu (by
      rw [← hu.length_eq]
      exact List.mem_range.mp hi)
  have hget : ∀ i, ((List.range util.length).map (machineUtil slots util)).getD i 0 =
      machineUtil slots util i := by
    intro i
    rcases Nat.lt_or_ge i n with hi | hi
    · rw [← hu.length_eq] at hi
      simp [hi]
    · rw [machineUtil_of_le hu hi]
      rw [← hu.length_eq] at hi
      simp [hi]
  refine ⟨_, by
    rw [sortMachinesByMembwUtil, ensure_of (by rw [hu.length_eq]; exact hlen),
      bind_of_ok rfl, htotal, bind_of_ok rfl], S.perm _ _, ?_⟩
  simp only [hget]
  cases reverse with
  | false =>
      simpa using S.sorted _ machineIdxs (strictWeak_lt_key (machineUtil slots util))
  | true =>
      simpa using S.sorted _ machineIdxs (strictWeak_gt_key (machineUtil slots util))

end Poncos.MultiApp
