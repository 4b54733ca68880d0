import Mathlib.Algebra.Order.Ring.Rat
import Poncos.Controller.State
import Poncos.Library.StdSort

/-!
The bandwidth bookkeeping of the multi-app scheduler, with exact rationals for
its doubles.  `slots` is `system_config.slots.size()`; every access to the table
and every assertion of the source is a step that can fail.
-/

namespace Poncos.MultiApp

open Poncos.Library
open Poncos.Library.Execution

abbrev MembwUtil := Grid ℚ

def perMachineTh : ℚ := 9 / 10

/-- The sum over the slots of one machine, as the loops accumulate it. -/
def sumSlots (util : MembwUtil) (idx : Nat) : List Nat → ℚ → Exec ℚ
  | [], total => .ok total
  | slot :: rest, total => do
      let x ← util.read (idx, slot)
      sumSlots util idx rest (total + x)

def membwUtilOfNode (slots : Nat) (util : MembwUtil) (idx : Nat) : Exec ℚ := do
  ensure (idx < util.length)
  sumSlots util idx (List.range slots) 0

def sortMachinesByMembwUtil (S : StdSort Nat) (slots : Nat) (util : MembwUtil)
    (machineIdxs : List Nat) (reverse : Bool) : Exec (List Nat) := do
  ensure (machineIdxs.length ≤ util.length)
  let totalMembwUtil ← (List.range util.length).mapM (membwUtilOfNode slots util)
  let total := fun i => totalMembwUtil.getD i 0
  .ok (S.sort (fun i1 i2 =>
    if reverse then decide (total i2 < total i1) else decide (total i1 < total i2))
    machineIdxs)

def checkMembw (slots : Nat) (util : MembwUtil) : ExecuteConfig → Exec (List Nat)
  | [] => .ok []
  | c :: rest => do
      let membw ← sumSlots util c.1 (List.range slots) 0
      let markedMachines ← checkMembw slots util rest
      .ok (if perMachineTh < membw then c.1 :: markedMachines else markedMachines)

/-- The loop of `update_membw_util`. -/
def updateMembwLoop (slots : Nat) :
    List (ExecuteConfigElem × ExecuteConfigElem) → MembwUtil → Exec MembwUtil
  | [], util => .ok util
  | (old, new) :: rest, util => do
      let util ← util.swap old new
      let oldTotal ← membwUtilOfNode slots util old.1
      ensure (oldTotal < perMachineTh)
      let newTotal ← membwUtilOfNode slots util new.1
      ensure (newTotal < perMachineTh)
      updateMembwLoop slots rest util

def updateMembwUtil (slots : Nat) (util : MembwUtil)
    (oldConfig newConfig : ExecuteConfig) : Exec MembwUtil := do
  ensure (oldConfig.length = newConfig.length)
  updateMembwLoop slots (oldConfig.zip newConfig) util

/-- Index of the first element that no later one improves on. -/
def firstBest (improves : ℚ → ℚ → Bool) : List ℚ → Nat
  | [] => 0
  | x :: xs => go x 0 1 xs
where
  go (best : ℚ) (bestIdx idx : Nat) : List ℚ → Nat
    | [] => bestIdx
    | y :: ys =>
        if improves best y then go y idx (idx + 1) ys else go best bestIdx (idx + 1) ys

def maxElement : List ℚ → Nat := firstBest fun best y => decide (best < y)

def minElement : List ℚ → Nat := firstBest fun best y => decide (y < best)

/-- The body of the matching loop of `generate_new_config`: the slot of `newMach`
that is to be exchanged with the job's slot on `oldMach`. -/
def matchSlot (slots : Nat) (util : MembwUtil) (oldConfig : ExecuteConfig)
    (oldMach newMach : Nat) : Exec ExecuteConfigElem := do
  let oldSlot ← match oldConfig.find? (·.1 = oldMach) with
    | none => .error .assertion
    | some elem => .ok elem.2
  let own ← util.read (oldMach, oldSlot)
  let other ← util.read (oldMach, (oldSlot + 1) % slots)
  let row ← fetch util newMach
  let newSlot := if own < other then maxElement row else minElement row
  let taken ← util.read (newMach, newSlot)
  ensure (other + taken < perMachineTh)
  let left ← util.read (newMach, (newSlot + 1) % slots)
  ensure (left + own < perMachineTh)
  .ok (newMach, newSlot)

/-- One pass of the matching loop of `generate_new_config`. -/
def matchRank (slots : Nat) (util : MembwUtil) (oldConfig : ExecuteConfig)
    (markedMachinesSorted swapCandidates : List Nat) (idx : Nat) :
    Exec ExecuteConfigElem := do
  let oldMach ← fetch markedMachinesSorted idx
  let newMach ← fetch swapCandidates idx
  matchSlot slots util oldConfig oldMach newMach

/-- One pass of the loop that puts the matched slots in the order of the old config. -/
def scatterElem (markedMachinesSorted : List Nat) (newConfigSorted : ExecuteConfig)
    (configElem : ExecuteConfigElem) : Exec ExecuteConfigElem :=
  match markedMachinesSorted.findIdx? (· = configElem.1) with
  | some machinePos => fetch newConfigSorted machinePos
  | none => .ok configElem

def generateNewConfig (S : StdSort Nat) (slots : Nat) (util : MembwUtil)
    (oldConfig : ExecuteConfig) (markedMachines swapCandidates : List Nat) :
    Exec ExecuteConfig := do
  if swapCandidates = [] then .ok []
  else do
    ensure (markedMachines.length ≤ swapCandidates.length)
    let markedMachinesSorted ← sortMachinesByMembwUtil S slots util markedMachines true
    let newConfigSorted ← (List.range markedMachines.length).mapM
      (matchRank slots util oldConfig markedMachinesSorted swapCandidates)
    ensure (newConfigSorted.length = markedMachines.length)
    oldConfig.mapM (scatterElem markedMachinesSorted newConfigSorted)

/-- The summation loop of `find_swap_candidates`. -/
def sumCandidates (slots : Nat) (util : MembwUtil)
    (markedMachines swapCandidates : List Nat) : List Nat → ℚ → Exec ℚ
  | [], total => .ok total
  | idx :: rest, total => do
      let marked ← fetch markedMachines idx
      let markedUtil ← membwUtilOfNode slots util marked
      let candidate ← fetch swapCandidates idx
      let candidateUtil ← membwUtilOfNode slots util candidate
      sumCandidates slots util markedMachines swapCandidates rest
        (total + markedUtil + candidateUtil)

def findSwapCandidates (S : StdSort Nat) (slots : Nat) (util : MembwUtil)
    (markedMachines : List Nat) : Exec (List Nat) := do
  let swapCandidates ← sortMachinesByMembwUtil S slots util (List.range util.length) false
  let totalMembwUtil ← sumCandidates slots util markedMachines swapCandidates
    (List.range markedMachines.length) 0
  if totalMembwUtil < perMachineTh * markedMachines.length * 2 then
    .ok (swapCandidates.take markedMachines.length)
  else .ok []

end Poncos.MultiApp
