import Poncos.Controller.Consistency
import Poncos.Library.MoveChain

/-!
`vm_controller::update_config`: a migrate task for every slot that changes its
host, the exchange of the VM names once the migrations succeeded, and the update
of the base controller.  The first two loops read the config as it was before
the call; the third rewrites it while it reads it.  Migrations are taken to
succeed, which the source asserts.
-/

namespace Poncos.Vm

open Poncos.Library
open Poncos.Library.Execution

abbrev VmLocations := Grid String

abbrev VcpuMap := List (List Nat)

structure SwapWith where
  vmName : String
  pscomHookProcs : Option String
  vcpuMap : Option VcpuMap
  deriving DecidableEq, Repr

structure Migrate where
  vmName : String
  destHostname : String
  migrationType : String
  rdmaMigration : Bool
  concurrentExecution : Bool
  pscomHookProcs : String
  timeMeasurement : Bool
  swapWith : SwapWith
  vcpuMap : Option VcpuMap
  deriving DecidableEq, Repr

def generateVcpuMap (systemConfig : SystemConfig) (slotId : Nat) : Exec VcpuMap := do
  let slot ← fetch systemConfig.slots slotId
  let vcpuMap := slot.cpus.map fun cpuId => [cpuId]
  ensure (vcpuMap.length = systemConfig.slotSize)
  .ok vcpuMap

/-- The entry of a per-job table at an index read from the occupancy.  The mark
of a free slot is the largest index, past the end of every table. -/
def fetchJob {α : Type} (table : List α) (owner : Option Nat) : Exec α :=
  match owner with
  | some id => fetch table id
  | none => .error .outOfRange

/-- `pscom_hook_procs` of a job, as a string. -/
def hookProcs (job : Job) (slots : Nat) : String :=
  toString (job.nprocs / slots)

/-- One pass of the first loop: nothing for a slot that stays on its host, else
the task and the host it is sent to. -/
def requestSwap (c : Controller) (vmLocations : VmLocations) (id : Nat)
    (oldConfig : ExecuteConfig) (elem : ExecuteConfigElem × ExecuteConfigElem) :
    Exec (Option (String × Migrate)) :=
  let (src, dest) := elem
  if src.1 = dest.1 then do
    ensure (src.2 = dest.2)
    .ok none
  else do
    let srcHost ← fetch c.machines src.1
    let destHost ← fetch c.machines dest.1
    let srcGuest ← vmLocations.read src
    let destGuest ← vmLocations.read dest
    let srcJob ← fetch c.idToJob id
    let destJobId ← c.machineUsage.read dest
    let destJob ← fetchJob c.idToJob destJobId
    let vcpuMap ← if src.2 = dest.2 then .ok none
      else some <$> generateVcpuMap c.systemConfig dest.2
    let swapVcpuMap ← if src.2 = dest.2 then .ok none
      else some <$> generateVcpuMap c.systemConfig src.2
    let swapProcs ← if destJob.usesSrProtocol then do
        let destConfig ← fetchJob c.idToConfig destJobId
        .ok (some (hookProcs destJob destConfig.length))
      else .ok none
    .ok (some (srcHost,
      { vmName := srcGuest
        destHostname := destHost
        migrationType := "warm"
        rdmaMigration := true
        concurrentExecution := true
        pscomHookProcs :=
          if srcJob.usesSrProtocol then hookProcs srcJob oldConfig.length else "0"
        timeMeasurement := false
        swapWith := ⟨destGuest, swapProcs, swapVcpuMap⟩
        vcpuMap := vcpuMap }))

/-- The second loop: the VMs of every slot that changed its host change places. -/
def swapLocations : List (ExecuteConfigElem × ExecuteConfigElem) → VmLocations →
    Exec VmLocations
  | [], vmLocations => .ok vmLocations
  | (src, dest) :: rest, vmLocations =>
      if src.1 = dest.1 then swapLocations rest vmLocations
      else do
        let vmLocations ← vmLocations.swap src dest
        swapLocations rest vmLocations

/-- `update_config` of the VM controller, with the tasks it sends. -/
def updateConfig (id : Nat) (newConfig : ExecuteConfig) (c : Controller)
    (vmLocations : VmLocations) :
    Exec (Controller × VmLocations × List (String × Migrate)) := do
  let oldConfig ← fetch c.idToConfig id
  ensure (oldConfig.length = newConfig.length)
  let tasks ← (oldConfig.zip newConfig).mapM (requestSwap c vmLocations id oldConfig)
  let vmLocations ← swapLocations (oldConfig.zip newConfig) vmLocations
  let c ← c.updateConfig id newConfig
  .ok (c, vmLocations, tasks.filterMap fun task => task)

def SameHostSameSlot (moves : List (ExecuteConfigElem × ExecuteConfigElem)) : Prop :=
  ∀ p ∈ moves, p.1.1 = p.2.1 → p.1 = p.2

structure UpdateOk (id : Nat) (oldConfig newConfig : ExecuteConfig)
    (c c' : Controller) (vmLocations vmLocations' : VmLocations) : Prop where
  row : c.idToConfig[id]? = some oldConfig
  length_eq : oldConfig.length = newConfig.length
  sameHost : SameHostSameSlot (oldConfig.zip newConfig)
  base : c.updateConfig id newConfig = .ok c'
  locations : ∀ p, vmLocations'.get? p =
    vmLocations.get? (swapSeq (oldConfig.zip newConfig) p)
  located : ∀ p, (vmLocations'.get? p).isSome = (vmLocations.get? p).isSome
  taken : ∀ p ∈ oldConfig.zip newConfig, p.1.1 ≠ p.2.1 →
    ∃ j, c.machineUsage.get? p.2 = some (some j)

theorem fetchJob_eq_ok {α : Type} {table : List α} {owner : Option Nat} {a : α} :
    fetchJob table owner = .ok a ↔ ∃ j, owner = some j ∧ table[j]? = some a := by
  cases owner <;> simp [fetchJob]

theorem sameSlot_of_requestSwap {c : Controller} {vmLocations : VmLocations} {id : Nat}
    {oldConfig : ExecuteConfig} {elem : ExecuteConfigElem × ExecuteConfigElem}
    {task : Option (String × Migrate)}
    (h : requestSwap c vmLocations id oldConfig elem = .ok task) :
    (elem.1.1 = elem.2.1 → elem.1 = elem.2) ∧
      (elem.1.1 ≠ elem.2.1 → ∃ j, c.machineUsage.get? elem.2 = some (some j)) := by
  rcases elem with ⟨src, dest⟩
  simp only [requestSwap] at h
  split at h
  · rename_i hhost
    simp only [bind_eq_ok, ensure_eq_ok] at h
    obtain ⟨_, hslot, _⟩ := h
    exact ⟨fun _ => Prod.ext hhost hslot, fun hne => absurd hhost hne⟩
  · rename_i hhost
    simp only [bind_eq_ok, fetchJob_eq_ok, Grid.read_eq_ok] at h
    obtain ⟨_, _, _, _, _, _, _, _, _, _, owner, howner, _, ⟨j, rfl, _⟩, _⟩ := h
    exact ⟨fun heq => absurd heq hhost, fun _ => ⟨j, howner⟩⟩

section Locations

variable {moves : List (ExecuteConfigElem × ExecuteConfigElem)}
  {vmLocations vmLocations' : VmLocations}

/-- The exchanges that are not skipped. -/
theorem swaps_of_swapLocations (h : swapLocations moves vmLocations = .ok vmLocations') :
    Grid.swaps (moves.filter fun p => p.1.1 ≠ p.2.1) vmLocations = .ok vmLocations' := by
  induction moves generalizing vmLocations with
  | nil => exact h
  | cons elem rest ih =>
      simp only [swapLocations] at h
      split at h
      · rename_i hhost
        rw [List.filter_cons_of_neg (by simpa using hhost)]
        exact ih h
      · rename_i hhost
        simp only [bind_eq_ok] at h
        obtain ⟨vmLocations₁, hswap, h⟩ := h
        rw [List.filter_cons_of_pos (by simpa using hhost), Grid.swaps, bind_of_ok hswap]
        exact ih h

/-- The passes that are skipped may be counted in. -/
theorem swapSeq_filter_hosts (hsame : SameHostSameSlot moves) :
    swapSeq (moves.filter fun p => p.1.1 ≠ p.2.1) = swapSeq moves := by
  induction moves with
  | nil => rfl
  | cons elem rest ih =>
      have hrest := ih fun p hp => hsame p (List.mem_cons_of_mem _ hp)
      rcases Classical.em (elem.1.1 = elem.2.1) with hhost | hhost
      · rw [List.filter_cons_of_neg (by simpa using hhost), hrest,
          swapSeq_cons_self (hsame _ List.mem_cons_self hhost)]
      · rw [List.filter_cons_of_pos (by simpa using hhost), swapSeq_cons, hrest, swapSeq_cons]

theorem get?_swapLocations (hsame : SameHostSameSlot moves)
    (h : swapLocations moves vmLocations = .ok vmLocations') (p : Cell) :
    vmLocations'.get? p = vmLocations.get? (swapSeq moves p) := by
  rw [Grid.get?_swaps (swaps_of_swapLocations h), swapSeq_filter_hosts hsame]

end Locations

theorem updateConfig_ok {id : Nat} {newConfig : ExecuteConfig} {c c' : Controller}
    {vmLocations vmLocations' : VmLocations} {tasks : List (String × Migrate)}
    (h : updateConfig id newConfig c vmLocations = .ok (c', vmLocations', tasks)) :
    ∃ oldConfig, UpdateOk id oldConfig newConfig c c' vmLocations vmLocations' := by
  simp only [updateConfig, bind_eq_ok, fetch_eq_ok, ensure_eq_ok] at h
  obtain ⟨oldConfig, hrow, _, hlen, tasks', htasks, vms, hswap, c₁, hbase, h⟩ := h
  cases h
  have hrequest : ∀ p ∈ oldConfig.zip newConfig, (p.1.1 = p.2.1 → p.1 = p.2) ∧
      (p.1.1 ≠ p.2.1 → ∃ j, c.machineUsage.get? p.2 = some (some j)) := by
    intro p hp
    obtain ⟨task, htask⟩ := exists_of_mapM_eq_ok htasks hp
    exact sameSlot_of_requestSwap htask
  have hsame : SameHostSameSlot (oldConfig.zip newConfig) := fun p hp => (hrequest p hp).1
  exact ⟨oldConfig, hrow, hlen, hsame, hbase, get?_swapLocations hsame hswap,
    Grid.isSome_get?_swaps (swaps_of_swapLocations hswap),
    fun p hp => (hrequest p hp).2⟩

end Poncos.Vm
