import Mathlib.Algebra.Group.Nat.Defs
import Poncos.Library.Grid

/-!
The data of the base controller: the job queue entries, the slot configuration,
the occupancy table and the per-job tables, the threads that run the jobs, and
the operations that start a job and release its slots.

A slot of `machineUsage` is `none` where the source stores
`numeric_limits<size_t>::max()`.  The callback, the domain messages and the
timers touch none of these tables; they are modelled where they are used.
-/

namespace Poncos

open Poncos.Library
open Poncos.Library.Execution

structure Job where
  nprocs : Nat
  threadsPerProc : Nat
  command : String
  usesSrProtocol : Bool
  deriving DecidableEq, Repr

/-- `req_cpus`: the product of two 64-bit values. -/
def Job.reqCpus (job : Job) : Nat := job.nprocs * job.threadsPerProc % 2 ^ 64

structure Slot where
  cpus : List Nat
  mems : List Nat
  deriving DecidableEq, Repr

structure SystemConfig where
  slots : List Slot
  deriving DecidableEq, Repr

def SystemConfig.slotSize (config : SystemConfig) : Nat :=
  match config.slots with
  | [] => 0
  | slot :: _ => slot.cpus.length

abbrev ExecuteConfigElem := Cell

abbrev ExecuteConfig := List ExecuteConfigElem

abbrev SlotAllocation := List (Option Nat)

abbrev MachineUsage := Grid (Option Nat)

/-- How far a thread of the pool has come: inside `system`, waiting for the lock
after the process ended, about to call `notify_all`, or returned. -/
inductive Phase where
  | executing
  | ended
  | notifying
  | finished
  deriving DecidableEq, Repr

structure Worker where
  command : String
  counter : Nat
  phase : Phase
  deriving DecidableEq, Repr

/-- The members of `controllerT` that the modelled operations read or write. -/
structure Controller where
  machines : List String
  systemConfig : SystemConfig
  machineUsage : MachineUsage
  idToConfig : List ExecuteConfig
  idToJob : List Job
  idToTpool : List Nat
  threadPool : List Worker
  cmdCounter : Nat
  deriving DecidableEq, Repr

/-- The virtual `generate_command`. -/
abbrev CommandGenerator := Controller → Job → Nat → ExecuteConfig → Exec String

namespace Controller

/-- The tables as the constructor leaves them: two free slots per machine. -/
def create (machines : List String) (systemConfig : SystemConfig) : Controller where
  machines := machines
  systemConfig := systemConfig
  machineUsage := List.replicate machines.length [none, none]
  idToConfig := []
  idToJob := []
  idToTpool := []
  threadPool := []
  cmdCounter := 0

/-- The loop of `execute` that enters a job into its slots. -/
def occupy (id : Nat) : ExecuteConfig → MachineUsage → Exec MachineUsage
  | [], usage => .ok usage
  | i :: rest, usage => do
      let owner ← usage.read i
      ensure (owner = none)
      occupy id rest (usage.put i (some id))

/-- `execute`; the new thread and the tables get the same counter. -/
def execute (generateCommand : CommandGenerator) (c : Controller) (job : Job)
    (config : ExecuteConfig) : Exec (Controller × Nat) := do
  ensure (config ≠ [])
  let usage ← occupy c.cmdCounter config c.machineUsage
  let c' : Controller :=
    { c with
      idToTpool := c.idToTpool ++ [c.threadPool.length]
      idToConfig := c.idToConfig ++ [config]
      idToJob := c.idToJob ++ [job]
      machineUsage := usage }
  let command ← generateCommand c' job c.cmdCounter config
  .ok ({ c' with
      threadPool := c.threadPool ++ [⟨command, c.cmdCounter, .executing⟩]
      cmdCounter := c.cmdCounter + 1 }, c.cmdCounter)

/-- The loop of `execute_command_internal` that frees the slots of a job. -/
def release : ExecuteConfig → MachineUsage → Exec MachineUsage
  | [], usage => .ok usage
  | i :: rest, usage => do
      let owner ← usage.read i
      ensure (owner ≠ none)
      release rest (usage.put i none)

def setPhase (c : Controller) (counter : Nat) (phase : Phase) : Controller :=
  { c with
    threadPool := c.threadPool.map fun worker =>
      if worker.counter = counter then { worker with phase } else worker }

/-- The locked block of `execute_command_internal`, up to the callback. -/
def executeCommandInternal (c : Controller) (counter : Nat) : Exec Controller := do
  let curConfig ← fetch c.idToConfig counter
  let usage ← release curConfig c.machineUsage
  .ok (setPhase { c with machineUsage := usage } counter .notifying)

def Phase.Active (phase : Phase) : Prop := phase = .executing ∨ phase = .ended

instance (phase : Phase) : Decidable (Phase.Active phase) :=
  inferInstanceAs (Decidable (_ ∨ _))

/-- A job that was executed and has not completed. -/
def Running (c : Controller) (id : Nat) : Prop :=
  ∃ worker ∈ c.threadPool, worker.counter = id ∧ Phase.Active worker.phase

instance (c : Controller) (id : Nat) : Decidable (c.Running id) :=
  inferInstanceAs (Decidable (∃ worker ∈ c.threadPool, _))

def generateOpposingConfig (c : Controller) (id : Nat) : Exec ExecuteConfig := do
  ensure (id < c.idToConfig.length)
  ensure (c.systemConfig.slots.length = 2)
  let config ← fetch c.idToConfig id
  .ok (config.map fun elem => (elem.1, (elem.2 + 1) % c.systemConfig.slots.length))

/-- The inner loop of the predicate of `wait_for_ressource`: free slots of one
machine, counted up to `slotsPerHost`. -/
def allocatedSlots (slotsPerHost : Nat) (usage : SlotAllocation) :
    List Nat → Nat → Exec Nat
  | [], allocated => .ok allocated
  | s :: rest, allocated => do
      let owner ← fetch usage s
      if owner = none then
        if allocated + 1 = slotsPerHost then .ok (allocated + 1)
        else allocatedSlots slotsPerHost usage rest (allocated + 1)
      else allocatedSlots slotsPerHost usage rest allocated

/-- The cpus the predicate of `wait_for_ressource` counts as available. -/
def freeCpus (systemConfig : SystemConfig) (slotsPerHost : Nat) :
    MachineUsage → Nat → Exec Nat
  | [], counter => .ok counter
  | usage :: rest, counter => do
      let allocated ← allocatedSlots slotsPerHost usage
        (List.range systemConfig.slots.length) 0
      if allocated = slotsPerHost then
        freeCpus systemConfig slotsPerHost rest
          (counter + systemConfig.slotSize * slotsPerHost)
      else freeCpus systemConfig slotsPerHost rest counter

/-- The predicate of `wait_for_ressource`. -/
def ressourceAvailable (c : Controller) (requested slotsPerHost : Nat) : Exec Bool := do
  let counter ← freeCpus c.systemConfig slotsPerHost c.machineUsage 0
  .ok (decide (requested ≤ counter))

def rowFree (usage : SlotAllocation) : List Nat → Exec Bool
  | [] => .ok true
  | s :: rest => do
      let owner ← fetch usage s
      if owner = none then rowFree usage rest else .ok false

/-- The predicate of `done`. -/
def allFree (systemConfig : SystemConfig) : MachineUsage → Exec Bool
  | [] => .ok true
  | usage :: rest => do
      let free ← rowFree usage (List.range systemConfig.slots.length)
      if free then allFree systemConfig rest else .ok false

end Controller

end Poncos
