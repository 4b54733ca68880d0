import Mathlib.Algebra.Order.Ring.Rat
import Poncos.Controller.Suspension
import Poncos.Controller.Threads
import Poncos.Library.Transition

/-!
`two_app_sched::schedule` with its controller, under one lock that every thread
holds inside its critical region.  Every job takes one slot of all machines; two
jobs run side by side unless their measured utilisations are too high together.
-/

namespace Poncos.TwoApp

open Poncos.Library
open Poncos.Library.Execution
open Poncos.Library.Transition

/-- What a run leaves open: the controller, and the command line it makes up. -/
structure Settings where
  backend : Backend
  generateCommand : Vm.VmLocations → CommandGenerator

inductive Wait where
  | ressource (job : Job)
  | frozen (job : Job) (id newSlot : Nat)
  | done
  deriving DecidableEq, Repr

/-- Where the scheduler is: everything from `select` to `thaw` lies in its critical
region, and `waitFrozen` is the wait of a job that was frozen. -/
inductive Pc where
  | nextJob
  | waitRessource (job : Job)
  | select (job : Job)
  | freezeOpposing (job : Job) (id newSlot : Nat)
  | runDistgen (job : Job) (id newSlot : Nat)
  | thawOpposing (job : Job) (id newSlot : Nat)
  | estimate (job : Job) (id newSlot : Nat)
  | waitFrozen (job : Job) (id newSlot : Nat)
  | thaw (id newSlot : Nat)
  | done
  | asleep (wait : Wait)
  | finished
  deriving DecidableEq, Repr

structure State where
  controller : Controller
  vmLocations : Vm.VmLocations
  coConfigInUse : List Bool
  coConfigDistgend : List ℚ
  log : List Message
  queue : List Job
  pc : Pc
  deriving DecidableEq, Repr

def State.LockFree (s : State) : Prop := ∃ wait, s.pc = .asleep wait

instance (s : State) : Decidable s.LockFree :=
  match h : s.pc with
  | .asleep wait => isTrue ⟨wait, h⟩
  | .nextJob | .waitRessource _ | .select _ | .freezeOpposing _ _ _ | .runDistgen _ _ _
  | .thawOpposing _ _ _ | .estimate _ _ _ | .waitFrozen _ _ _ | .thaw _ _ | .done
  | .finished => isFalse fun ⟨_, hw⟩ => by simp [h] at hw

inductive Action where
  | schedule (distgenRes : List ℚ)
  | wake
  | processEnd (id : Nat)
  | complete (id : Nat)
  | notifyAll (id : Nat)
  deriving Repr

def start (machines : List String) (systemConfig : SystemConfig)
    (vmLocations : Vm.VmLocations) (queue : List Job) : State where
  controller := Controller.create machines systemConfig
  vmLocations := vmLocations
  coConfigInUse := List.replicate systemConfig.slots.length false
  coConfigDistgend := List.replicate systemConfig.slots.length 0
  log := []
  queue := queue
  pc := .nextJob

/-- The loop that searches a free slot. -/
def searchSlot (coConfigInUse : List Bool) : List Nat → Exec (Option Nat)
  | [] => .ok none
  | s :: rest => do
      let inUse ← fetch coConfigInUse s
      if inUse then searchSlot coConfigInUse rest else .ok (some s)

def fullConfig (machines newSlot : Nat) : ExecuteConfig :=
  (List.range machines).map fun j => (j, newSlot)

/-- The larger answer of all agents. -/
def maxElement : List ℚ → Exec ℚ
  | [] => .error .outOfRange
  | r :: rest => .ok (rest.foldl max r)

def commandDone (config : Nat) (s : State) : Exec State := do
  let inUse ← store s.coConfigInUse config false
  let distgend ← store s.coConfigDistgend config 0
  .ok { s with coConfigInUse := inUse, coConfigDistgend := distgend }

def bothInUse (s : State) : Exec Bool := do
  let first ← fetch s.coConfigInUse 0
  if first then fetch s.coConfigInUse 1 else .ok false

variable (σ : Settings)

/-- The next step of the scheduler thread.  `distgenRes` is what the agents answer. -/
def scheduleStep (distgenRes : List ℚ) (s : State) : Exec State :=
  let c := s.controller
  match s.pc with
  | .nextJob =>
      match s.queue with
      | [] => .ok { s with pc := .done }
      | job :: rest => do
          ensure (job.reqCpus = c.machines.length * c.systemConfig.slotSize)
          .ok { s with queue := rest, pc := .waitRessource job }
  | .waitRessource job => do
      let available ← c.ressourceAvailable job.reqCpus 1
      .ok { s with pc := if available then .select job else .asleep (.ressource job) }
  | .select job => do
      let free ← searchSlot s.coConfigInUse (List.range c.systemConfig.slots.length)
      match free with
      | none => .error .assertion
      | some newSlot => do
          let inUse ← store s.coConfigInUse newSlot true
          let (c', id) ← c.execute (σ.generateCommand s.vmLocations) job
            (fullConfig c.machines.length newSlot)
          .ok { s with
            controller := c'
            coConfigInUse := inUse
            pc := .freezeOpposing job id newSlot }
  | .freezeOpposing job id newSlot => do
      let both ← bothInUse s
      if both then do
        let messages ← Controller.freezeOpposing σ.backend c s.vmLocations id
        .ok { s with log := s.log ++ messages, pc := .runDistgen job id newSlot }
      else .ok { s with pc := .runDistgen job id newSlot }
  | .runDistgen job id newSlot => do
      let opposingConfig ← c.generateOpposingConfig id
      ensure (opposingConfig ≠ [])
      -- one answer arrives for every slot asked
      require (distgenRes.length = opposingConfig.length)
      let result ← maxElement distgenRes
      let distgend ← store s.coConfigDistgend newSlot result
      .ok { s with coConfigDistgend := distgend, pc := .thawOpposing job id newSlot }
  | .thawOpposing job id newSlot => do
      let both ← bothInUse s
      if both then do
        let messages ← Controller.thawOpposing σ.backend c s.vmLocations id
        .ok { s with log := s.log ++ messages, pc := .estimate job id newSlot }
      else .ok { s with pc := .nextJob }
  | .estimate job id newSlot => do
      let first ← fetch s.coConfigDistgend 0
      let second ← fetch s.coConfigDistgend 1
      if (1 - first) + (1 - second) > 9 / 10 then do
        let messages ← Controller.freeze σ.backend c s.vmLocations id
        .ok { s with log := s.log ++ messages, pc := .waitFrozen job id newSlot }
      else .ok { s with pc := .nextJob }
  | .waitFrozen job id newSlot => do
      let available ← c.ressourceAvailable job.reqCpus 1
      .ok { s with
        pc := if available then .thaw id newSlot else .asleep (.frozen job id newSlot) }
  | .thaw id _ => do
      let messages ← Controller.thaw σ.backend c s.vmLocations id
      .ok { s with log := s.log ++ messages, pc := .nextJob }
  | .done => do
      let free ← Controller.allFree c.systemConfig c.machineUsage
      .ok { s with pc := if free then .finished else .asleep .done }
  | .asleep _ => .error .disabled
  | .finished => .error .disabled

def Wait.resume : Wait → Pc
  | .ressource job => .waitRessource job
  | .frozen job id newSlot => .waitFrozen job id newSlot
  | .done => .done

def wakeStep (s : State) : Exec State :=
  match s.pc with
  | .asleep wait => .ok { s with pc := wait.resume }
  | _ => .error .disabled

/-- The locked block of a completion thread; the callback is called with the
counter of the job. -/
def completeStep (id : Nat) (s : State) : Exec State := do
  require (Controller.InPhase s.controller id .ended)
  let c ← s.controller.executeCommandInternal id
  commandDone id { s with controller := c }

def step (s : State) : Action → Exec State
  | .schedule distgenRes => scheduleStep σ distgenRes s
  | .wake => wakeStep s
  | .processEnd id => do
      require (Controller.InPhase s.controller id .executing)
      .ok { s with controller := s.controller.setPhase id .ended }
  | .complete id => do
      require s.LockFree
      completeStep id s
  | .notifyAll id => do
      require (Controller.InPhase s.controller id .notifying)
      .ok { s with controller := s.controller.setPhase id .finished }

def system : System State Action where
  Init s := ∃ machines systemConfig vmLocations queue,
    systemConfig.slots.length = 2 ∧ VmsStarted machines σ.backend vmLocations ∧
      s = start machines systemConfig vmLocations queue
  step := step σ

def plainSettings (backend : Backend) : Settings := ⟨backend, fun _ _ _ _ _ => .ok ""⟩

def twoMachines : Backend → List Job → State
  | .vm => start ["a", "b"] ⟨[⟨[0], []⟩, ⟨[1], []⟩]⟩ [["vm0", "vm1"], ["vm2", "vm3"]]
  | .cgroup => start ["a", "b"] ⟨[⟨[0], []⟩, ⟨[1], []⟩]⟩ []

theorem twoMachines_init (backend : Backend) (queue : List Job) :
    (system (plainSettings backend)).Init (twoMachines backend queue) := by
  cases backend with
  | vm => exact ⟨_, _, _, _, rfl, ⟨⟨rfl, by decide⟩, by decide⟩, rfl⟩
  | cgroup => exact ⟨_, _, _, _, rfl, rfl, rfl⟩

/-- One pass of the scheduler over a job, up to the estimate of the total usage. -/
def placeJob (distgenRes : List ℚ) : List Action :=
  [.schedule [], .schedule [], .schedule [], .schedule [], .schedule distgenRes,
   .schedule []]

end Poncos.TwoApp
