import Poncos.Controller.Suspension
import Poncos.Controller.Threads
import Poncos.Library.Transition
import Poncos.MultiApp.Utilisation

/-!
`multi_app_sched::schedule` with its controller: the scheduler thread, the threads
that run the jobs and the detached waiters, over one lock that every thread holds
while it is inside its critical region.  Completions and waiter checks are then
single steps that are taken while the scheduler sleeps; the scheduler's own
region is a sequence of steps, between which processes may end and finished
threads may notify.  A sleeping thread may wake up at any time.
-/

namespace Poncos.MultiApp

open Poncos.Library
open Poncos.Library.Execution
open Poncos.Library.Transition

/-- What a run leaves open: the unstable sort, the controller, and the command line
the controller makes up. -/
structure Settings where
  sorter : StdSort Nat
  backend : Backend
  generateCommand : Vm.VmLocations → CommandGenerator

inductive Wait where
  | ressource (job : Job)
  | change (id : Nat) (config : ExecuteConfig)
  | done
  deriving DecidableEq, Repr

/-- Where the scheduler is.  Every point from `select` to `updateConfig` lies
inside its critical region. -/
inductive Pc where
  | nextJob
  | waitRessource (job : Job)
  | select (job : Job)
  | freezeOpposing (id : Nat) (config : ExecuteConfig)
  | runDistgen (id : Nat) (config : ExecuteConfig)
  | thawOpposing (id : Nat) (config : ExecuteConfig)
  | overload (id : Nat) (config : ExecuteConfig) (frozen : Bool)
  | updateConfig (id : Nat) (config oldConfig newConfig : ExecuteConfig)
  | done
  | asleep (wait : Wait)
  | finished
  deriving DecidableEq, Repr

/-- A waiter before its first wait, inside `wait_for_change`, or returned. -/
inductive WaiterPhase where
  | started
  | asleep (notified : Bool)
  | finished
  deriving DecidableEq, Repr

structure Waiter where
  id : Nat
  config : ExecuteConfig
  phase : WaiterPhase
  deriving DecidableEq, Repr

structure State where
  controller : Controller
  vmLocations : Vm.VmLocations
  membwUtil : MembwUtil
  log : List Message
  queue : List Job
  pc : Pc
  waiters : List Waiter
  deriving DecidableEq, Repr

/-- The lock is free while the scheduler sleeps. -/
def State.LockFree (s : State) : Prop := ∃ wait, s.pc = .asleep wait

instance (s : State) : Decidable s.LockFree :=
  match h : s.pc with
  | .asleep wait => isTrue ⟨wait, h⟩
  | .nextJob | .waitRessource _ | .select _ | .freezeOpposing _ _ | .runDistgen _ _
  | .thawOpposing _ _ | .overload _ _ _ | .updateConfig _ _ _ _ | .done | .finished =>
      isFalse fun ⟨_, hw⟩ => by simp [h] at hw

inductive Action where
  | schedule (distgenRes : List ℚ)
  | wake
  | processEnd (id : Nat)
  | complete (id : Nat)
  | notifyAll (id : Nat)
  | waiterWait (index : Nat)
  | waiterWake (index : Nat)
  deriving Repr

/-- The state in which `schedule` is entered, the table of utilisations resized. -/
def start (machines : List String) (systemConfig : SystemConfig)
    (vmLocations : Vm.VmLocations) (queue : List Job) : State where
  controller := Controller.create machines systemConfig
  vmLocations := vmLocations
  membwUtil := List.replicate machines.length
    (List.replicate systemConfig.slots.length 0)
  log := []
  queue := queue
  pc := .nextJob
  waiters := []

def firstFree (mu : SlotAllocation) : List Nat → Exec (Option Nat)
  | [] => .ok none
  | s :: rest => do
      let owner ← fetch mu s
      if owner = none then .ok (some s) else firstFree mu rest

/-- The placement loop: one free slot per machine until the job fits. -/
def selectSlots (slots slotSize reqCpus : Nat) :
    Nat → MachineUsage → ExecuteConfig → Exec ExecuteConfig
  | _, [], config => .ok config
  | m, mu :: rest, config => do
      let free ← firstFree mu (List.range slots)
      let config := match free with
        | some s => config ++ [(m, s)]
        | none => config
      if config.length * slotSize = reqCpus then .ok config
      else selectSlots slots slotSize reqCpus (m + 1) rest config

def enterMeasured : List (ExecuteConfigElem × ℚ) → MembwUtil → Exec MembwUtil
  | [], util => .ok util
  | (c, result) :: rest, util => do
      let old ← util.read c
      ensure (old = 0)
      enterMeasured rest (util.put c (1 - result))

def clearUtil : ExecuteConfig → MembwUtil → Exec MembwUtil
  | [], util => .ok util
  | c :: rest, util => do
      let _ ← util.read c
      clearUtil rest (util.put c 0)

def commandDone (id : Nat) (c : Controller) (util : MembwUtil) : Exec MembwUtil := do
  let config ← fetch c.idToConfig id
  clearUtil config util

variable (σ : Settings)

/-- The swap of the overload loop: the old config and the proposed one, which is
empty where no swap is possible. -/
def proposeSwap (id : Nat) (marked : List Nat) (s : State) :
    Exec (ExecuteConfig × ExecuteConfig) :=
  if σ.backend.updateSupported then do
    let slots := s.controller.systemConfig.slots.length
    let swapCandidates ← findSwapCandidates σ.sorter slots s.membwUtil marked
    let oldConfig ← fetch s.controller.idToConfig id
    let newConfig ← generateNewConfig σ.sorter slots s.membwUtil oldConfig marked
      swapCandidates
    .ok (oldConfig, newConfig)
  else .ok ([], [])

/-- The messages of `thaw`, sent only where the job is frozen. -/
def thawIfFrozen (id : Nat) (frozen : Bool) (s : State) : Exec (List Message) :=
  if frozen then Controller.thaw σ.backend s.controller s.vmLocations id else .ok []

/-- One pass of the overload loop, up to the wait or the call of `update_config`. -/
def overloadStep (id : Nat) (config : ExecuteConfig) (frozen : Bool) (s : State) :
    Exec State := do
  let marked ← checkMembw s.controller.systemConfig.slots.length s.membwUtil config
  if marked = [] then do
    let messages ← thawIfFrozen σ id frozen s
    .ok { s with log := s.log ++ messages, pc := .nextJob }
  else do
    let (oldConfig, newConfig) ← proposeSwap σ id marked s
    if newConfig ≠ [] then do
      ensure (newConfig.length = oldConfig.length)
      let messages ← thawIfFrozen σ id frozen s
      .ok { s with
        log := s.log ++ messages
        pc := .updateConfig id config oldConfig newConfig }
    else if frozen then .ok { s with pc := .asleep (.change id config) }
    else do
      let messages ← Controller.freeze σ.backend s.controller s.vmLocations id
      if σ.backend.updateSupported then
        .ok { s with log := s.log ++ messages, pc := .asleep (.change id config) }
      else
        .ok { s with
          log := s.log ++ messages
          waiters := s.waiters ++ [⟨id, config, .started⟩]
          pc := .nextJob }

/-- The next step of the scheduler thread.  `distgenRes` is what the agents answer. -/
def scheduleStep (distgenRes : List ℚ) (s : State) : Exec State :=
  let c := s.controller
  match s.pc with
  | .nextJob =>
      match s.queue with
      | [] => .ok { s with pc := .done }
      | job :: rest => do
          ensure (job.reqCpus ≤ c.machines.length * c.systemConfig.slotSize)
          .ok { s with queue := rest, pc := .waitRessource job }
  | .waitRessource job => do
      let available ← c.ressourceAvailable job.reqCpus 1
      .ok { s with pc := if available then .select job else .asleep (.ressource job) }
  | .select job => do
      let config ← selectSlots c.systemConfig.slots.length c.systemConfig.slotSize
        job.reqCpus 0 c.machineUsage []
      ensure (config.length * c.systemConfig.slotSize = job.reqCpus)
      let (c', id) ← c.execute (σ.generateCommand s.vmLocations) job config
      .ok { s with controller := c', pc := .freezeOpposing id config }
  | .freezeOpposing id config => do
      let messages ← Controller.freezeOpposing σ.backend c s.vmLocations id
      .ok { s with log := s.log ++ messages, pc := .runDistgen id config }
  | .runDistgen id config => do
      let opposingConfig ← c.generateOpposingConfig id
      ensure (opposingConfig ≠ [])
      -- one answer arrives for every slot asked
      require (distgenRes.length = opposingConfig.length)
      ensure (distgenRes.length = config.length)
      let util ← enterMeasured (config.zip distgenRes) s.membwUtil
      .ok { s with membwUtil := util, pc := .thawOpposing id config }
  | .thawOpposing id config => do
      let messages ← Controller.thawOpposing σ.backend c s.vmLocations id
      .ok { s with log := s.log ++ messages, pc := .overload id config false }
  | .overload id config frozen => overloadStep σ id config frozen s
  | .updateConfig id _ oldConfig newConfig => do
      let (c', vmLocations, tasks) ← Vm.updateConfig id newConfig c s.vmLocations
      let util ← updateMembwUtil c.systemConfig.slots.length s.membwUtil oldConfig
        newConfig
      .ok { s with
        controller := c'
        vmLocations := vmLocations
        membwUtil := util
        log := s.log ++ tasks.map fun task => ⟨task.1, .migrate task.2⟩
        pc := .nextJob }
  | .done => do
      let free ← Controller.allFree c.systemConfig c.machineUsage
      .ok { s with pc := if free then .finished else .asleep .done }
  | .asleep _ => .error .disabled
  | .finished => .error .disabled

def Wait.resume : Wait → Pc
  | .ressource job => .waitRessource job
  | .change id config => .overload id config true
  | .done => .done

def wakeStep (s : State) : Exec State :=
  match s.pc with
  | .asleep wait => .ok { s with pc := wait.resume }
  | _ => .error .disabled

/-- The locked block of a completion thread, with the callback. -/
def completeStep (id : Nat) (s : State) : Exec State := do
  require (Controller.InPhase s.controller id .ended)
  let c ← s.controller.executeCommandInternal id
  let util ← commandDone id c s.membwUtil
  .ok { s with controller := c, membwUtil := util }

/-- A notification reaches every waiter that is inside its wait. -/
def Waiter.notify (w : Waiter) : Waiter :=
  match w.phase with
  | .asleep _ => { w with phase := .asleep true }
  | .started | .finished => w

def notifyStep (id : Nat) (s : State) : Exec State := do
  require (Controller.InPhase s.controller id .notifying)
  .ok { s with
    controller := s.controller.setPhase id .finished
    waiters := s.waiters.map Waiter.notify }

def waiterWaitStep (index : Nat) (s : State) : Exec State :=
  match s.waiters[index]? with
  | some ⟨id, config, .started⟩ =>
      .ok { s with waiters := s.waiters.set index ⟨id, config, .asleep false⟩ }
  | _ => .error .disabled

/-- A waiter returns from its wait: it thaws its job and unlocks, or waits again. -/
def waiterWakeStep (index : Nat) (s : State) : Exec State :=
  match s.waiters[index]? with
  | some ⟨id, config, .asleep _⟩ => do
      let marked ← checkMembw s.controller.systemConfig.slots.length s.membwUtil config
      if marked.all fun m => config.all fun c => c.1 ≠ m then do
        let messages ← Controller.thaw σ.backend s.controller s.vmLocations id
        .ok { s with
          log := s.log ++ messages
          waiters := s.waiters.set index ⟨id, config, .finished⟩ }
      else
        .ok { s with waiters := s.waiters.set index ⟨id, config, .asleep false⟩ }
  | _ => .error .disabled

def step (s : State) : Action → Exec State
  | .schedule distgenRes => scheduleStep σ distgenRes s
  | .wake => wakeStep s
  | .processEnd id => do
      require (Controller.InPhase s.controller id .executing)
      .ok { s with controller := s.controller.setPhase id .ended }
  | .complete id => do
      require s.LockFree
      completeStep id s
  | .notifyAll id => notifyStep id s
  | .waiterWait index => do
      require s.LockFree
      waiterWaitStep index s
  | .waiterWake index => do
      require s.LockFree
      waiterWakeStep σ index s

/-- Runs of `schedule` on any number of machines with two slots each. -/
def system : System State Action where
  Init s := ∃ machines systemConfig vmLocations queue,
    systemConfig.slots.length = 2 ∧ VmsStarted machines σ.backend vmLocations ∧
      s = start machines systemConfig vmLocations queue
  step := step σ

def plainSettings (backend : Backend) : Settings :=
  ⟨StdSort.insertion, backend, fun _ _ _ _ _ => .ok ""⟩

/-- Two machines with two slots of one cpu each. -/
def twoMachines : Backend → List Job → State
  | .vm => start ["a", "b"] ⟨[⟨[0], []⟩, ⟨[1], []⟩]⟩ [["vm0", "vm1"], ["vm2", "vm3"]]
  | .cgroup => start ["a", "b"] ⟨[⟨[0], []⟩, ⟨[1], []⟩]⟩ []

theorem twoMachines_init (backend : Backend) (queue : List Job) :
    (system (plainSettings backend)).Init (twoMachines backend queue) := by
  cases backend with
  | vm => exact ⟨_, _, _, _, rfl, ⟨⟨rfl, by decide⟩, by decide⟩, rfl⟩
  | cgroup => exact ⟨_, _, _, _, rfl, rfl, rfl⟩

/-- One pass of the scheduler over a job, up to the check of the overload. -/
def placeJob (distgenRes : List ℚ) : List Action :=
  [.schedule [], .schedule [], .schedule [], .schedule [], .schedule distgenRes,
   .schedule []]

end Poncos.MultiApp
