import Poncos.Messages.Devices

/-!
The tasks of the migration framework: which keys each of them writes, and that it is
loaded from them as it was.
-/

namespace Poncos.Messages

open Poncos.Library.Document

abbrev CpuMap := List (List Nat)

def cpuMap : Codec CpuMap := .vector (.vector (unsigned 32))

/-- What all tasks have. -/
structure Task where
  concurrentExecution : Option Bool
  timeMeasurement : Option Bool
  driver : Option String
  deriving DecidableEq, Repr

namespace Task

def emit (task : Task) : Entries :=
  ((emitOptional bool "concurrent-execution" task.concurrentExecution).merge
    (emitOptional bool "time-measurement" task.timeMeasurement)).merge
    (emitOptional .string "driver" task.driver)

def load (node : Node) : Load Task := do
  let concurrentExecution ← loadOptional bool none node "concurrent-execution"
  let timeMeasurement ← loadOptional bool none node "time-measurement"
  let driver ← loadOptional .string none node "driver"
  .ok ⟨concurrentExecution, timeMeasurement, driver⟩

/-- The keys of the base class, as they stand in a node that may have others too. -/
structure Written (task : Task) (entries : Entries) : Prop where
  concurrentExecution : entries.get? "concurrent-execution" =
    task.concurrentExecution.map bool.encode
  timeMeasurement : entries.get? "time-measurement" = task.timeMeasurement.map bool.encode
  driver : entries.get? "driver" = task.driver.map Codec.string.encode

theorem load_written {task : Task} {entries : Entries} (h : task.Written entries) :
    load entries.node = .ok task := by
  rw [load, load_bind_of (loadOptional_of _ h.concurrentExecution fun _ _ => trivial),
    load_bind_of (loadOptional_of _ h.timeMeasurement fun _ _ => trivial),
    load_bind_of (loadOptional_of _ h.driver fun _ _ => trivial)]

theorem written_emit (task : Task) : task.Written task.emit := by
  constructor <;> simp [emit]

def codec : Codec Task :=
  .record emit load (fun _ => True) (fun task _ => load_written (written_emit task))
    fun _ _ _ => trivial

end Task

structure Start extends Task where
  vmName : Option String
  vcpus : Option Nat
  memory : Option Nat
  memnodeMap : Option CpuMap
  pciIds : List PciId
  xml : Option String
  ivshmem : Option DeviceIvshmem
  transient : Option Bool
  vcpuMap : Option CpuMap
  deriving DecidableEq, Repr

namespace Start

def pciIdsCodec : Codec (List PciId) := .vector PciId.codec

def emit (start : Start) : Entries :=
  let node := start.toTask.emit
  let node := node.merge (emitOptional .string "vm-name" start.vmName)
  let node := node.merge (emitOptional (unsigned 32) "vcpus" start.vcpus)
  let node := node.merge (emitOptional (unsigned 64) "memory" start.memory)
  let node := node.merge (emitOptional cpuMap "memnode-map" start.memnodeMap)
  let node := node.merge (emitOptional .string "xml" start.xml)
  let node := node.merge (emitOptional DeviceIvshmem.codec "ivshmem" start.ivshmem)
  let node := node.merge (emitOptional bool "transient" start.transient)
  let node := if start.pciIds.isEmpty then node
    else node.set "pci-ids" (pciIdsCodec.encode start.pciIds)
  node.merge (emitOptional cpuMap "vcpu-map" start.vcpuMap)

def load (node : Node) : Load Start := do
  let task ← Task.load node
  let vmName ← loadOptional .string none node "vm-name"
  let vcpus ← loadOptional (unsigned 32) none node "vcpus"
  let memory ← loadOptional (unsigned 64) none node "memory"
  let memnodeMap ← loadOptional cpuMap none node "memnode-map"
  let pciIds ← loadFieldOr pciIdsCodec [] node "pci-ids"
  let xml ← loadOptional .string none node "xml"
  let ivshmem ← loadOptional DeviceIvshmem.codec none node "ivshmem"
  let transient ← loadOptional bool none node "transient"
  let vcpuMap ← loadOptional cpuMap none node "vcpu-map"
  .ok { task with vmName, vcpus, memory, memnodeMap, pciIds, xml, ivshmem, transient, vcpuMap }

/-- The numbers are in the range of their types. -/
structure Valid (start : Start) : Prop where
  vcpus : ∀ n ∈ start.vcpus, (unsigned 32).Valid n
  memory : ∀ n ∈ start.memory, (unsigned 64).Valid n
  memnodeMap : ∀ m ∈ start.memnodeMap, cpuMap.Valid m
  pciIds : pciIdsCodec.Valid start.pciIds
  vcpuMap : ∀ m ∈ start.vcpuMap, cpuMap.Valid m

theorem load_emit {start : Start} (h : start.Valid) : load start.emit.node = .ok start := by
  have htask : start.toTask.Written start.emit := by
    constructor <;> simp [emit, Task.emit]
  have hpciIds : loadFieldOr pciIdsCodec [] start.emit.node "pci-ids" = .ok start.pciIds := by
    cases hpci : start.pciIds with
    | nil => exact loadFieldOr_none (by simp [emit, Task.emit, hpci])
    | cons first rest =>
        exact loadFieldOr_of _ (by simp [emit, Task.emit, hpci]) (hpci ▸ h.pciIds)
  rw [load, load_bind_of (Task.load_written htask),
    load_bind_of (loadOptional_of start.vmName (by simp [emit, Task.emit]) fun _ _ => trivial),
    load_bind_of (loadOptional_of start.vcpus (by simp [emit, Task.emit]) h.vcpus),
    load_bind_of (loadOptional_of start.memory (by simp [emit, Task.emit]) h.memory),
    load_bind_of (loadOptional_of start.memnodeMap (by simp [emit, Task.emit]) h.memnodeMap),
    load_bind_of hpciIds,
    load_bind_of (loadOptional_of start.xml (by simp [emit, Task.emit]) fun _ _ => trivial),
    load_bind_of (loadOptional_of start.ivshmem (by simp [emit, Task.emit]) fun _ _ => trivial),
    load_bind_of (loadOptional_of start.transient (by simp [emit, Task.emit]) fun _ _ => trivial),
    load_bind_of (loadOptional_of start.vcpuMap (by simp [emit, Task.emit]) h.vcpuMap)]

theorem valid_of_load {node : Node} {start : Start} (h : load node = .ok start) :
    start.Valid := by
  simp only [load, load_bind_ok] at h
  obtain ⟨_, _, _, _, vcpus, hvcpus, memory, hmemory, memnodeMap, hmemnodeMap, pciIds, hpciIds,
    _, _, _, _, _, _, vcpuMap, hvcpuMap, h⟩ := h
  cases h
  exact ⟨valid_of_loadOptional (by simp) hvcpus, valid_of_loadOptional (by simp) hmemory,
    valid_of_loadOptional (by simp) hmemnodeMap,
    valid_of_loadFieldOr (by simp [pciIdsCodec, Codec.vector]) hpciIds,
    valid_of_loadOptional (by simp) hvcpuMap⟩

def codec : Codec Start :=
  .record emit load Valid (fun _ => load_emit) fun _ _ => valid_of_load

end Start

structure Stop extends Task where
  vmName : Option String
  regex : Option String
  force : Option Bool
  undefine : Option Bool
  deriving DecidableEq, Repr

namespace Stop

def emit (stop : Stop) : Entries :=
  let node := stop.toTask.emit
  let node := node.merge (emitOptional .string "vm-name" stop.vmName)
  let node := node.merge (emitOptional .string "regex" stop.regex)
  let node := node.merge (emitOptional bool "force" stop.force)
  node.merge (emitOptional bool "undefine" stop.undefine)

def load (node : Node) : Load Stop := do
  let task ← Task.load node
  let vmName ← loadOptional .string none node "vm-name"
  let regex ← loadOptional .string none node "regex"
  let force ← loadOptional bool none node "force"
  let undefine ← loadOptional bool none node "undefine"
  .ok { task with vmName, regex, force, undefine }

theorem load_emit (stop : Stop) : load stop.emit.node = .ok stop := by
  have htask : stop.toTask.Written stop.emit := by
    constructor <;> simp [emit, Task.emit]
  rw [load, load_bind_of (Task.load_written htask),
    load_bind_of (loadOptional_of stop.vmName (by simp [emit, Task.emit]) fun _ _ => trivial),
    load_bind_of (loadOptional_of stop.regex (by simp [emit, Task.emit]) fun _ _ => trivial),
    load_bind_of (loadOptional_of stop.force (by simp [emit, Task.emit]) fun _ _ => trivial),
    load_bind_of (loadOptional_of stop.undefine (by simp [emit, Task.emit]) fun _ _ => trivial)]

def codec : Codec Stop :=
  .record emit load (fun _ => True) (fun stop _ => load_emit stop) fun _ _ _ => trivial

end Stop

structure SwapWith where
  vmName : String
  pscomHookProcs : Option String
  vcpuMap : Option CpuMap
  deriving DecidableEq, Repr

namespace SwapWith

def emit (swapWith : SwapWith) : Entries :=
  let node := Entries.set [] "vm-name" (Codec.string.encode swapWith.vmName)
  let node := node.merge (emitOptional .string "pscom-hook-procs" swapWith.pscomHookProcs)
  node.merge (emitOptional cpuMap "vcpu-map" swapWith.vcpuMap)

def load (node : Node) : Load SwapWith := do
  let vmName ← loadField .string node "vm-name"
  let pscomHookProcs ← loadOptional .string none node "pscom-hook-procs"
  let vcpuMap ← loadOptional cpuMap none node "vcpu-map"
  .ok ⟨vmName, pscomHookProcs, vcpuMap⟩

def Valid (swapWith : SwapWith) : Prop := ∀ m ∈ swapWith.vcpuMap, cpuMap.Valid m

theorem load_emit {swapWith : SwapWith} (h : swapWith.Valid) :
    load swapWith.emit.node = .ok swapWith := by
  rw [load, load_bind_of (loadField_of swapWith.vmName (by simp [emit]) trivial),
    load_bind_of (loadOptional_of swapWith.pscomHookProcs (by simp [emit]) fun _ _ => trivial),
    load_bind_of (loadOptional_of swapWith.vcpuMap (by simp [emit]) h)]

theorem valid_of_load {node : Node} {swapWith : SwapWith} (h : load node = .ok swapWith) :
    swapWith.Valid := by
  simp only [load, load_bind_ok] at h
  obtain ⟨_, _, _, _, vcpuMap, hvcpuMap, h⟩ := h
  cases h
  exact valid_of_loadOptional (by simp) hvcpuMap

def codec : Codec SwapWith :=
  .record emit load Valid (fun _ => load_emit) fun _ _ => valid_of_load

end SwapWith

structure Migrate extends Task where
  vmName : String
  destHostname : String
  migrationType : Option String
  rdmaMigration : Option Bool
  pscomHookProcs : Option String
  transport : Option String
  swapWith : Option SwapWith
  vcpuMap : Option CpuMap
  deriving DecidableEq, Repr

namespace Migrate

/-- The node under `parameter`. -/
def params (migrate : Migrate) : Entries :=
  let params := emitOptional .string "migration-type" migrate.migrationType
  let params := params.merge (emitOptional bool "rdma-migration" migrate.rdmaMigration)
  let params := params.merge (emitOptional .string "pscom-hook-procs" migrate.pscomHookProcs)
  let params := params.merge (emitOptional .string "transport" migrate.transport)
  let params := params.merge (emitOptional SwapWith.codec "swap-with" migrate.swapWith)
  params.merge (emitOptional cpuMap "vcpu-map" migrate.vcpuMap)

/-- The entry of the parameters stays undefined while they are empty. -/
def emit (migrate : Migrate) : Entries :=
  let node := migrate.toTask.emit
  let node := node.set "vm-name" (Codec.string.encode migrate.vmName)
  let node := node.set "destination" (Codec.string.encode migrate.destHostname)
  if migrate.params.isEmpty then node else node.set "parameter" migrate.params.node

def load (node : Node) : Load Migrate := do
  let task ← Task.load node
  let vmName ← loadField .string node "vm-name"
  let destHostname ← loadField .string node "destination"
  match ← node.get "parameter" with
  | none =>
      .ok { task with
        vmName, destHostname
        migrationType := none
        rdmaMigration := none
        pscomHookProcs := none
        transport := none
        swapWith := none
        vcpuMap := none }
  | some params =>
      let migrationType ← loadOptional .string none params "migration-type"
      let rdmaMigration ← loadOptional bool none params "rdma-migration"
      let pscomHookProcs ← loadOptional .string none params "pscom-hook-procs"
      let transport ← loadOptional .string none params "transport"
      let swapWith ← loadOptional SwapWith.codec none params "swap-with"
      let vcpuMap ← loadOptional cpuMap none params "vcpu-map"
      .ok { task with
        vmName, destHostname, migrationType, rdmaMigration, pscomHookProcs, transport, swapWith,
        vcpuMap }

structure Valid (migrate : Migrate) : Prop where
  swapWith : ∀ s ∈ migrate.swapWith, SwapWith.codec.Valid s
  vcpuMap : ∀ m ∈ migrate.vcpuMap, cpuMap.Valid m

structure Written (migrate : Migrate) (entries : Entries) : Prop extends
    Task.Written migrate.toTask entries where
  vmName : entries.get? "vm-name" = some (Codec.string.encode migrate.vmName)
  destHostname : entries.get? "destination" = some (Codec.string.encode migrate.destHostname)
  params : entries.get? "parameter" =
    if migrate.params.isEmpty then none else some migrate.params.node

theorem params_isEmpty {migrate : Migrate} (h : migrate.params = []) :
    migrate.migrationType = none ∧ migrate.rdmaMigration = none ∧
      migrate.pscomHookProcs = none ∧ migrate.transport = none ∧
      migrate.swapWith = none ∧ migrate.vcpuMap = none := by
  have hnone : ∀ key, migrate.params.get? key = none := by simp [h]
  refine ⟨?_, ?_, ?_, ?_, ?_, ?_⟩
  · simpa [params] using hnone "migration-type"
  · simpa [params] using hnone "rdma-migration"
  · simpa [params] using hnone "pscom-hook-procs"
  · simpa [params] using hnone "transport"
  · simpa [params] using hnone "swap-with"
  · simpa [params] using hnone "vcpu-map"

theorem load_written {migrate : Migrate} (h : migrate.Valid) {entries : Entries}
    (hwritten : migrate.Written entries) : load entries.node = .ok migrate := by
  rw [load, load_bind_of (Task.load_written hwritten.toWritten),
    load_bind_of (loadField_of _ hwritten.vmName trivial),
    load_bind_of (loadField_of _ hwritten.destHostname trivial), Entries.get_node,
    load_bind_of rfl, hwritten.params]
  cases hparams : migrate.params with
  | nil =>
      obtain ⟨h₁, h₂, h₃, h₄, h₅, h₆⟩ := params_isEmpty hparams
      rcases migrate with ⟨task, vmName, destHostname, _, _, _, _, _, _⟩
      simp only at h₁ h₂ h₃ h₄ h₅ h₆
      subst h₁ h₂ h₃ h₄ h₅ h₆
      rfl
  | cons first rest =>
      rw [List.isEmpty_cons, if_neg (by decide), ← hparams]
      simp only
      rw [load_bind_of (loadOptional_of migrate.migrationType (by simp [params])
          fun _ _ => trivial),
        load_bind_of (loadOptional_of migrate.rdmaMigration (by simp [params])
          fun _ _ => trivial),
        load_bind_of (loadOptional_of migrate.pscomHookProcs (by simp [params])
          fun _ _ => trivial),
        load_bind_of (loadOptional_of migrate.transport (by simp [params])
          fun _ _ => trivial),
        load_bind_of (loadOptional_of migrate.swapWith (by simp [params]) h.swapWith),
        load_bind_of (loadOptional_of migrate.vcpuMap (by simp [params]) h.vcpuMap)]

theorem written_emit (migrate : Migrate) : migrate.Written migrate.emit := by
  constructor
  · constructor <;> simp [emit, Task.emit]
  all_goals simp [emit, Task.emit]

theorem valid_of_load {node : Node} {migrate : Migrate} (h : load node = .ok migrate) :
    migrate.Valid := by
  simp only [load, load_bind_ok] at h
  obtain ⟨_, _, _, _, _, _, params, _, h⟩ := h
  cases params with
  | none =>
      cases h
      exact ⟨by simp, by simp⟩
  | some params =>
      simp only [load_bind_ok] at h
      obtain ⟨_, _, _, _, _, _, _, _, swapWith, hswapWith, vcpuMap, hvcpuMap, h⟩ := h
      cases h
      exact ⟨valid_of_loadOptional (by simp) hswapWith,
        valid_of_loadOptional (by simp) hvcpuMap⟩

theorem task_of_load {node : Node} {migrate : Migrate} (h : load node = .ok migrate) :
    Task.load node = .ok migrate.toTask := by
  simp only [load, load_bind_ok] at h
  obtain ⟨task, htask, _, _, _, _, params, _, h⟩ := h
  cases params with
  | none =>
      cases h
      exact htask
  | some params =>
      simp only [load_bind_ok] at h
      obtain ⟨_, _, _, _, _, _, _, _, _, _, _, _, h⟩ := h
      cases h
      exact htask

def codec : Codec Migrate :=
  .record emit load Valid (fun migrate h => load_written h (written_emit migrate))
    fun _ _ => valid_of_load

end Migrate

structure Repin extends Task where
  vmName : String
  vcpuMap : CpuMap
  deriving DecidableEq, Repr

namespace Repin

def emit (repin : Repin) : Entries :=
  let node := repin.toTask.emit
  let node := node.set "vm-name" (Codec.string.encode repin.vmName)
  node.set "vcpu-map" (cpuMap.encode repin.vcpuMap)

def load (node : Node) : Load Repin := do
  let task ← Task.load node
  let vmName ← loadField .string node "vm-name"
  let vcpuMap ← loadField cpuMap node "vcpu-map"
  .ok { task with vmName, vcpuMap }

def Valid (repin : Repin) : Prop := cpuMap.Valid repin.vcpuMap

structure Written (repin : Repin) (entries : Entries) : Prop extends
    Task.Written repin.toTask entries where
  vmName : entries.get? "vm-name" = some (Codec.string.encode repin.vmName)
  vcpuMap : entries.get? "vcpu-map" = some (cpuMap.encode repin.vcpuMap)

theorem load_written {repin : Repin} (h : repin.Valid) {entries : Entries}
    (hwritten : repin.Written entries) : load entries.node = .ok repin := by
  rw [load, load_bind_of (Task.load_written hwritten.toWritten),
    load_bind_of (loadField_of _ hwritten.vmName trivial),
    load_bind_of (loadField_of _ hwritten.vcpuMap h)]

theorem written_emit (repin : Repin) : repin.Written repin.emit := by
  constructor
  · constructor <;> simp [emit, Task.emit]
  all_goals simp [emit, Task.emit]

theorem valid_of_load {node : Node} {repin : Repin} (h : load node = .ok repin) :
    repin.Valid := by
  simp only [load, load_bind_ok] at h
  obtain ⟨_, _, _, _, vcpuMap, hvcpuMap, h⟩ := h
  cases h
  exact valid_of_loadField hvcpuMap

theorem task_of_load {node : Node} {repin : Repin} (h : load node = .ok repin) :
    Task.load node = .ok repin.toTask := by
  simp only [load, load_bind_ok] at h
  obtain ⟨task, htask, _, _, _, _, h⟩ := h
  cases h
  exact htask

def codec : Codec Repin :=
  .record emit load Valid (fun repin h => load_written h (written_emit repin))
    fun _ _ => valid_of_load

end Repin

/-- What `Suspend` and `Resume` have in common: the name of a domain. -/
structure DomainTask extends Task where
  vmName : String
  deriving DecidableEq, Repr

namespace DomainTask

def emit (task : DomainTask) : Entries :=
  task.toTask.emit.set "vm-name" (Codec.string.encode task.vmName)

def load (node : Node) : Load DomainTask := do
  let task ← Task.load node
  let vmName ← loadField .string node "vm-name"
  .ok { task with vmName }

theorem load_emit (task : DomainTask) : load task.emit.node = .ok task := by
  have htask : task.toTask.Written task.emit := by
    constructor <;> simp [emit, Task.emit]
  rw [load, load_bind_of (Task.load_written htask),
    load_bind_of (loadField_of task.vmName (by simp [emit]) trivial)]

def codec : Codec DomainTask :=
  .record emit load (fun _ => True) (fun task _ => load_emit task) fun _ _ _ => trivial

end DomainTask

abbrev Suspend := DomainTask

abbrev Resume := DomainTask

/-- `Quit` adds nothing. -/
abbrev Quit := Task

end Poncos.Messages
