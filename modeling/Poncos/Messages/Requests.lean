import Poncos.Messages.Configuration
import Poncos.Messages.Container
import Poncos.Schedulers.Responses

/-!
The requests of the operations as documents.  Each is a container of one task, but for
the request of a measurement, which has a class of its own.
-/

namespace Poncos

open Poncos.Library
open Poncos.Library.Document
open Poncos.Library.Execution
open Poncos.Messages

namespace Messages

/-- `mmbwmon::request`. -/
def emitMeasurement (cores : List Nat) : Entries :=
  (Entries.set [] "task" (Codec.string.encode "mmbwmon request")).set "cores"
    ((Codec.vector (unsigned 64)).encode cores)

def loadMeasurement (node : Node) : Load (List Nat) :=
  loadField (.vector (unsigned 64)) node "cores"

end Messages

/-- The task that the constructors and assignments of the source leave, or the cores to
measure on. -/
def Request.payload : Request → Subtask ⊕ List Nat
  | .task (.suspend domain) => .inl (.suspend ⟨⟨some true, some false, none⟩, domain.name⟩)
  | .task (.resume domain) => .inl (.resume ⟨⟨some true, some false, none⟩, domain.name⟩)
  | .task (.migrate swap) =>
      .inl (.migrate
        { concurrentExecution := some swap.concurrentExecution
          timeMeasurement := some swap.timeMeasurement
          driver := none
          vmName := swap.vmName
          destHostname := swap.destHostname
          migrationType := some swap.migrationType
          rdmaMigration := some swap.rdmaMigration
          pscomHookProcs := some swap.pscomHookProcs
          transport := none
          swapWith := some
            ⟨swap.swapWith.vmName, swap.swapWith.pscomHookProcs, swap.swapWith.vcpuMap⟩
          vcpuMap := swap.vcpuMap })
  | .start cgroup =>
      .inl (.start
        { concurrentExecution := none
          timeMeasurement := none
          driver := none
          vmName := some cgroup.vmName
          vcpus := none
          memory := none
          memnodeMap := some cgroup.memnodeMap
          pciIds := []
          xml := none
          ivshmem := none
          transient := none
          vcpuMap := some cgroup.vcpuMap })
  | .stop vmName => .inl (.stop ⟨⟨none, none, none⟩, some vmName, none, none, none⟩)
  | .measure cores => .inr cores

def Request.emit (request : Request) : Load Entries :=
  match request.payload with
  | .inl subtask => TaskContainer.emit ⟨[subtask], none, none⟩
  | .inr cores => .ok (emitMeasurement cores)

/-- What an agent finds in a document. -/
def Request.ReadFrom (request : Request) (node : Node) : Prop :=
  match request.payload with
  | .inl subtask => ∃ container, TaskContainer.load .empty node = .ok container ∧
      container.tasks = [subtask]
  | .inr cores => loadMeasurement node = .ok cores

/-- The numbers of a request are in the range of their types. -/
def Request.InRange (request : Request) : Prop :=
  match request.payload with
  | .inl subtask => subtask.Valid
  | .inr cores => ∀ core ∈ cores, core < 2 ^ 64

theorem tasks_arrived {subtask : Subtask} (h : subtask.kind ≠ .quit) :
    (TaskContainer.arrived ⟨[subtask], none, none⟩).tasks = [subtask] := by
  cases subtask with
  | quit => exact absurd rfl h
  | _ => simp [TaskContainer.arrived]

theorem payload_kind {request : Request} {subtask : Subtask}
    (h : request.payload = .inl subtask) : subtask.kind ≠ .quit ∧ subtask.kind ≠ .plain := by
  rcases request with (_ | _ | _) | _ | _ | _ <;> cases h <;> simp [Subtask.kind]

theorem Request.arrives {request : Request} (h : request.InRange) :
    ∃ document, request.emit = .ok document ∧ request.ReadFrom document.node := by
  rw [InRange] at h
  rw [emit]
  simp only [ReadFrom]
  cases hpayload : request.payload with
  | inl subtask =>
      rw [hpayload] at h
      obtain ⟨hquit, hplain⟩ := payload_kind hpayload
      obtain ⟨document, hdocument, hload⟩ := @TaskContainer.arrives ⟨[subtask], none, none⟩
        (fun t ht => List.mem_singleton.mp ht ▸ h) (TaskContainer.uniform_singleton hplain)
      exact ⟨document, hdocument, _, hload, tasks_arrived hquit⟩
  | inr cores =>
      rw [hpayload] at h
      exact ⟨_, rfl, loadField_of cores (by simp [emitMeasurement]) h⟩

theorem mem_of_lookup {α : Type} {entries : List (Nat × α)} {key : Nat} {value : α}
    (h : entries.lookup key = some value) : (key, value) ∈ entries := by
  obtain ⟨before, after, rfl, _⟩ := List.lookup_eq_some_iff.mp h
  simp

theorem cpuMap_valid {map : CpuMap} : cpuMap.Valid map ↔ ∀ row ∈ map, ∀ n ∈ row, n < 2 ^ 32 :=
  Iff.rfl

theorem cpuMap_set {map : CpuMap} (hmap : cpuMap.Valid map) {i : Nat} {row : List Nat}
    (hrow : ∀ n ∈ row, n < 2 ^ 32) : cpuMap.Valid (map.set i row) := by
  intro row' hrow'
  rcases List.mem_or_eq_of_mem_set hrow' with hmem | rfl
  · exact hmap row' hmem
  · exact hrow

theorem suspend_inRange (domain : Domain) : (Request.task (.suspend domain)).InRange := trivial

theorem resume_inRange (domain : Domain) : (Request.task (.resume domain)).InRange := trivial

theorem stop_inRange (vmName : String) : (Request.stop vmName).InRange := trivial

theorem start_inRange {task : Start} : (Request.start task).InRange ↔
    cpuMap.Valid task.vcpuMap ∧ cpuMap.Valid task.memnodeMap := by
  constructor
  · intro h
    exact ⟨h.vcpuMap _ rfl, h.memnodeMap _ rfl⟩
  · rintro ⟨hvcpu, hmemnode⟩
    refine ⟨nofun, nofun, ?_, ?_, ?_⟩
    · rintro _ ⟨⟩
      exact hmemnode
    · intro pciId hpciId
      cases hpciId
    · rintro _ ⟨⟩
      exact hvcpu

section InRange

variable {backend : Backend} {c : Controller} {vmLocations : Vm.VmLocations}
  {exchange : Exchange} (hslots : ∀ slot ∈ c.systemConfig.slots, slot.InRange)

theorem suspendResumeConfig_inRange {op : Domain → Poncos.Task} {config : ExecuteConfig}
    {messages : List Message} (hop : ∀ domain, (Request.task (op domain)).InRange)
    (h : c.suspendResumeConfig backend vmLocations op config = .ok messages) :
    ∀ message ∈ messages, (Request.task message.task).InRange := by
  induction config generalizing messages with
  | nil =>
      cases h
      simp
  | cons elem rest ih =>
      simp only [Controller.suspendResumeConfig, bind_eq_ok] at h
      obtain ⟨owner, _, h⟩ := h
      cases owner with
      | none => exact ih h
      | some owner =>
          simp only [bind_eq_ok] at h
          obtain ⟨_, _, domain, _, later, hlater, h⟩ := h
          cases h
          exact List.forall_mem_cons.mpr ⟨hop domain, ih hlater⟩

theorem suspendResumeExchange_inRange {config : Exec ExecuteConfig}
    {sent : Exec (List Message)}
    (hsent : ∀ messages, sent = .ok messages →
      ∀ message ∈ messages, (Request.task message.task).InRange)
    (h : suspendResumeExchange c config sent = .ok exchange) :
    ∀ entry ∈ exchange.requests, entry.2.InRange := by
  simp only [suspendResumeExchange, bind_eq_ok] at h
  obtain ⟨_, _, messages, hmessages, _, _, h⟩ := h
  cases h
  intro entry hentry
  obtain ⟨message, hmessage, rfl⟩ := List.mem_map.mp hentry
  exact hsent messages hmessages message hmessage

theorem exchangeTasks_inRange {α : Type} {machines : List String} {tasks : Cgroup.TaskMap α}
    {request : α → Request} {order : List Nat}
    (htasks : ∀ entry ∈ tasks, (request entry.2).InRange)
    (h : Cgroup.exchangeTasks machines tasks request order = .ok exchange) :
    ∀ entry ∈ exchange.requests, entry.2.InRange := by
  simp only [Cgroup.exchangeTasks, bind_eq_ok] at h
  obtain ⟨_, _, requests, hrequests, _, _, h⟩ := h
  cases h
  intro entry hentry
  obtain ⟨machine, _, hmachine⟩ :=
    exists_of_forall₂ (mapM_eq_ok_iff.mp hrequests).flip hentry
  simp only [bind_eq_ok] at hmachine
  obtain ⟨host, _, task, htask, hentry⟩ := hmachine
  cases hentry
  rw [Cgroup.TaskMap.find] at htask
  split at htask
  · rename_i found hfound
    cases htask
    exact htasks _ (mem_of_lookup hfound)
  · cases htask

include hslots

theorem startTasks_inRange {cgroupName : String} {config : ExecuteConfig}
    {tasks tasks' : Cgroup.TaskMap Start}
    (htasks : ∀ entry ∈ tasks, (Request.start entry.2).InRange)
    (h : Cgroup.startTasks c.systemConfig cgroupName config tasks = .ok tasks') :
    ∀ entry ∈ tasks', (Request.start entry.2).InRange := by
  induction config generalizing tasks with
  | nil =>
      cases h
      exact htasks
  | cons elem rest ih =>
      simp only [Cgroup.startTasks, bind_eq_ok, fetch_eq_ok] at h
      obtain ⟨slot, hslot, h⟩ := h
      obtain ⟨hcpus, hmems⟩ := hslots slot (List.mem_of_getElem? hslot)
      split at h
      · rename_i task htask
        simp only [bind_eq_ok, fetch_eq_ok, store_eq_ok] at h
        obtain ⟨cpus, hcpus₀, vcpuMap, hvcpuMap, mems, hmems₀, memnodeMap, hmemnodeMap, h⟩ := h
        obtain ⟨hvcpu, hmemnode⟩ := start_inRange.mp
          (htasks _ (mem_of_lookup htask))
        refine ih (fun entry hentry => ?_) h
        obtain ⟨old, hold, rfl⟩ := List.mem_map.mp hentry
        split
        · refine start_inRange.mpr ⟨?_, ?_⟩
          · rw [← hvcpuMap.2]
            exact cpuMap_set hvcpu (List.forall_mem_append.mpr
              ⟨hvcpu cpus (List.mem_of_getElem? hcpus₀), hcpus⟩)
          · rw [← hmemnodeMap.2]
            exact cpuMap_set hmemnode (List.forall_mem_append.mpr
              ⟨hmemnode mems (List.mem_of_getElem? hmems₀), hmems⟩)
        · exact htasks old hold
      · refine ih (fun entry hentry => ?_) h
        rcases List.mem_append.mp hentry with hentry | hentry
        · exact htasks entry hentry
        · rw [List.mem_singleton.mp hentry]
          exact start_inRange.mpr ⟨by simpa [cpuMap_valid] using hcpus,
            by simpa [cpuMap_valid] using hmems⟩

theorem generateVcpuMap_inRange {slot : Nat} {vcpuMap : Vm.VcpuMap}
    (h : Vm.generateVcpuMap c.systemConfig slot = .ok vcpuMap) : cpuMap.Valid vcpuMap := by
  simp only [Vm.generateVcpuMap, bind_eq_ok, fetch_eq_ok] at h
  obtain ⟨slot, hslot, _, _, h⟩ := h
  cases h
  intro row hrow x hx
  obtain ⟨cpu, hcpu, rfl⟩ := List.mem_map.mp hrow
  rw [List.mem_singleton.mp hx]
  exact (hslots slot (List.mem_of_getElem? hslot)).1 cpu hcpu

theorem updateExchange_inRange {id : Nat} {newConfig : ExecuteConfig}
    (h : Vm.updateExchange c vmLocations id newConfig = .ok exchange) :
    ∀ entry ∈ exchange.requests, entry.2.InRange := by
  simp only [Vm.updateExchange, bind_eq_ok, Prod.exists] at h
  obtain ⟨oldConfig, _, c', vmLocations', tasks, hupdate, _, _, h⟩ := h
  cases h
  simp only [Vm.updateConfig, bind_eq_ok] at hupdate
  obtain ⟨oldConfig', _, _, _, requests, hrequests, _, _, _, _, hupdate⟩ := hupdate
  cases hupdate
  intro entry hentry
  obtain ⟨task, htask, rfl⟩ := List.mem_map.mp hentry
  obtain ⟨_, hrequest, rfl⟩ := List.mem_filterMap.mp htask
  obtain ⟨move, _, hmove⟩ := exists_of_forall₂ (mapM_eq_ok_iff.mp hrequests).flip hrequest
  rcases eq_or_ne move.1.1 move.2.1 with hhost | hhost
  · cases Vm.requestSwap_same hhost hmove
  obtain ⟨srcHost, migrate, heq, _, _, hrequested⟩ := Vm.requestSwap_requested hhost hmove
  cases heq
  rcases eq_or_ne move.1.2 move.2.2 with hslot | hslot
  · obtain ⟨hvcpuMap, hswap⟩ := hrequested.sameSlot hslot
    exact ⟨by simp [hswap, SwapWith.codec, Codec.record, SwapWith.Valid], by simp [hvcpuMap]⟩
  · obtain ⟨vcpuMap, swapVcpuMap, hvalid, hvcpuMap, hswapValid, hswap⟩ :=
      hrequested.otherSlot hslot
    refine ⟨?_, ?_⟩
    · rintro _ ⟨⟩ m hm
      rw [hswap] at hm
      cases hm
      exact generateVcpuMap_inRange hslots hswapValid
    · intro m hm
      rw [hvcpuMap] at hm
      cases hm
      exact generateVcpuMap_inRange hslots hvalid

theorem runDistgen_inRange {jobId : Nat} (h : runDistgen c jobId = .ok exchange) :
    ∀ entry ∈ exchange.requests, entry.2.InRange := by
  simp only [runDistgen, bind_eq_ok] at h
  obtain ⟨config, _, _, _, requests, hrequests, _, _, h⟩ := h
  cases h
  intro entry hentry
  obtain ⟨elem, _, helem⟩ := exists_of_forall₂ (mapM_eq_ok_iff.mp hrequests).flip hentry
  simp only [bind_eq_ok, fetch_eq_ok] at helem
  obtain ⟨slot, hslot, _, _, hentry⟩ := helem
  cases hentry
  have hcores : ∀ core ∈ slot.cpus, core < 2 ^ 64 := by
    intro core hcore
    have := (hslots slot (List.mem_of_getElem? hslot)).1 core hcore
    omega
  exact hcores

end InRange

/-- All numbers of a request come from the slots of the configuration. -/
theorem requests_inRange {call : Call} {exchange : Exchange}
    (hslots : ∀ slot ∈ call.controller.systemConfig.slots, slot.InRange)
    (h : call.exchange = .ok exchange) : ∀ entry ∈ exchange.requests, entry.2.InRange := by
  rcases call with ⟨operation, backend, c, vmLocations⟩
  cases operation with
  | freeze id =>
      refine suspendResumeExchange_inRange (fun messages hsent => ?_) h
      simp only [Controller.freeze, bind_eq_ok] at hsent
      obtain ⟨_, _, config, _, hsent⟩ := hsent
      exact suspendResumeConfig_inRange suspend_inRange hsent
  | thaw id =>
      refine suspendResumeExchange_inRange (fun messages hsent => ?_) h
      simp only [Controller.thaw, bind_eq_ok] at hsent
      obtain ⟨_, _, config, _, hsent⟩ := hsent
      exact suspendResumeConfig_inRange resume_inRange hsent
  | freezeOpposing id =>
      refine suspendResumeExchange_inRange (fun messages hsent => ?_) h
      simp only [Controller.freezeOpposing, bind_eq_ok] at hsent
      obtain ⟨config, _, hsent⟩ := hsent
      exact suspendResumeConfig_inRange suspend_inRange hsent
  | thawOpposing id =>
      refine suspendResumeExchange_inRange (fun messages hsent => ?_) h
      simp only [Controller.thawOpposing, bind_eq_ok] at hsent
      obtain ⟨config, _, hsent⟩ := hsent
      exact suspendResumeConfig_inRange resume_inRange hsent
  | createDomain id order =>
      cases backend with
      | cgroup =>
          simp only [Call.exchange, Cgroup.createDomain, bind_eq_ok] at h
          obtain ⟨config, _, tasks, htasks, h⟩ := h
          exact exchangeTasks_inRange (startTasks_inRange hslots (by simp) htasks) h
      | vm =>
          cases h
          simp
  | deleteDomain id order =>
      cases backend with
      | cgroup =>
          simp only [Call.exchange, Cgroup.deleteDomain, bind_eq_ok] at h
          obtain ⟨config, _, h⟩ := h
          exact exchangeTasks_inRange (fun _ _ => stop_inRange _) h
      | vm =>
          cases h
          simp
  | updateConfig id newConfig =>
      cases backend with
      | cgroup => cases h
      | vm => exact updateExchange_inRange hslots h
  | runDistgen jobId => exact runDistgen_inRange hslots h

/-- The agents find in the documents what the operations ask for. -/
theorem requests_arrive {call : Call} {exchange : Exchange}
    (hslots : ∀ slot ∈ call.controller.systemConfig.slots, slot.InRange)
    (h : call.exchange = .ok exchange) :
    ∀ entry ∈ exchange.requests, ∃ document, entry.2.emit = .ok document ∧
      entry.2.ReadFrom document.node :=
  fun entry hentry => Request.arrives (requests_inRange hslots h entry hentry)

/-- The second job moves to the other machine and to the other slot. -/
theorem requests_arrive_updateConfig : ∃ exchange,
    Call.exchange ⟨.updateConfig 1 [(1, 0)], .vm, sharedMachines, [["v", "w"], ["x", "y"]]⟩ =
      .ok exchange ∧
    exchange.requests.length = 1 ∧ ∀ entry ∈ exchange.requests,
      ∃ document, entry.2.emit = .ok document ∧ entry.2.ReadFrom document.node := by
  have hrun : (Call.exchange ⟨.updateConfig 1 [(1, 0)], .vm, sharedMachines,
      [["v", "w"], ["x", "y"]]⟩).map (fun exchange => exchange.requests.length) = .ok 1 := by
    decide +kernel
  obtain ⟨exchange, hexchange, hlength⟩ := map_eq_ok.mp hrun
  refine ⟨exchange, hexchange, hlength, requests_arrive (fun slot hslot => ?_) hexchange⟩
  rcases List.mem_pair.mp hslot with rfl | rfl <;> exact ⟨by decide, by decide⟩

end Poncos
