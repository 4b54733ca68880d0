import Poncos.Vm.UpdateConfig

/-!
Suspending and resuming the domains of a config.  No table records which domain
is suspended: the messages sent are the only record, and a domain is suspended
when the last message to it was a suspend task.
-/

namespace Poncos

open Poncos.Library
open Poncos.Library.Execution

/-- The two controllers. -/
inductive Backend where
  | cgroup
  | vm
  deriving DecidableEq, Repr

def Backend.updateSupported : Backend → Bool
  | .cgroup => false
  | .vm => true

theorem Backend.eq_vm_of_updateSupported {backend : Backend}
    (h : backend.updateSupported = true) : backend = .vm := by
  cases backend with
  | vm => rfl
  | cgroup => cases h

/-- The VMs as `init` starts them: one for every slot, taken from a pool in which
no name occurs twice. -/
def VmsStarted (machines : List String) : Backend → Vm.VmLocations → Prop
  | .cgroup, vmLocations => vmLocations = []
  | .vm, vmLocations =>
      vmLocations.Rectangular machines.length 2 ∧ vmLocations.flatten.Nodup

/-- A domain a task is addressed to: the cgroup of a job on one machine, or a VM
wherever it is. -/
inductive Domain where
  | cgroup (machine id : Nat)
  | vm (name : String)
  deriving DecidableEq, Repr

def cmdNameFromId (id : Nat) : String := "poncos_" ++ toString id

def Domain.name : Domain → String
  | .cgroup _ id => cmdNameFromId id
  | .vm name => name

inductive Task where
  | suspend (domain : Domain)
  | resume (domain : Domain)
  | migrate (task : Vm.Migrate)
  deriving DecidableEq, Repr

/-- A task, and the host under whose topic it is sent. -/
structure Message where
  host : String
  task : Task
  deriving DecidableEq, Repr

namespace Controller

variable (backend : Backend) (c : Controller) (vmLocations : Vm.VmLocations)

/-- `domain_name_from_config_elem`, for a slot whose occupancy was read already. -/
def domainNameFromConfigElem (elem : ExecuteConfigElem) (owner : Nat) : Exec Domain :=
  match backend with
  | .cgroup => .ok (.cgroup elem.1 owner)
  | .vm => do
      let name ← vmLocations.read elem
      .ok (.vm name)

/-- `suspend_resume_config`: free slots are skipped.  The replies are taken to be
positive. -/
def suspendResumeConfig (op : Domain → Task) : ExecuteConfig → Exec (List Message)
  | [] => .ok []
  | elem :: rest => do
      let owner ← c.machineUsage.read elem
      match owner with
      | none => suspendResumeConfig op rest
      | some owner =>
          let host ← fetch c.machines elem.1
          let domain ← domainNameFromConfigElem backend vmLocations elem owner
          let messages ← suspendResumeConfig op rest
          .ok (⟨host, op domain⟩ :: messages)

def freeze (id : Nat) : Exec (List Message) := do
  ensure (id < c.idToConfig.length)
  let config ← fetch c.idToConfig id
  suspendResumeConfig backend c vmLocations .suspend config

def thaw (id : Nat) : Exec (List Message) := do
  ensure (id < c.idToConfig.length)
  let config ← fetch c.idToConfig id
  suspendResumeConfig backend c vmLocations .resume config

def freezeOpposing (id : Nat) : Exec (List Message) := do
  let opposingConfig ← c.generateOpposingConfig id
  suspendResumeConfig backend c vmLocations .suspend opposingConfig

def thawOpposing (id : Nat) : Exec (List Message) := do
  let opposingConfig ← c.generateOpposingConfig id
  suspendResumeConfig backend c vmLocations .resume opposingConfig

/-- The domain addressed through an occupied slot. -/
def DomainAt (p : Cell) (d : Domain) : Prop :=
  ∃ owner, c.machineUsage.get? p = some (some owner) ∧
    domainNameFromConfigElem backend vmLocations p owner = .ok d

/-- A domain of a job: the one addressed through a slot the job occupies. -/
def DomainOf (j : Nat) (d : Domain) : Prop :=
  ∃ p, c.machineUsage.get? p = some (some j) ∧
    domainNameFromConfigElem backend vmLocations p j = .ok d

end Controller

/-- What one message does to the status of a domain. -/
def statusAfter (d : Domain) (status : Bool) (message : Message) : Bool :=
  match message.task with
  | .suspend d' => if d' = d then true else status
  | .resume d' => if d' = d then false else status
  | .migrate _ => status

/-- The status of a domain after the messages sent so far. -/
def suspended (log : List Message) (d : Domain) : Bool :=
  log.foldl (statusAfter d) false

/-- Messages of one kind set the status of their domains and leave the others alone. -/
theorem foldl_statusAfter {op : Domain → Task} {value : Bool} {messages : List Message}
    {domains : List Domain} (hop : ∀ message : Message, ∀ d' d status,
      message.task = op d' → statusAfter d status message = if d' = d then value else status)
    (h : messages.map Message.task = domains.map op) (d : Domain) (status : Bool) :
    messages.foldl (statusAfter d) status = if d ∈ domains then value else status := by
  induction messages generalizing domains status with
  | nil =>
      obtain rfl : domains = [] := by simpa using h.symm
      simp
  | cons message messages ih =>
      cases domains with
      | nil => simp at h
      | cons d' domains =>
          simp only [List.map_cons, List.cons.injEq] at h
          rw [List.foldl_cons, ih h.2, hop message d' d status h.1]
          rcases eq_or_ne d' d with rfl | hne
          · simp
          · simp [hne, Ne.symm hne]

theorem foldl_statusAfter_suspend {messages : List Message} {domains : List Domain}
    (h : messages.map Message.task = domains.map Task.suspend) (d : Domain)
    (status : Bool) :
    messages.foldl (statusAfter d) status = (status || decide (d ∈ domains)) := by
  rw [foldl_statusAfter (fun _ _ _ _ htask => by rw [statusAfter, htask]) h]
  rcases Classical.em (d ∈ domains) with hd | hd
  · simp [hd]
  · simp [hd]

theorem foldl_statusAfter_resume {messages : List Message} {domains : List Domain}
    (h : messages.map Message.task = domains.map Task.resume) (d : Domain)
    (status : Bool) :
    messages.foldl (statusAfter d) status = (status && decide (d ∉ domains)) := by
  rw [foldl_statusAfter (fun _ _ _ _ htask => by rw [statusAfter, htask]) h]
  rcases Classical.em (d ∈ domains) with hd | hd
  · simp [hd]
  · simp [hd]

/-- Messages that suspend or resume every domain addressed through the occupied
slots of a config, and no other. -/
structure SendTo (op : Domain → Task) (backend : Backend) (c : Controller)
    (vmLocations : Vm.VmLocations) (config : ExecuteConfig) (domains : List Domain)
    (messages : List Message) : Prop where
  tasks : messages.map Message.task = domains.map op
  mem_iff : ∀ d, d ∈ domains ↔
    ∃ p ∈ config, Controller.DomainAt backend c vmLocations p d

section Effects

variable {backend : Backend} {c : Controller} {vmLocations : Vm.VmLocations}
  {op : Domain → Task} {config : ExecuteConfig} {messages : List Message}
  {domains : List Domain} {log : List Message}

/-- One slot of the config: it is free, or a message to its domain is sent first. -/
theorem suspendResumeConfig_cons {elem : ExecuteConfigElem} {rest : ExecuteConfig}
    (h : Controller.suspendResumeConfig backend c vmLocations op (elem :: rest) =
      .ok messages) :
    c.machineUsage.get? elem = some none ∧
        Controller.suspendResumeConfig backend c vmLocations op rest = .ok messages ∨
      ∃ host domain messages', Controller.DomainAt backend c vmLocations elem domain ∧
        Controller.suspendResumeConfig backend c vmLocations op rest = .ok messages' ∧
        messages = ⟨host, op domain⟩ :: messages' := by
  simp only [Controller.suspendResumeConfig, bind_eq_ok, Grid.read_eq_ok] at h
  obtain ⟨owner, howner, h⟩ := h
  cases owner with
  | none => exact .inl ⟨howner, h⟩
  | some owner =>
      simp only [bind_eq_ok] at h
      obtain ⟨host, _, domain, hdomain, messages', hrest, h⟩ := h
      exact .inr ⟨host, domain, messages', ⟨owner, howner, hdomain⟩, hrest,
        (Except.ok.inj h).symm⟩

theorem suspendResumeConfig_sendTo
    (h : Controller.suspendResumeConfig backend c vmLocations op config = .ok messages) :
    ∃ domains, SendTo op backend c vmLocations config domains messages := by
  induction config generalizing messages with
  | nil =>
      cases h
      exact ⟨[], rfl, by simp⟩
  | cons elem rest ih =>
      rcases suspendResumeConfig_cons h with ⟨hfree, hrest⟩ | ⟨host, domain, _, hat, hrest, rfl⟩
      · obtain ⟨domains, htasks, hmem⟩ := ih hrest
        refine ⟨domains, htasks, fun d => ?_⟩
        rw [hmem]
        simp [Controller.DomainAt, hfree]
      · obtain ⟨domains, htasks, hmem⟩ := ih hrest
        obtain ⟨owner, howner, hdomain⟩ := hat
        refine ⟨domain :: domains, by simp [htasks], fun d => ?_⟩
        rw [List.mem_cons, hmem]
        simp [Controller.DomainAt, howner, hdomain, eq_comm]

/-- The slots of a config whose messages were sent are free or hold a domain. -/
theorem domain_of_suspendResumeConfig
    (h : Controller.suspendResumeConfig backend c vmLocations op config = .ok messages)
    {p : ExecuteConfigElem} (hp : p ∈ config) : c.machineUsage.get? p = some none ∨
      ∃ d, Controller.DomainAt backend c vmLocations p d := by
  induction config generalizing messages with
  | nil => simp at hp
  | cons elem rest ih =>
      rcases suspendResumeConfig_cons h with ⟨hfree, hrest⟩ | ⟨_, domain, _, hat, hrest, _⟩
      · rcases List.mem_cons.mp hp with rfl | hp
        · exact .inl hfree
        · exact ih hrest hp
      · rcases List.mem_cons.mp hp with rfl | hp
        · exact .inr ⟨domain, hat⟩
        · exact ih hrest hp

theorem suspended_append_suspend
    (h : SendTo .suspend backend c vmLocations config domains messages) (d : Domain) :
    suspended (log ++ messages) d = true ↔ suspended log d = true ∨
      ∃ p ∈ config, Controller.DomainAt backend c vmLocations p d := by
  rw [suspended, List.foldl_append, foldl_statusAfter_suspend h.tasks, ← h.mem_iff]
  simp [suspended]

theorem suspended_append_resume
    (h : SendTo .resume backend c vmLocations config domains messages) (d : Domain) :
    suspended (log ++ messages) d = true ↔ suspended log d = true ∧
      ∀ p ∈ config, ¬ Controller.DomainAt backend c vmLocations p d := by
  rw [suspended, List.foldl_append, foldl_statusAfter_resume h.tasks]
  have hmem := h.mem_iff d
  simp only [Bool.and_eq_true, decide_eq_true_eq, hmem, not_exists, not_and]
  rfl

theorem suspended_append_migrate {tasks : List (String × Vm.Migrate)} (d : Domain) :
    suspended (log ++ tasks.map fun task => ⟨task.1, .migrate task.2⟩) d =
      suspended log d := by
  induction tasks generalizing log with
  | nil => simp
  | cons task tasks ih =>
      rw [List.map_cons, List.append_cons, ih, suspended, List.foldl_append]
      rfl

theorem SendTo.mem_resume (h : SendTo .resume backend c vmLocations config domains messages)
    {d : Domain} : Task.resume d ∈ messages.map Message.task ↔
      ∃ p ∈ config, Controller.DomainAt backend c vmLocations p d := by
  rw [h.tasks, ← h.mem_iff]
  simp

theorem SendTo.not_mem_resume
    (h : SendTo .suspend backend c vmLocations config domains messages) (d : Domain) :
    Task.resume d ∉ messages.map Message.task := by
  rw [h.tasks]
  simp

theorem freeze_sendTo {id : Nat}
    (h : Controller.freeze backend c vmLocations id = .ok messages) :
    ∃ config domains, c.idToConfig[id]? = some config ∧
      SendTo .suspend backend c vmLocations config domains messages := by
  simp only [Controller.freeze, bind_eq_ok, fetch_eq_ok] at h
  obtain ⟨_, _, config, hrow, h⟩ := h
  obtain ⟨domains, hsend⟩ := suspendResumeConfig_sendTo h
  exact ⟨config, domains, hrow, hsend⟩

theorem thaw_sendTo {id : Nat}
    (h : Controller.thaw backend c vmLocations id = .ok messages) :
    ∃ config domains, c.idToConfig[id]? = some config ∧
      SendTo .resume backend c vmLocations config domains messages := by
  simp only [Controller.thaw, bind_eq_ok, fetch_eq_ok] at h
  obtain ⟨_, _, config, hrow, h⟩ := h
  obtain ⟨domains, hsend⟩ := suspendResumeConfig_sendTo h
  exact ⟨config, domains, hrow, hsend⟩

end Effects

def opposing (p : ExecuteConfigElem) : ExecuteConfigElem := (p.1, (p.2 + 1) % 2)

section Opposing

variable {backend : Backend} {c : Controller} {vmLocations : Vm.VmLocations}
  {config : ExecuteConfig} {messages : List Message} {id : Nat}

theorem generateOpposingConfig_eq {opposingConfig : ExecuteConfig}
    (hrow : c.idToConfig[id]? = some config)
    (h : c.generateOpposingConfig id = .ok opposingConfig) :
    opposingConfig = config.map opposing := by
  simp only [Controller.generateOpposingConfig, bind_eq_ok, fetch_eq_ok,
    ensure_eq_ok] at h
  obtain ⟨_, _, _, hslots, config', hrow', h⟩ := h
  cases h
  rw [Option.some_inj.mp (hrow.symm.trans hrow'), hslots]
  rfl

theorem generateOpposingConfig_ok (hrow : c.idToConfig[id]? = some config)
    (hslots : c.systemConfig.slots.length = 2) :
    c.generateOpposingConfig id = .ok (config.map opposing) := by
  have hlt := (List.getElem?_eq_some_iff.mp hrow).1
  rw [Controller.generateOpposingConfig, ensure_of hlt, bind_of_ok rfl, ensure_of hslots,
    bind_of_ok rfl, fetch_eq_ok.mpr hrow, bind_of_ok rfl, hslots]
  rfl

theorem freezeOpposing_sendTo (hrow : c.idToConfig[id]? = some config)
    (h : Controller.freezeOpposing backend c vmLocations id = .ok messages) :
    ∃ domains, SendTo .suspend backend c vmLocations (config.map opposing) domains
      messages := by
  simp only [Controller.freezeOpposing, bind_eq_ok] at h
  obtain ⟨opposingConfig, hopposing, h⟩ := h
  rw [generateOpposingConfig_eq hrow hopposing] at h
  exact suspendResumeConfig_sendTo h

theorem thawOpposing_sendTo (hrow : c.idToConfig[id]? = some config)
    (h : Controller.thawOpposing backend c vmLocations id = .ok messages) :
    ∃ domains, SendTo .resume backend c vmLocations (config.map opposing) domains
      messages := by
  simp only [Controller.thawOpposing, bind_eq_ok] at h
  obtain ⟨opposingConfig, hopposing, h⟩ := h
  rw [generateOpposingConfig_eq hrow hopposing] at h
  exact suspendResumeConfig_sendTo h

end Opposing

end Poncos
