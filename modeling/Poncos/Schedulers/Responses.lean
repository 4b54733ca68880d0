import Poncos.Controller.Suspension
import Poncos.Library.RequestReply
import Poncos.Vm.Placement

/-!
The operations that wait for answers: the topics they send to, and the topics they read
from, each list as its own loop makes it up.  The answers are taken to be positive.  The
control group controller iterates twice over a hash map; the order is a parameter, the
same for both loops, since the map does not change between them.
-/

namespace Poncos

open Poncos.Library
open Poncos.Library.Execution
open Poncos.Library.RequestReply
open Poncos.Library.Transition

/-- The two agents on a host: the migration framework and the bandwidth monitor. -/
inductive Channel where
  | migfra (host : String)
  | mmbwmon (host : String)
  deriving DecidableEq, Repr

def Channel.responseTopic : Channel → String
  | .migfra host => "fast/migfra/" ++ host ++ "/result"
  | .mmbwmon host => "fast/agent/" ++ host ++ "/mmbwmon/response"

theorem append_ne_append {s t u v : String} (i : Nat) (hs : i < s.toList.length)
    (ht : i < t.toList.length) (hne : s.toList[i]? ≠ t.toList[i]?) : s ++ u ≠ t ++ v := by
  intro h
  have h := congrArg (fun text : String => text.toList[i]?) h
  simp only [String.toList_append, List.getElem?_append_left hs,
    List.getElem?_append_left ht] at h
  exact hne h

/-- Two agents never share a topic, whatever the hosts are called. -/
theorem responseTopic_injective : Function.Injective Channel.responseTopic := by
  rintro (host | host) (host' | host') h
  · rw [Channel.responseTopic, Channel.responseTopic, String.append_left_inj,
      String.append_right_inj] at h
    rw [h]
  · rw [Channel.responseTopic, Channel.responseTopic, String.append_assoc,
      String.append_assoc] at h
    exact absurd h (append_ne_append 5 (by decide) (by decide) (by decide))
  · rw [Channel.responseTopic, Channel.responseTopic, String.append_assoc,
      String.append_assoc] at h
    exact absurd h (append_ne_append 5 (by decide) (by decide) (by decide))
  · rw [Channel.responseTopic, Channel.responseTopic, String.append_left_inj,
      String.append_right_inj] at h
    rw [h]

/-- The start task of a control group, for all its slots on one machine. -/
structure Start where
  vmName : String
  vcpuMap : List (List Nat)
  memnodeMap : List (List Nat)
  deriving DecidableEq, Repr

/-- What is asked: a container with one task, or a measurement. -/
inductive Request where
  | task (task : Task)
  | start (task : Start)
  | stop (vmName : String)
  | measure (cores : List Nat)
  deriving DecidableEq, Repr

/-- What an operation sends, and the channels it reads from afterwards. -/
structure Exchange where
  requests : List (Channel × Request)
  replies : List Channel
  deriving DecidableEq, Repr

def Exchange.events (exchange : Exchange) : List (Event Channel) :=
  (exchange.requests.map Prod.fst).map .send ++ exchange.replies.map .receive

/-- The second loop of `suspend_resume_config`. -/
def awaitResults (c : Controller) : ExecuteConfig → Exec (List Channel)
  | [] => .ok []
  | elem :: rest => do
      let owner ← c.machineUsage.read elem
      match owner with
      | none => awaitResults c rest
      | some _ =>
          let host ← fetch c.machines elem.1
          let replies ← awaitResults c rest
          .ok (.migfra host :: replies)

/-- `suspend_resume_config` with both loops over the config. -/
def suspendResumeExchange (c : Controller) (config : Exec ExecuteConfig)
    (messages : Exec (List Message)) : Exec Exchange := do
  let config ← config
  let messages ← messages
  let replies ← awaitResults c config
  .ok ⟨messages.map fun message => (.migfra message.host, .task message.task), replies⟩

namespace Cgroup

/-- `task_container_map`, the task of every machine by its index. -/
abbrev TaskMap (α : Type) := List (Nat × α)

def TaskMap.find {α : Type} (tasks : TaskMap α) (machine : Nat) : Exec α :=
  match tasks.lookup machine with
  | some task => .ok task
  | none => .error .outOfRange

/-- The first loop of `create_domain`: a machine that has a task already gets the cpus
and memory nodes of the slot added to it. -/
def startTasks (systemConfig : SystemConfig) (cgroupName : String) :
    ExecuteConfig → TaskMap Start → Exec (TaskMap Start)
  | [], tasks => .ok tasks
  | elem :: rest, tasks => do
      let slot ← fetch systemConfig.slots elem.2
      match tasks.lookup elem.1 with
      | some task =>
          let cpus ← fetch task.vcpuMap 0
          let vcpuMap ← store task.vcpuMap 0 (cpus ++ slot.cpus)
          let mems ← fetch task.memnodeMap 0
          let memnodeMap ← store task.memnodeMap 0 (mems ++ slot.mems)
          startTasks systemConfig cgroupName rest (tasks.map fun entry =>
            if entry.1 = elem.1 then (entry.1, { entry.2 with vcpuMap, memnodeMap }) else entry)
      | none =>
          startTasks systemConfig cgroupName rest
            (tasks ++ [(elem.1, ⟨cgroupName, [slot.cpus], [slot.mems]⟩)])

/-- The first loop of `delete_domain`; inserting a key again changes nothing. -/
def stopTasks (cgroupName : String) : ExecuteConfig → TaskMap String → TaskMap String
  | [], tasks => tasks
  | elem :: rest, tasks =>
      stopTasks cgroupName rest
        (if (tasks.lookup elem.1).isSome then tasks else tasks ++ [(elem.1, cgroupName)])

/-- The two loops over the map. -/
def exchangeTasks {α : Type} (machines : List String) (tasks : TaskMap α)
    (request : α → Request) (order : List Nat) : Exec Exchange := do
  require (order.Perm (tasks.map Prod.fst))
  let requests ← order.mapM fun machine => do
    let host ← fetch machines machine
    let task ← tasks.find machine
    .ok (Channel.migfra host, request task)
  let replies ← order.mapM fun machine => do
    let host ← fetch machines machine
    .ok (Channel.migfra host)
  .ok ⟨requests, replies⟩

def createDomain (c : Controller) (id : Nat) (order : List Nat) : Exec Exchange := do
  let config ← fetch c.idToConfig id
  let tasks ← startTasks c.systemConfig (cmdNameFromId id) config []
  exchangeTasks c.machines tasks .start order

def deleteDomain (c : Controller) (id : Nat) (order : List Nat) : Exec Exchange := do
  let config ← fetch c.idToConfig id
  exchangeTasks c.machines (stopTasks (cmdNameFromId id) config []) .stop order

end Cgroup

namespace Vm

/-- The second loop of `update_config`, as far as it waits for results. -/
def awaitMigrations (c : Controller) :
    List (ExecuteConfigElem × ExecuteConfigElem) → Exec (List Channel)
  | [] => .ok []
  | (src, dest) :: rest => do
      let srcHost ← fetch c.machines src.1
      let _ ← fetch c.machines dest.1
      if src.1 = dest.1 then awaitMigrations c rest
      else do
        let replies ← awaitMigrations c rest
        .ok (.migfra srcHost :: replies)

def updateExchange (c : Controller) (vmLocations : VmLocations) (id : Nat)
    (newConfig : ExecuteConfig) : Exec Exchange := do
  let oldConfig ← fetch c.idToConfig id
  let (_, _, tasks) ← updateConfig id newConfig c vmLocations
  let replies ← awaitMigrations c (oldConfig.zip newConfig)
  .ok ⟨tasks.map fun task => (.migfra task.1, .task (.migrate task.2)), replies⟩

end Vm

/-- `run_distgen`. -/
def runDistgen (c : Controller) (jobId : Nat) : Exec Exchange := do
  let config ← c.generateOpposingConfig jobId
  ensure (config ≠ [])
  let requests ← config.mapM fun elem => do
    let slot ← fetch c.systemConfig.slots elem.2
    let host ← fetch c.machines elem.1
    .ok (Channel.mmbwmon host, Request.measure slot.cpus)
  let replies ← config.mapM fun elem => do
    let host ← fetch c.machines elem.1
    .ok (Channel.mmbwmon host)
  .ok ⟨requests, replies⟩

/-- The operations under the lock that talk to agents.  `order` is the order in which
the hash map is iterated. -/
inductive Operation where
  | freeze (id : Nat)
  | thaw (id : Nat)
  | freezeOpposing (id : Nat)
  | thawOpposing (id : Nat)
  | createDomain (id : Nat) (order : List Nat)
  | deleteDomain (id : Nat) (order : List Nat)
  | updateConfig (id : Nat) (newConfig : ExecuteConfig)
  | runDistgen (jobId : Nat)

/-- An operation and the state it finds. -/
structure Call where
  operation : Operation
  backend : Backend
  controller : Controller
  vmLocations : Vm.VmLocations

namespace Call

def exchange (call : Call) : Exec Exchange :=
  let c := call.controller
  match call.operation, call.backend with
  | .freeze id, backend =>
      suspendResumeExchange c (fetch c.idToConfig id)
        (c.freeze backend call.vmLocations id)
  | .thaw id, backend =>
      suspendResumeExchange c (fetch c.idToConfig id)
        (c.thaw backend call.vmLocations id)
  | .freezeOpposing id, backend =>
      suspendResumeExchange c (c.generateOpposingConfig id)
        (c.freezeOpposing backend call.vmLocations id)
  | .thawOpposing id, backend =>
      suspendResumeExchange c (c.generateOpposingConfig id)
        (c.thawOpposing backend call.vmLocations id)
  | .createDomain id order, .cgroup => Cgroup.createDomain c id order
  | .deleteDomain id order, .cgroup => Cgroup.deleteDomain c id order
  | .createDomain _ _, .vm => .ok ⟨[], []⟩
  | .deleteDomain _ _, .vm => .ok ⟨[], []⟩
  | .updateConfig _ _, .cgroup => .error .assertion
  | .updateConfig id newConfig, .vm => Vm.updateExchange c call.vmLocations id newConfig
  | .runDistgen jobId, _ => Poncos.runDistgen c jobId

end Call

/-- The requests go to the channels that are read afterwards, one for one. -/
def Exchange.Answered (exchange : Exchange) : Prop :=
  exchange.requests.map Prod.fst = exchange.replies

section Answered

variable {backend : Backend} {c : Controller} {vmLocations : Vm.VmLocations}
  {op : Domain → Task} {config : ExecuteConfig} {messages : List Message}
  {replies : List Channel} {exchange : Exchange}

theorem awaitResults_hosts
    (h : c.suspendResumeConfig backend vmLocations op config = .ok messages)
    (hreplies : awaitResults c config = .ok replies) :
    messages.map (fun message => Channel.migfra message.host) = replies := by
  induction config generalizing messages replies with
  | nil =>
      cases h
      cases hreplies
      rfl
  | cons elem rest ih =>
      simp only [Controller.suspendResumeConfig, bind_eq_ok] at h
      obtain ⟨owner, howner, h⟩ := h
      rw [awaitResults, bind_of_ok howner] at hreplies
      cases owner with
      | none => exact ih h hreplies
      | some owner =>
          simp only [bind_eq_ok] at h hreplies
          obtain ⟨host, hhost, _, _, _, hrest, h⟩ := h
          obtain ⟨host', hhost', _, hrest', hreplies⟩ := hreplies
          cases h
          cases hreplies
          obtain rfl : host = host' := Except.ok.inj (hhost.symm.trans hhost')
          rw [List.map_cons, ih hrest hrest']

variable (backend vmLocations) in
theorem suspendResumeExchange_answered {configs : Exec ExecuteConfig}
    {sent : Exec (List Message)}
    (hsent : ∀ messages, sent = .ok messages → ∃ op config, configs = .ok config ∧
      c.suspendResumeConfig backend vmLocations op config = .ok messages)
    (h : suspendResumeExchange c configs sent = .ok exchange) : exchange.Answered := by
  simp only [suspendResumeExchange, bind_eq_ok] at h
  obtain ⟨config, hconfig, messages, hmessages, replies, hreplies, h⟩ := h
  cases h
  obtain ⟨_, config', hconfig', hsent⟩ := hsent messages hmessages
  obtain rfl := Except.ok.inj (hconfig.symm.trans hconfig')
  rw [Exchange.Answered, List.map_map]
  exact awaitResults_hosts hsent hreplies

theorem exchangeTasks_answered {α : Type} {machines : List String} {tasks : Cgroup.TaskMap α}
    {request : α → Request} {order : List Nat}
    (h : Cgroup.exchangeTasks machines tasks request order = .ok exchange) :
    exchange.Answered := by
  simp only [Cgroup.exchangeTasks, bind_eq_ok] at h
  obtain ⟨_, _, requests, hrequests, replies, hreplies, h⟩ := h
  cases h
  refine map_eq_of_mapM_eq_ok (fun machine request channel hrequest hchannel => ?_)
    hrequests hreplies
  simp only [bind_eq_ok] at hrequest hchannel
  obtain ⟨host, hhost, _, _, hrequest⟩ := hrequest
  obtain ⟨host', hhost', hchannel⟩ := hchannel
  cases hrequest
  cases hchannel
  rw [Except.ok.inj (hhost.symm.trans hhost')]

theorem runDistgen_answered {jobId : Nat} (h : runDistgen c jobId = .ok exchange) :
    exchange.Answered := by
  simp only [runDistgen, bind_eq_ok] at h
  obtain ⟨config, _, _, _, requests, hrequests, replies, hreplies, h⟩ := h
  cases h
  refine map_eq_of_mapM_eq_ok (fun elem request channel hrequest hchannel => ?_)
    hrequests hreplies
  simp only [bind_eq_ok] at hrequest hchannel
  obtain ⟨_, _, host, hhost, hrequest⟩ := hrequest
  obtain ⟨host', hhost', hchannel⟩ := hchannel
  cases hrequest
  cases hchannel
  rw [Except.ok.inj (hhost.symm.trans hhost')]

theorem awaitMigrations_hosts {id : Nat} {oldConfig : ExecuteConfig}
    {moves : List (ExecuteConfigElem × ExecuteConfigElem)}
    {tasks : List (Option (String × Vm.Migrate))}
    (htasks : moves.mapM (Vm.requestSwap c vmLocations id oldConfig) = .ok tasks)
    (h : Vm.awaitMigrations c moves = .ok replies) :
    (tasks.filterMap fun task => task).map (fun task => Channel.migfra task.1) = replies := by
  rw [mapM_eq_ok_iff] at htasks
  induction htasks generalizing replies with
  | nil =>
      cases h
      rfl
  | @cons move task moves tasks hmove _ ih =>
      simp only [Vm.awaitMigrations, bind_eq_ok, fetch_eq_ok] at h
      obtain ⟨srcHost, hsrc, _, _, h⟩ := h
      rcases eq_or_ne move.1.1 move.2.1 with hhost | hhost
      · rw [if_pos hhost] at h
        rw [Vm.requestSwap_same hhost hmove, List.filterMap_cons_none rfl]
        exact ih h
      · rw [if_neg hhost, bind_eq_ok] at h
        obtain ⟨_, hrest, h⟩ := h
        cases h
        obtain ⟨srcHost', migrate, rfl, hsrc', _⟩ := Vm.requestSwap_requested hhost hmove
        obtain rfl := Option.some_inj.mp (hsrc.symm.trans hsrc')
        exact congrArg (Channel.migfra srcHost :: ·) (ih hrest)

theorem updateExchange_answered {id : Nat} {newConfig : ExecuteConfig}
    (h : Vm.updateExchange c vmLocations id newConfig = .ok exchange) :
    exchange.Answered := by
  simp only [Vm.updateExchange, bind_eq_ok] at h
  obtain ⟨oldConfig, hrow, result, hupdate, replies, hreplies, h⟩ := h
  cases h
  simp only [Vm.updateConfig, bind_eq_ok] at hupdate
  obtain ⟨oldConfig', hrow', _, _, tasks, htasks, _, _, _, _, hupdate⟩ := hupdate
  obtain rfl := Except.ok.inj (hrow.symm.trans hrow')
  cases hupdate
  rw [Exchange.Answered, List.map_map]
  exact awaitMigrations_hosts htasks hreplies

/-- Both loops of every operation pass over the same hosts. -/
theorem exchange_answered {call : Call} (h : call.exchange = .ok exchange) :
    exchange.Answered := by
  rcases call with ⟨operation, backend, c, vmLocations⟩
  cases operation with
  | freeze id =>
      refine suspendResumeExchange_answered backend vmLocations (fun messages hsent => ?_) h
      simp only [Controller.freeze, bind_eq_ok] at hsent
      obtain ⟨_, _, config, hconfig, hsent⟩ := hsent
      exact ⟨_, config, hconfig, hsent⟩
  | thaw id =>
      refine suspendResumeExchange_answered backend vmLocations (fun messages hsent => ?_) h
      simp only [Controller.thaw, bind_eq_ok] at hsent
      obtain ⟨_, _, config, hconfig, hsent⟩ := hsent
      exact ⟨_, config, hconfig, hsent⟩
  | freezeOpposing id =>
      refine suspendResumeExchange_answered backend vmLocations (fun messages hsent => ?_) h
      simp only [Controller.freezeOpposing, bind_eq_ok] at hsent
      obtain ⟨config, hconfig, hsent⟩ := hsent
      exact ⟨_, config, hconfig, hsent⟩
  | thawOpposing id =>
      refine suspendResumeExchange_answered backend vmLocations (fun messages hsent => ?_) h
      simp only [Controller.thawOpposing, bind_eq_ok] at hsent
      obtain ⟨config, hconfig, hsent⟩ := hsent
      exact ⟨_, config, hconfig, hsent⟩
  | createDomain id order =>
      cases backend with
      | cgroup =>
          simp only [Call.exchange, Cgroup.createDomain, bind_eq_ok] at h
          obtain ⟨_, _, _, _, h⟩ := h
          exact exchangeTasks_answered h
      | vm =>
          cases h
          rfl
  | deleteDomain id order =>
      cases backend with
      | cgroup =>
          simp only [Call.exchange, Cgroup.deleteDomain, bind_eq_ok] at h
          obtain ⟨_, _, h⟩ := h
          exact exchangeTasks_answered h
      | vm =>
          cases h
          rfl
  | updateConfig id newConfig =>
      cases backend with
      | cgroup => cases h
      | vm => exact updateExchange_answered h
  | runDistgen jobId => exact runDistgen_answered h

theorem Exchange.Answered.matched (h : exchange.Answered) : Matched exchange.events :=
  matched_of_perm (List.Perm.of_eq h)

end Answered

/-- Operations one after another, in any order and each in any state: each reads from
every channel as many answers as it sent requests there, and no answer before its
request; every answer is read by the operation that asked; no answer is left when an
operation ends; an operation that waits has an answer coming; and from every point on all
of them can end. -/
theorem responses_consumed {calls : List Call} {exchanges : List Exchange}
    (h : calls.mapM Call.exchange = .ok exchanges) :
    (∀ exchange ∈ exchanges, ∀ channel, Balanced exchange.events channel) ∧
    ∀ s, (system (exchanges.map Exchange.events)).Reachable s →
      (∀ read ∈ s.reads, read.2 = read.1) ∧
      (s.events = [] → ∀ channel, s.asked channel = [] ∧ s.unread channel = []) ∧
      (∀ channel events, s.events = .receive channel :: events →
        s.asked channel ≠ [] ∨ s.unread channel ≠ []) ∧
      ∃ s', ((system (exchanges.map Exchange.events)).startingAt s).Reachable s' ∧
        s'.events = [] ∧ s'.rest = [] := by
  have hanswered : ∀ exchange ∈ exchanges, exchange.Answered := by
    intro exchange hexchange
    obtain ⟨call, _, hcall⟩ := exists_of_forall₂ (mapM_eq_ok_iff.mp h).flip hexchange
    exact exchange_answered hcall
  refine ⟨fun exchange hexchange => (hanswered exchange hexchange).matched.balanced,
    fun s hs => ?_⟩
  have hinv : Invariant s := by
    refine reachable_invariant (fun events hevents => ?_) hs
    obtain ⟨exchange, hexchange, rfl⟩ := List.mem_map.mp hevents
    exact (hanswered exchange hexchange).matched
  exact ⟨hinv.reads, hinv.quiet, fun _ _ => hinv.waits, hinv.completes⟩

/-- Two jobs on two machines; one slot is free. -/
def sharedMachines : Controller where
  machines := ["a", "b"]
  systemConfig := ⟨[⟨[0, 1], [0]⟩, ⟨[2, 3], [1]⟩]⟩
  machineUsage := [[some 0, some 1], [some 0, none]]
  idToConfig := [[(0, 0), (1, 0)], [(0, 1)]]
  idToJob := [⟨4, 1, "", false⟩, ⟨2, 1, "", true⟩]
  idToTpool := [0, 1]
  threadPool := []
  cmdCounter := 2

def sharedCalls : List Call :=
  [⟨.createDomain 0 [1, 0], .cgroup, sharedMachines, []⟩,
    ⟨.freezeOpposing 0, .cgroup, sharedMachines, []⟩,
    ⟨.runDistgen 0, .cgroup, sharedMachines, []⟩,
    ⟨.thaw 0, .cgroup, sharedMachines, []⟩,
    ⟨.deleteDomain 0 [0, 1], .cgroup, sharedMachines, []⟩,
    ⟨.updateConfig 1 [(1, 0)], .vm, sharedMachines, [["v", "w"], ["x", "y"]]⟩]

/-- The slot opposite to a free one is measured, but not suspended. -/
theorem responses_consumed_sharedCalls : ∃ exchanges : List Exchange,
    sharedCalls.mapM Call.exchange = .ok exchanges ∧
    exchanges.map Exchange.replies =
      [[.migfra "b", .migfra "a"], [.migfra "a"], [.mmbwmon "a", .mmbwmon "b"],
        [.migfra "a", .migfra "b"], [.migfra "a", .migfra "b"], [.migfra "a"]] ∧
    (∀ exchange ∈ exchanges, ∀ channel, Balanced exchange.events channel) ∧
    ∀ s, (system (exchanges.map Exchange.events)).Reachable s → s.events = [] →
      ∀ channel, s.asked channel = [] ∧ s.unread channel = [] := by
  have hrun : (sharedCalls.mapM Call.exchange).map (fun exchanges =>
      exchanges.map Exchange.replies) = .ok
      [[.migfra "b", .migfra "a"], [.migfra "a"], [.mmbwmon "a", .mmbwmon "b"],
        [.migfra "a", .migfra "b"], [.migfra "a", .migfra "b"], [.migfra "a"]] := by
    decide +kernel
  obtain ⟨exchanges, hexchanges, hreplies⟩ := map_eq_ok.mp hrun
  obtain ⟨hbalanced, hruns⟩ := responses_consumed hexchanges
  exact ⟨exchanges, hexchanges, hreplies, hbalanced, fun s hs => (hruns s hs).2.1⟩

end Poncos
