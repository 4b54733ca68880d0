import Poncos.Mqtt.Exchange
import Poncos.Vm.LifeCycle

/-!
The whole program over the client of the broker: the subscriptions of `main` and of the
controllers, the start of the virtual machines, the operations of the schedulers and the
stop of the virtual machines.
-/

namespace Poncos

open Poncos.Library
open Poncos.Library.Execution
open Poncos.Library.RequestReply
open Poncos.Library.Transition
open Poncos.Mqtt

section Hosts

variable {c : Controller} {replies : List Channel} {exchange : Exchange}

/-- A channel of a machine of the file. -/
def OfMachine (machines : List String) (c : Channel) : Prop := c.host ∈ machines

theorem fetch_host {machines : List String} {machine : Nat} {host : String}
    (h : fetch machines machine = .ok host) : host ∈ machines :=
  List.mem_of_getElem? (fetch_eq_ok.mp h)

theorem awaitResults_within {config : ExecuteConfig} (h : awaitResults c config = .ok replies) :
    ∀ channel ∈ replies, OfMachine c.machines channel := by
  induction config generalizing replies with
  | nil =>
      cases h
      simp
  | cons elem rest ih =>
      simp only [awaitResults, bind_eq_ok] at h
      obtain ⟨owner, _, h⟩ := h
      cases owner with
      | none => exact ih h
      | some owner =>
          simp only [bind_eq_ok] at h
          obtain ⟨host, hhost, later, hlater, h⟩ := h
          cases h
          exact List.forall_mem_cons.mpr ⟨fetch_host hhost, ih hlater⟩

theorem awaitMigrations_within {moves : List (ExecuteConfigElem × ExecuteConfigElem)}
    (h : Vm.awaitMigrations c moves = .ok replies) :
    ∀ channel ∈ replies, OfMachine c.machines channel := by
  induction moves generalizing replies with
  | nil =>
      cases h
      simp
  | cons move moves ih =>
      simp only [Vm.awaitMigrations, bind_eq_ok] at h
      obtain ⟨host, hhost, _, _, h⟩ := h
      split at h
      · exact ih h
      · simp only [bind_eq_ok] at h
        obtain ⟨later, hlater, h⟩ := h
        cases h
        exact List.forall_mem_cons.mpr ⟨fetch_host hhost, ih hlater⟩

theorem mapM_within {α : Type} {entries : List α} {reply : α → Exec Channel}
    (hreply : ∀ entry channel, reply entry = .ok channel → OfMachine c.machines channel)
    (h : entries.mapM reply = .ok replies) :
    ∀ channel ∈ replies, OfMachine c.machines channel := by
  intro channel hchannel
  obtain ⟨entry, _, hentry⟩ := exists_of_forall₂ (mapM_eq_ok_iff.mp h).flip hchannel
  exact hreply entry channel hentry

theorem suspendResumeExchange_within {config : Exec ExecuteConfig}
    {messages : Exec (List Message)} (h : suspendResumeExchange c config messages = .ok exchange) :
    ∀ channel ∈ exchange.replies, OfMachine c.machines channel := by
  simp only [suspendResumeExchange, bind_eq_ok] at h
  obtain ⟨_, _, _, _, replies, hreplies, h⟩ := h
  cases h
  exact awaitResults_within hreplies

theorem exchangeTasks_within {α : Type} {tasks : Cgroup.TaskMap α} {request : α → Request}
    {order : List Nat} (h : Cgroup.exchangeTasks c.machines tasks request order = .ok exchange) :
    ∀ channel ∈ exchange.replies, OfMachine c.machines channel := by
  simp only [Cgroup.exchangeTasks, bind_eq_ok] at h
  obtain ⟨_, _, _, _, replies, hreplies, h⟩ := h
  cases h
  refine mapM_within (fun machine channel hchannel => ?_) hreplies
  simp only [bind_eq_ok] at hchannel
  obtain ⟨host, hhost, hchannel⟩ := hchannel
  cases hchannel
  exact fetch_host hhost

theorem runDistgen_within {jobId : Nat} (h : runDistgen c jobId = .ok exchange) :
    ∀ channel ∈ exchange.replies, OfMachine c.machines channel := by
  simp only [runDistgen, bind_eq_ok] at h
  obtain ⟨_, _, _, _, _, _, replies, hreplies, h⟩ := h
  cases h
  refine mapM_within (fun elem channel hchannel => ?_) hreplies
  simp only [bind_eq_ok] at hchannel
  obtain ⟨host, hhost, hchannel⟩ := hchannel
  cases hchannel
  exact fetch_host hhost

theorem replies_within {call : Call} (h : call.exchange = .ok exchange) :
    ∀ channel ∈ exchange.replies, OfMachine call.controller.machines channel := by
  rcases call with ⟨operation, backend, c, vmLocations⟩
  cases operation with
  | freeze id => exact suspendResumeExchange_within h
  | thaw id => exact suspendResumeExchange_within h
  | freezeOpposing id => exact suspendResumeExchange_within h
  | thawOpposing id => exact suspendResumeExchange_within h
  | createDomain id order =>
      cases backend with
      | cgroup =>
          simp only [Call.exchange, Cgroup.createDomain, bind_eq_ok] at h
          obtain ⟨_, _, _, _, h⟩ := h
          exact exchangeTasks_within h
      | vm =>
          cases h
          simp
  | deleteDomain id order =>
      cases backend with
      | cgroup =>
          simp only [Call.exchange, Cgroup.deleteDomain, bind_eq_ok] at h
          obtain ⟨_, _, h⟩ := h
          exact exchangeTasks_within h
      | vm =>
          cases h
          simp
  | updateConfig id newConfig =>
      cases backend with
      | cgroup => cases h
      | vm =>
          simp only [Call.exchange, Vm.updateExchange, bind_eq_ok] at h
          obtain ⟨_, _, _, _, replies, hreplies, h⟩ := h
          cases h
          exact awaitMigrations_within hreplies
  | runDistgen jobId => exact runDistgen_within h

/-- An operation that reads what it asks for uses the channels it reads. -/
theorem Exchange.Answered.within {channels : Channel → Prop} (h : exchange.Answered)
    (hreplies : ∀ channel ∈ exchange.replies, channels channel) :
    Within channels exchange.events := by
  intro event hevent
  rcases List.mem_append.mp hevent with hevent | hevent
  · obtain ⟨channel, hchannel, rfl⟩ := List.mem_map.mp hevent
    rw [h] at hchannel
    exact hreplies channel hchannel
  · obtain ⟨channel, hchannel, rfl⟩ := List.mem_map.mp hevent
    exact hreplies channel hchannel

end Hosts

/-- A client that has these subscriptions in addition, and its messages as before. -/
structure Extends (topics : List String) (comm comm' : Communicator Nat) : Prop where
  connected : comm'.connected = comm.connected
  find : ∀ topic, comm'.find topic ≠ none ↔ comm.find topic ≠ none ∨ topic ∈ topics
  messages : ∀ topic, comm'.messagesOn topic = comm.messagesOn topic

section Subscriptions

variable {topic : String} {topics : List String} {comm : Communicator Nat}
  {machines : List String}

variable (topic comm) in
theorem addSubscription_extends : Extends [topic] comm (comm.addSubscription topic) := by
  rcases Classical.em (comm.find topic = none) with hfind | hfind
  · have hother : ∀ other, (comm.addSubscription topic).find other = (comm.find other).or
        (if topic = other then some ⟨topic, []⟩ else none) := by
      intro other
      simp only [Communicator.find, Communicator.addSubscription_new hfind, List.find?_append,
        List.find?_singleton, beq_iff_eq]
    refine ⟨Communicator.addSubscription_connected, fun other => ?_, fun other => ?_⟩
    · rw [hother, List.mem_singleton]
      rcases Classical.em (topic = other) with rfl | hne
      · simp
      · simp [hne, Ne.symm hne]
    · rw [Communicator.messagesOn, Communicator.messagesOn, hother]
      rcases hfound : comm.find other with _ | found
      · rcases Classical.em (topic = other) with heq | hne
        · rw [if_pos heq]
          rfl
        · rw [if_neg hne]
          rfl
      · rfl
  · rw [Communicator.addSubscription_again hfind]
    refine ⟨rfl, fun other => ?_, fun _ => rfl⟩
    rw [List.mem_singleton, iff_self_or]
    rintro rfl
    exact hfind

variable (topics comm) in
theorem subscribeAll_extends : Extends topics comm (subscribeAll topics comm) := by
  induction topics generalizing comm with
  | nil => exact ⟨rfl, by simp [subscribeAll], fun _ => rfl⟩
  | cons topic topics ih =>
      have hextends := addSubscription_extends topic comm
      have hrest := ih (comm.addSubscription topic)
      refine ⟨hrest.connected.trans hextends.connected, fun other => ?_,
        fun other => (hrest.messages other).trans (hextends.messages other)⟩
      rw [subscribeAll, List.foldl_cons, ← subscribeAll, hrest.find, hextends.find,
        List.mem_singleton, List.mem_cons, or_assoc]

theorem responseTopic_compiles {c : Channel} (h : ∀ e ∈ c.host.toList, IsName e) :
    topicToRegex c.responseTopic ≠ none := by
  obtain ⟨items, hitems, _⟩ := regexMatch_name (responseTopic_isName h)
  rw [topicToRegex, hitems]
  simp

theorem taskTopic_compiles {machine : String} (h : ∀ e ∈ machine.toList, IsName e) :
    topicToRegex (Channel.migfra machine).requestTopic ≠ none := by
  have hname : ∀ e ∈ (Channel.migfra machine).requestTopic.toList, IsName e := by
    intro e he
    simp only [Channel.requestTopic, String.toList_append, List.mem_append] at he
    rcases he with (he | he) | he
    · exact @isName_of_all "fast/migfra/" rfl e he
    · exact h e he
    · exact @isName_of_all "/task" rfl e he
  obtain ⟨items, hitems, _⟩ := regexMatch_name hname
  rw [topicToRegex, hitems]
  simp

theorem responseTopic_ne_requestTopic {c d : Channel} : d.responseTopic ≠ c.requestTopic := by
  intro h
  refine responseTopic_not_request (d := d) (c := c) ?_
  rw [h]
  exact nameStandsFor_self

theorem responseTopic_ne_default {d : Channel} : d.responseTopic ≠ "fast/poncos" := by
  intro h
  have h := congrArg (fun text : String => text.toList[5]?) h
  cases d <;> simp [Channel.responseTopic] at h

end Subscriptions

/-- `stop_all_VMs` and `start_all_VMs`: all requests, and then an answer from every
machine. -/
def allMachines (machines : List String)
    (requests : List (Channel × Messages.TaskContainer)) : List (Event Channel) :=
  (requests.map Prod.fst).map .send ++ (machines.map Channel.migfra).map .receive

/-- `init` of the two controllers; `requests` are those of `start_all_VMs`. -/
def initOperations (machines : List String)
    (requests : List (Channel × Messages.TaskContainer)) : Backend → List (List (Event Channel))
  | .cgroup => []
  | .vm => [allMachines machines (Vm.stopAllVms machines), allMachines machines requests]

/-- `dismantle` of the two controllers. -/
def dismantleOperations (machines : List String) : Backend → List (List (Event Channel))
  | .cgroup => []
  | .vm => [allMachines machines (Vm.stopAllVms machines)]

/-- The start requests of the virtual machines, where there are any. -/
def StartRequests (machines : List String)
    (requests : List (Channel × Messages.TaskContainer)) (backend : Backend) : Prop :=
  backend = .vm → ∃ slotFiles uuids slots vmPool vmLocations,
    Vm.startAll slotFiles uuids slots machines vmPool = .ok (requests, vmLocations)

/-- Every answer so far was read by the operation that asked; between two operations no
answer is under way or unread; nothing is thrown; and everything can be done. -/
structure Link.Sound (M : System Link LinkAction) (s : Link) : Prop where
  reads : ∀ read ∈ s.reads, read.2 = read.1
  quiet : s.events = [] → ∀ c, s.asked c = [] ∧ s.unread c = []
  proceeds : ∀ fault, s.proceed = .error fault → fault = .disabled
  ends : ∃ s', (M.startingAt s).Reachable s' ∧ s'.events = [] ∧ s'.rest = []

section Program

variable {R : StdRegex} {machines : List String} {channels : Channel → Prop}
  {comm : Communicator Nat} {echoes : List (Mqtt.Message Nat)}
  {operations : List (List (Event Channel))} {s : Link}
  {backend : Backend}

theorem requestReply_proceed_error {t : RequestReply.State Channel} {fault : Fault}
    (h : RequestReply.proceed t = .error fault) : fault = .disabled := by
  unfold RequestReply.proceed at h
  split at h <;> try split at h
  all_goals cases h
  all_goals rfl

theorem link_sound (hnames : Distinguishable machines)
    (hready : Ready machines channels comm echoes)
    (hwithin : ∀ events ∈ operations, Within channels events)
    (hmatched : ∀ events ∈ operations, Matched events)
    (hs : (link R comm echoes operations).Reachable s) :
    s.Sound (link R comm echoes operations) := by
  have htuned := link_tuned hready hwithin hs
  have habs : (RequestReply.system operations).Reachable s.abstract :=
    (link_refines hnames hready hwithin).reachable hs
  have hinv := reachable_invariant hmatched habs
  refine ⟨hinv.reads, hinv.quiet, fun fault hfault => ?_, ?_⟩
  · refine requestReply_proceed_error (t := s.abstract) ?_
    rw [← htuned.proceed_abstract, hfault]
    rfl
  · obtain ⟨t, ht, hevents, hrest⟩ := @Invariant.completes _ _ _ operations hinv
    obtain ⟨s', hs', rfl⟩ := (link_follows hnames hready hwithin).reachable hs ht
    exact ⟨s', hs', hevents, hrest⟩

/-- An operation with all machines. -/
structure Concerns (machines : List String) (events : List (Event Channel)) : Prop where
  matched : Matched events
  within : Within (fun c => ∃ machine ∈ machines, c = .migfra machine) events

theorem allMachines_concerns {requests : List (Channel × Messages.TaskContainer)}
    (h : requests.map Prod.fst = machines.map Channel.migfra) :
    Concerns machines (allMachines machines requests) := by
  rw [allMachines, h]
  refine ⟨matched_of_perm (List.Perm.refl _), fun event hevent => ?_⟩
  simp only [List.map_map, List.mem_append, List.mem_map, Function.comp_apply] at hevent
  rcases hevent with ⟨machine, hmachine, rfl⟩ | ⟨machine, hmachine, rfl⟩
  · exact ⟨machine, hmachine, rfl⟩
  · exact ⟨machine, hmachine, rfl⟩

theorem ofMachine_of_migfra {c : Channel} (h : ∃ machine ∈ machines, c = .migfra machine) :
    OfMachine machines c := by
  obtain ⟨machine, hmachine, rfl⟩ := h
  exact hmachine

theorem stopAllVms_concerns :
    Concerns machines (allMachines machines (Vm.stopAllVms machines)) := by
  refine allMachines_concerns ?_
  rw [Vm.stopAllVms, List.map_map]
  rfl

theorem initOperations_concern {requests : List (Channel × Messages.TaskContainer)}
    (hrequests : StartRequests machines requests backend) :
    ∀ events ∈ initOperations machines requests backend, Concerns machines events := by
  cases backend with
  | cgroup => simp [initOperations]
  | vm =>
      obtain ⟨_, _, _, _, _, hstart⟩ := hrequests rfl
      simp only [initOperations, List.forall_mem_cons, List.not_mem_nil, false_implies,
        implies_true, and_true]
      exact ⟨stopAllVms_concerns, allMachines_concerns (Vm.startAll_channels hstart)⟩

theorem dismantleOperations_concern :
    ∀ events ∈ dismantleOperations machines backend, Concerns machines events := by
  cases backend with
  | cgroup => simp [dismantleOperations]
  | vm =>
      intro events hevents
      rw [List.mem_singleton.mp hevents]
      exact stopAllVms_concerns

theorem Extends.trans {topics topics' : List String} {comm' comm'' : Communicator Nat}
    (h : Extends topics comm comm') (h' : Extends topics' comm' comm'') :
    Extends (topics ++ topics') comm comm'' where
  connected := h'.connected.trans h.connected
  find topic := by rw [h'.find, h.find, List.mem_append, or_assoc]
  messages topic := (h'.messages topic).trans (h.messages topic)

/-- The topics of the results, once or twice. -/
def resultTopics (machines : List String) : Backend → List String
  | .cgroup => controllerTopics machines
  | .vm => controllerTopics machines ++ vmTopics machines

theorem mem_resultTopics {c : Channel} : c.responseTopic ∈ resultTopics machines backend ↔
    ∃ machine ∈ machines, c = .migfra machine := by
  have hcontroller : c.responseTopic ∈ controllerTopics machines ↔
      ∃ machine ∈ machines, c = .migfra machine := by
    simp only [controllerTopics, List.mem_flatMap, List.mem_cons, List.not_mem_nil, or_false,
      responseTopic_ne_requestTopic, false_or]
    simp only [responseTopic_injective.eq_iff]
  have hvm : c.responseTopic ∈ vmTopics machines ↔ ∃ machine ∈ machines, c = .migfra machine := by
    simp only [vmTopics, List.mem_map, responseTopic_injective.eq_iff, eq_comm]
  cases backend with
  | cgroup => exact hcontroller
  | vm => rw [resultTopics, List.mem_append, hcontroller, hvm, or_self]

variable (backend) in
theorem resultTopics_compile (hnames : Named machines) :
    ∀ topic ∈ resultTopics machines backend, topicToRegex topic ≠ none := by
  have hresponse : ∀ machine ∈ machines,
      topicToRegex (Channel.migfra machine).responseTopic ≠ none :=
    fun machine hmachine =>
      responseTopic_compiles (c := .migfra machine) (hnames machine hmachine)
  have hcontroller : ∀ topic ∈ controllerTopics machines, topicToRegex topic ≠ none := by
    intro topic htopic
    obtain ⟨machine, hmachine, htopic⟩ := List.mem_flatMap.mp htopic
    rw [List.mem_cons, List.mem_singleton] at htopic
    rcases htopic with rfl | rfl
    · exact taskTopic_compiles (hnames machine hmachine)
    · exact hresponse machine hmachine
  cases backend with
  | cgroup => exact hcontroller
  | vm =>
      intro topic htopic
      rcases List.mem_append.mp htopic with htopic | htopic
      · exact hcontroller topic htopic
      · obtain ⟨machine, hmachine, rfl⟩ := List.mem_map.mp htopic
        exact hresponse machine hmachine

variable (machines backend) in
theorem startUp_extends : Extends ("fast/poncos" :: resultTopics machines backend)
    ((Communicator.create "fast/poncos").onConnect 0) (startUp backend machines) := by
  have hfirst := addSubscription_extends "fast/poncos"
    ((Communicator.create "fast/poncos" : Communicator Nat).onConnect 0)
  have hrest := subscribeAll_extends (resultTopics machines backend)
    { ((Communicator.create "fast/poncos").onConnect 0).addSubscription "fast/poncos" with
      defaultSubscribeTopic := "fast/poncos" }
  have hextends := hfirst.trans ⟨hrest.connected, hrest.find, hrest.messages⟩
  cases backend with
  | cgroup => exact hextends
  | vm =>
      rw [resultTopics, subscribeAll, List.foldl_append] at hextends
      exact hextends

variable (backend) in
/-- After the constructors, the results of every machine are heard. -/
theorem startUp_ready (hnames : Named machines) :
    Ready machines (fun c => ∃ machine ∈ machines, c = .migfra machine)
      (startUp backend machines) [] := by
  have hextends := startUp_extends machines backend
  have hsubscribed : ∀ topic, (startUp backend machines).find topic ≠ none ↔
      topic ∈ "fast/poncos" :: resultTopics machines backend := by
    intro topic
    rw [hextends.find, or_iff_right fun h => h rfl]
  have hfind : ∀ c : Channel, (startUp backend machines).find c.responseTopic ≠ none ↔
      ∃ machine ∈ machines, c = .migfra machine := by
    intro c
    rw [hsubscribed, List.mem_cons, mem_resultTopics, or_iff_right responseTopic_ne_default]
  refine ⟨⟨hextends.connected, fun c => (hfind c).mpr, fun c hc => ?_, fun topic htopic => ?_⟩,
    fun c => hextends.messages c.responseTopic, by simp⟩
  · exact ofMachine_of_migfra ((hfind c).mp hc)
  · rcases List.mem_cons.mp ((hsubscribed topic).mp htopic) with rfl | htopic
    · decide
    · exact resultTopics_compile backend hnames topic htopic

/-- After the subscriptions of `main`, the answers of every agent are heard. -/
theorem main_ready (hnames : Named machines)
    (hready : Ready machines (fun c => ∃ machine ∈ machines, c = .migfra machine) comm echoes) :
    Ready machines (OfMachine machines) (subscribeAll (mainTopics machines) comm) echoes := by
  have hextends := subscribeAll_extends (mainTopics machines) comm
  refine ⟨⟨hextends.connected.trans hready.tuned.connected, fun c hc => ?_, fun c hc => ?_,
    fun topic htopic => ?_⟩, fun c => (hextends.messages _).trans (hready.empty c), hready.echoes⟩
  · rw [hextends.find]
    cases c with
    | migfra machine => exact .inl (hready.tuned.hears _ ⟨machine, hc, rfl⟩)
    | mmbwmon machine => exact .inr (List.mem_map.mpr ⟨machine, hc, rfl⟩)
  · rw [hextends.find] at hc
    rcases hc with hc | hc
    · exact hready.tuned.known c hc
    · obtain ⟨machine, hmachine, htopic⟩ := List.mem_map.mp hc
      rw [← responseTopic_injective htopic]
      exact hmachine
  · rcases (hextends.find topic).mp htopic with htopic | htopic
    · exact hready.tuned.plain topic htopic
    · obtain ⟨machine, hmachine, rfl⟩ := List.mem_map.mp htopic
      exact responseTopic_compiles (c := .mmbwmon machine) (hnames machine hmachine)

end Program

/-- The names being distinguishable, `init` and then everything the schedulers ask for and
`dismantle`, in an interleaving with the agents and with the requests that come back:
every operation reads the answers to its own requests, none is left over, nothing is
thrown, and everything can be done. -/
theorem answers_over_topics {R : StdRegex} {machines : List String} {backend : Backend}
    {calls : List Call} {exchanges : List Exchange}
    {requests : List (Channel × Messages.TaskContainer)}
    (hnames : Distinguishable machines) (hrequests : StartRequests machines requests backend)
    (hmachines : ∀ call ∈ calls, call.controller.machines = machines)
    (hcalls : calls.mapM Call.exchange = .ok exchanges) {s : Link}
    (hs : (link R (startUp backend machines) []
      (initOperations machines requests backend)).Reachable s) :
    s.Sound (link R (startUp backend machines) [] (initOperations machines requests backend)) ∧
      (s.events = [] → s.rest = [] → ∀ s',
        (link R (subscribeAll (mainTopics machines) s.comm) s.echoes
          (exchanges.map Exchange.events ++ dismantleOperations machines backend)).Reachable s' →
        s'.Sound (link R (subscribeAll (mainTopics machines) s.comm) s.echoes
          (exchanges.map Exchange.events ++ dismantleOperations machines backend))) := by
  have hready := startUp_ready backend hnames.names
  have hinit := initOperations_concern hrequests
  have hsound := link_sound hnames hready (fun events hevents => (hinit events hevents).within)
    (fun events hevents => (hinit events hevents).matched) hs
  refine ⟨hsound, fun hevents _ s' hs' => ?_⟩
  have htuned := link_tuned hready (fun events hevents => (hinit events hevents).within) hs
  have hagain : Ready machines (fun c => ∃ machine ∈ machines, c = .migfra machine) s.comm
      s.echoes := by
    refine ⟨htuned.comm, fun c => ?_, htuned.echoes⟩
    exact List.map_eq_nil_iff.mp (hsound.quiet hevents c).2
  have hready' := main_ready hnames.names hagain
  have hoperations : ∀ events ∈ exchanges.map Exchange.events ++
      dismantleOperations machines backend,
      Within (OfMachine machines) events ∧ Matched events := by
    intro events hevents
    rcases List.mem_append.mp hevents with hevents | hevents
    · obtain ⟨exchange, hexchange, rfl⟩ := List.mem_map.mp hevents
      obtain ⟨call, hcall, hok⟩ := exists_of_forall₂ (mapM_eq_ok_iff.mp hcalls).flip hexchange
      have hanswered := exchange_answered hok
      refine ⟨hanswered.within ?_, hanswered.matched⟩
      rw [← hmachines call hcall]
      exact replies_within hok
    · have hconcerns := dismantleOperations_concern events hevents
      exact ⟨fun event hevent => ofMachine_of_migfra (hconcerns.within event hevent),
        hconcerns.matched⟩
  exact link_sound hnames hready' (fun events hevents => (hoperations events hevents).1)
    (fun events hevents => (hoperations events hevents).2) hs'

/-- Two machines with dots in their names, which differ in another place. -/
def dottedMachines : Controller :=
  { sharedMachines with machines := ["n1.local", "n2.local"] }

theorem dottedMachines_distinguishable : Distinguishable dottedMachines.machines where
  names := by
    intro machine hmachine
    simp only [dottedMachines, List.mem_cons, List.not_mem_nil, or_false] at hmachine
    rcases hmachine with rfl | rfl <;> exact isName_of_all rfl
  apart := by
    intro machine hmachine other hother h
    simp only [dottedMachines, List.mem_cons, List.not_mem_nil, or_false] at hmachine hother
    rcases hmachine with rfl | rfl <;> rcases hother with rfl | rfl
    · rfl
    · exact absurd (standsFor_getElem? (i := 1) (c := '1') (by decide) h (by decide)) (by decide)
    · exact absurd (standsFor_getElem? (i := 1) (c := '2') (by decide) h (by decide)) (by decide)
    · rfl

/-- Between the start and the stop of the virtual machines, a job is frozen on both machines
and its neighbours are measured. -/
theorem answers_over_topics_dotted : ∃ requests vmLocations exchanges,
    Vm.startAll (fun _ => "<domain><name>v</name></domain>") (fun _ => "") 1
      dottedMachines.machines [⟨"v", ""⟩, ⟨"w", ""⟩] = .ok (requests, vmLocations) ∧
    [Call.mk (.freeze 0) .vm dottedMachines [["v", "w"], ["x", "y"]],
      ⟨.runDistgen 0, .vm, dottedMachines, []⟩].mapM Call.exchange = .ok exchanges ∧
    exchanges.map Exchange.replies =
      [[.migfra "n1.local", .migfra "n2.local"], [.mmbwmon "n1.local", .mmbwmon "n2.local"]] ∧
    ∃ s, (link .plain (startUp .vm dottedMachines.machines) []
        (initOperations dottedMachines.machines requests .vm)).Reachable s ∧
      s.events = [] ∧ s.rest = [] ∧
      ∃ s', (link .plain (subscribeAll (mainTopics dottedMachines.machines) s.comm) s.echoes
          (exchanges.map Exchange.events ++
            dismantleOperations dottedMachines.machines .vm)).Reachable s' ∧
        s'.events = [] ∧ s'.rest = [] ∧ ∀ read ∈ s'.reads, read.2 = read.1 := by
  have hrun : ([Call.mk (.freeze 0) .vm dottedMachines [["v", "w"], ["x", "y"]],
      ⟨.runDistgen 0, .vm, dottedMachines, []⟩].mapM Call.exchange).map
        (fun exchanges => exchanges.map Exchange.replies) = .ok
      [[.migfra "n1.local", .migfra "n2.local"], [.mmbwmon "n1.local", .mmbwmon "n2.local"]] := by
    decide +kernel
  obtain ⟨exchanges, hexchanges, hreplies⟩ := map_eq_ok.mp hrun
  obtain ⟨⟨requests, vmLocations⟩, hstart⟩ :=
    (Vm.startAll_ok_iff (fun _ => "<domain><name>v</name></domain>") fun _ => "").mpr
      (show dottedMachines.machines.length * 1 ≤
        [(⟨"v", ""⟩ : Vm.PoolElem), ⟨"w", ""⟩].length by decide)
  have hsound := fun (s : Link) hs => @answers_over_topics .plain _ .vm _ _ requests
    dottedMachines_distinguishable (fun _ => ⟨_, _, _, _, _, hstart⟩) (by simp) hexchanges s hs
  refine ⟨requests, vmLocations, exchanges, hstart, hexchanges, hreplies, ?_⟩
  obtain ⟨s, hs, hevents, hrest⟩ := (hsound _ (.init rfl)).1.ends
  have hs := System.ReachableVia.append (.init rfl) hs
  obtain ⟨s', hs', hevents', hrest'⟩ := ((hsound s hs).2 hevents hrest _ (.init rfl)).ends
  have hs' := System.ReachableVia.append (.init rfl) hs'
  exact ⟨s, hs, hevents, hrest, s', hs', hevents', hrest',
    ((hsound s hs).2 hevents hrest s' hs').reads⟩

end Poncos
