import Poncos.Library.Refinement
import Poncos.Mqtt.Communicator
import Poncos.Schedulers.Responses

/-!
The operations over the client of the broker.  A request is published; its agent answers
on the topic of its own channel, and the client puts the answer into every queue whose
expression takes that topic.  The process has subscribed to the topics of its tasks as
well, so that they come back to it.
-/

namespace Poncos

open Poncos.Library
open Poncos.Library.Execution
open Poncos.Library.RequestReply
open Poncos.Library.Transition
open Poncos.Mqtt

def Channel.host : Channel → String
  | .migfra host => host
  | .mmbwmon host => host

def Channel.requestTopic : Channel → String
  | .migfra host => "fast/migfra/" ++ host ++ "/task"
  | .mmbwmon host => "fast/agent/" ++ host ++ "/mmbwmon/request"

/-- Every character of the topic a name is part of, in its place. -/
def NameStandsFor (name text : String) : Prop := List.Forall₂ StandsFor name.toList text.toList

/-- The names in the machine file have no wildcards but dots. -/
def Named (machines : List String) : Prop :=
  ∀ machine ∈ machines, ∀ c ∈ machine.toList, IsName c

/-- No name in the machine file stands for another one. -/
def Apart (machines : List String) : Prop :=
  ∀ machine ∈ machines, ∀ other ∈ machines, NameStandsFor machine other → machine = other

structure Distinguishable (machines : List String) : Prop where
  names : Named machines
  apart : Apart machines

theorem nameStandsFor_self {name : String} : NameStandsFor name name := by
  refine List.forall₂_same.mpr fun e he => ?_
  rw [StandsFor]
  split
  · rename_i hdot
    rw [hdot]
    decide
  · rfl

section Topics

variable {R : StdRegex} {subscription : Subscription Nat} {message : Mqtt.Message Nat}
  {c d : Channel}

theorem accepts_iff (h : ∀ c ∈ subscription.topic.toList, IsName c) :
    subscription.accepts R message = true ↔
      NameStandsFor subscription.topic message.topic := by
  obtain ⟨items, hitems, hmatch⟩ := regexMatch_name h
  rw [Subscription.accepts, R.spec hitems, beq_iff_eq, Option.some_inj, hmatch]
  rfl

theorem isName_of_all {text : String} (h : (text.toList.all fun c => decide (IsName c)) = true) :
    ∀ c ∈ text.toList, IsName c := by
  simpa using h

theorem responseTopic_isName (h : ∀ c ∈ d.host.toList, IsName c) :
    ∀ c ∈ d.responseTopic.toList, IsName c := by
  have htext : ∀ before after : String, (∀ c ∈ before.toList, IsName c) →
      (∀ c ∈ after.toList, IsName c) →
      ∀ c ∈ (before ++ d.host ++ after).toList, IsName c := by
    intro before after hbefore hafter c hc
    simp only [String.toList_append, List.mem_append] at hc
    rcases hc with (hc | hc) | hc
    · exact hbefore c hc
    · exact h c hc
    · exact hafter c hc
  cases d with
  | migfra host => exact htext "fast/migfra/" "/result" (isName_of_all rfl) (isName_of_all rfl)
  | mmbwmon host =>
      exact htext "fast/agent/" "/mmbwmon/response" (isName_of_all rfl) (isName_of_all rfl)

theorem nameStandsFor_append {before after name text : String} (hbefore : '.' ∉ before.toList)
    (hafter : '.' ∉ after.toList) :
    NameStandsFor (before ++ name ++ after) (before ++ text ++ after) ↔
      NameStandsFor name text := by
  simp only [NameStandsFor, String.toList_append]
  exact standsFor_append hbefore hafter

theorem not_nameStandsFor {s t u v : String} (i : Nat) {c : Char} (hc : c ≠ '.')
    (hs : s.toList[i]? = some c) (ht : i < t.toList.length) (hne : t.toList[i]? ≠ some c) :
    ¬ NameStandsFor (s ++ u) (t ++ v) := by
  intro h
  rw [NameStandsFor, String.toList_append, String.toList_append] at h
  have hi := standsFor_getElem? hc h
    (by rw [List.getElem?_append_left (List.getElem?_eq_some_iff.mp hs).1, hs])
  rw [List.getElem?_append_left ht] at hi
  exact hne hi

theorem not_nameStandsFor_last {s t u v : String} {c : Char} (hc : c ≠ '.')
    (hs : u.toList.getLast? = some c) (ht : v.toList ≠ []) (hne : v.toList.getLast? ≠ some c) :
    ¬ NameStandsFor (s ++ u) (t ++ v) := by
  intro h
  rw [NameStandsFor, String.toList_append, String.toList_append] at h
  have hu : u.toList ≠ [] := by
    intro hnil
    rw [hnil] at hs
    cases hs
  have hlast := standsFor_getLast? hc h (by rw [List.getLast?_append_of_ne_nil _ hu, hs])
  rw [List.getLast?_append_of_ne_nil _ ht] at hlast
  exact hne hlast

theorem responseTopic_standsFor :
    NameStandsFor d.responseTopic c.responseTopic ↔
      match d, c with
      | .migfra host, .migfra other => NameStandsFor host other
      | .mmbwmon host, .mmbwmon other => NameStandsFor host other
      | _, _ => False := by
  rcases d with host | host <;> rcases c with other | other
  · exact nameStandsFor_append (by decide) (by decide)
  · simp only [Channel.responseTopic, String.append_assoc, iff_false]
    exact not_nameStandsFor 5 (c := 'm') (by decide) (by decide) (by decide) (by decide)
  · simp only [Channel.responseTopic, String.append_assoc, iff_false]
    exact not_nameStandsFor 5 (c := 'a') (by decide) (by decide) (by decide) (by decide)
  · exact nameStandsFor_append (by decide) (by decide)

/-- No request is taken for an answer. -/
theorem responseTopic_not_request : ¬ NameStandsFor d.responseTopic c.requestTopic := by
  rcases d with host | host <;> rcases c with other | other
  · exact not_nameStandsFor_last (c := 't') (by decide) (by decide) (by decide) (by decide)
  · simp only [Channel.responseTopic, Channel.requestTopic, String.append_assoc]
    exact not_nameStandsFor 5 (c := 'm') (by decide) (by decide) (by decide) (by decide)
  · simp only [Channel.responseTopic, Channel.requestTopic, String.append_assoc]
    exact not_nameStandsFor 5 (c := 'a') (by decide) (by decide) (by decide) (by decide)
  · exact not_nameStandsFor_last (c := 'e') (by decide) (by decide) (by decide) (by decide)

end Topics

/-- `add_subscription` for one topic after the other. -/
def subscribeAll {α : Type} (topics : List String) (comm : Communicator α) :
    Communicator α :=
  topics.foldl (fun comm topic => comm.addSubscription topic) comm

/-- The topics of the constructor of the controller. -/
def controllerTopics (machines : List String) : List String :=
  machines.flatMap fun machine =>
    [(Channel.migfra machine).requestTopic, (Channel.migfra machine).responseTopic]

/-- The topics of the constructor of the controller for virtual machines. -/
def vmTopics (machines : List String) : List String :=
  machines.map fun machine => (Channel.migfra machine).responseTopic

/-- The topics of `main`. -/
def mainTopics (machines : List String) : List String :=
  machines.map fun machine => (Channel.mmbwmon machine).responseTopic

/-- The client as `main` makes it, with a connection, and then the controller. -/
def startUp (backend : Backend) (machines : List String) : Communicator Nat :=
  let comm := ((Communicator.create "fast/poncos").onConnect 0).addSubscription "fast/poncos"
  let comm := { comm with defaultSubscribeTopic := "fast/poncos" }
  let comm := subscribeAll (controllerTopics machines) comm
  match backend with
  | .cgroup => comm
  | .vm => subscribeAll (vmTopics machines) comm

/-- The operations as before, over a client.  `asked` are the requests whose answers are
still to arrive, and `echoes` the requests that may still come back. -/
structure Link where
  events : List (Event Channel)
  rest : List (List (Event Channel))
  number : Nat
  comm : Communicator Nat
  asked : Channel → List Nat
  echoes : List (Mqtt.Message Nat)
  reads : List (Nat × Nat)

inductive LinkAction where
  | proceed
  | answer (channel : Channel) (index : Nat)
  | echo (index : Nat)

/-- An exception ends the run; a call without a message waits. -/
def Mqtt.Refusal.fault : Refusal → Fault
  | .noConnection => .assertion
  | .unknownTopic => .outOfRange
  | .noMessage => .disabled

namespace Link

def proceed (s : Link) : Exec Link :=
  match s.events with
  | [] =>
      match s.rest with
      | [] => .error .disabled
      | events :: rest => .ok { s with events := events, rest := rest, number := s.number + 1 }
  | .send c :: events =>
      match s.comm.sendMessage s.number c.requestTopic with
      | .ok message =>
          .ok { s with
            events := events
            asked := Function.update s.asked c (s.asked c ++ [s.number])
            echoes := s.echoes ++ [message] }
      | .error refusal => .error refusal.fault
  | .receive c :: events =>
      match s.comm.getMessage c.responseTopic with
      | .ok result =>
          .ok { s with
            events := events
            comm := result.2
            reads := s.reads ++ [(s.number, result.1.payload)] }
      | .error refusal => .error refusal.fault

def answer (R : StdRegex) (c : Channel) (index : Nat) (s : Link) : Exec Link :=
  match (s.asked c)[index]? with
  | none => .error .disabled
  | some asker =>
      .ok { s with
        comm := s.comm.onMessage R ⟨c.responseTopic, asker⟩
        asked := Function.update s.asked c ((s.asked c).eraseIdx index) }

def echo (R : StdRegex) (index : Nat) (s : Link) : Exec Link :=
  match s.echoes[index]? with
  | none => .error .disabled
  | some message =>
      .ok { s with
        comm := s.comm.onMessage R message
        echoes := s.echoes.eraseIdx index }

def start (comm : Communicator Nat) (echoes : List (Mqtt.Message Nat))
    (operations : List (List (Event Channel))) : Link :=
  ⟨[], operations, 0, comm, fun _ => [], echoes, []⟩

end Link

def link (R : StdRegex) (comm : Communicator Nat) (echoes : List (Mqtt.Message Nat))
    (operations : List (List (Event Channel))) : System Link LinkAction where
  Init s := s = .start comm echoes operations
  step s
    | .proceed => s.proceed
    | .answer c index => s.answer R c index
    | .echo index => s.echo R index

/-- The answers on a channel that are still to be read, in the queue of its topic. -/
def Link.unread (s : Link) (c : Channel) : List Nat :=
  (s.comm.messagesOn c.responseTopic).map Mqtt.Message.payload

def Link.abstract (s : Link) : RequestReply.State Channel :=
  ⟨s.events, s.rest, s.number, s.asked, s.unread, s.reads⟩

/-- The client has a connection and the subscriptions for `channels`, all of which belong
to machines of the file, and no expression throws. -/
structure Tuned (machines : List String) (channels : Channel → Prop)
    (comm : Communicator Nat) : Prop where
  connected : comm.connected = true
  hears : ∀ c, channels c → comm.find c.responseTopic ≠ none
  known : ∀ c : Channel, comm.find c.responseTopic ≠ none → c.host ∈ machines
  plain : ∀ topic, comm.find topic ≠ none → topicToRegex topic ≠ none

section Tuned

variable {R : StdRegex} {machines : List String} {channels : Channel → Prop}
  {comm : Communicator Nat} {c d : Channel} {message : Mqtt.Message Nat}

theorem Tuned.host (h : Tuned machines channels comm) (hc : channels c) : c.host ∈ machines :=
  h.known c (h.hears c hc)

variable (R message) in
theorem Tuned.compares (h : Tuned machines channels comm) : comm.compares R message = true := by
  refine List.all_eq_true.mpr fun subscription hmem => ?_
  obtain ⟨items, hitems⟩ := Option.ne_none_iff_exists'.mp (h.plain subscription.topic
    fun hnone => Communicator.find_eq_none.mp hnone (List.mem_map_of_mem hmem))
  rw [R.spec hitems]
  rfl

theorem Tuned.onMessage (h : Tuned machines channels comm) :
    Tuned machines channels (comm.onMessage R message) := by
  have hfind : ∀ topic, (comm.onMessage R message).find topic ≠ none ↔
      comm.find topic ≠ none := by
    intro topic
    rw [Communicator.find_onMessage (h.compares R message), ne_eq, Option.map_eq_none_iff]
  refine ⟨?_, fun c hc => (hfind _).mpr (h.hears c hc), fun c hc => h.known c ((hfind _).mp hc),
    fun topic htopic => h.plain topic ((hfind topic).mp htopic)⟩
  rw [Communicator.onMessage, if_pos (h.compares R message)]
  exact h.connected

theorem Tuned.pop {topic : String} (h : Tuned machines channels comm) :
    Tuned machines channels
      (comm.update (Subscription.pop topic) fun _ => Subscription.pop_topic) := by
  have hfind : ∀ other, (comm.update (Subscription.pop topic)
      fun _ => Subscription.pop_topic).find other ≠ none ↔ comm.find other ≠ none := by
    intro other
    rw [Communicator.find_update, ne_eq, Option.map_eq_none_iff]
  exact ⟨h.connected, fun c hc => (hfind _).mpr (h.hears c hc),
    fun c hc => h.known c ((hfind _).mp hc),
    fun other hother => h.plain other ((hfind other).mp hother)⟩

variable (R message) in
theorem Tuned.accepts {subscription : Subscription Nat} (h : Tuned machines channels comm)
    (hnames : Named machines) (hfind : comm.find d.responseTopic = some subscription) :
    subscription.accepts R message = true ↔ NameStandsFor d.responseTopic message.topic := by
  have hd : d.host ∈ machines := h.known d (by simp [hfind])
  obtain ⟨_, htopic⟩ := Communicator.mem_of_find hfind
  rw [← htopic]
  refine accepts_iff ?_
  rw [htopic]
  exact responseTopic_isName (hnames d.host hd)

/-- An answer reaches the queue of its channel and no other queue of answers. -/
theorem Tuned.messagesOn_answer {asker : Nat} (h : Tuned machines channels comm)
    (hnames : Distinguishable machines) (hc : channels c) :
    (comm.onMessage R ⟨c.responseTopic, asker⟩).messagesOn d.responseTopic =
      comm.messagesOn d.responseTopic ++ if d = c then [⟨c.responseTopic, asker⟩] else [] := by
  rcases hfind : comm.find d.responseTopic with _ | subscription
  · have hne : d ≠ c := by
      rintro rfl
      exact h.hears d hc hfind
    rw [Communicator.messagesOn_of_none hfind, if_neg hne]
    refine Communicator.messagesOn_of_none ?_
    rw [Communicator.find_onMessage (h.compares R _), hfind]
    rfl
  · have hd : d.host ∈ machines := h.known d (by simp [hfind])
    have haccepts := h.accepts R ⟨c.responseTopic, asker⟩ hnames.names hfind
    have hsame : NameStandsFor d.responseTopic c.responseTopic ↔ d = c := by
      rw [responseTopic_standsFor]
      have hhost := h.host hc
      rcases d with host | host <;> rcases c with other | other
      · exact ⟨fun hname => congrArg _ (hnames.apart _ hd _ hhost hname),
          fun heq => Channel.migfra.inj heq ▸ nameStandsFor_self⟩
      · simp
      · simp
      · exact ⟨fun hname => congrArg _ (hnames.apart _ hd _ hhost hname),
          fun heq => Channel.mmbwmon.inj heq ▸ nameStandsFor_self⟩
    rw [Communicator.messagesOn_onMessage (h.compares R _) hfind]
    rw [hsame] at haccepts
    rcases Classical.em (d = c) with heq | hne
    · rw [if_pos heq, List.filter_singleton, haccepts.mpr heq]
      rfl
    · rw [if_neg hne, List.filter_singleton,
        Bool.eq_false_iff.mpr fun haccept => hne (haccepts.mp haccept)]
      rfl

/-- A request that comes back is in no queue of answers. -/
theorem Tuned.messagesOn_request (h : Tuned machines channels comm)
    (hnames : Distinguishable machines) (hmessage : message.topic = c.requestTopic) :
    (comm.onMessage R message).messagesOn d.responseTopic = comm.messagesOn d.responseTopic := by
  rcases hfind : comm.find d.responseTopic with _ | subscription
  · rw [Communicator.messagesOn_of_none hfind]
    refine Communicator.messagesOn_of_none ?_
    rw [Communicator.find_onMessage (h.compares R _), hfind]
    rfl
  · have haccepts := h.accepts R message hnames.names hfind
    rw [hmessage] at haccepts
    rw [Communicator.messagesOn_onMessage (h.compares R _) hfind, List.filter_singleton,
      Bool.eq_false_iff.mpr fun haccept => responseTopic_not_request (haccepts.mp haccept)]
    exact List.append_nil _

end Tuned

def eventChannel : Event Channel → Channel
  | .send c => c
  | .receive c => c

/-- Operations on `channels` only. -/
def Within (channels : Channel → Prop) (events : List (Event Channel)) : Prop :=
  ∀ event ∈ events, channels (eventChannel event)

structure Link.Tuned (machines : List String) (channels : Channel → Prop) (s : Link) : Prop where
  comm : Poncos.Tuned machines channels s.comm
  events : Within channels s.events
  rest : ∀ events ∈ s.rest, Within channels events
  asked : ∀ c, s.asked c ≠ [] → channels c
  echoes : ∀ message ∈ s.echoes, ∃ c : Channel, message.topic = c.requestTopic

section Steps

variable {R : StdRegex} {machines : List String} {channels : Channel → Prop}
  {comm : Communicator Nat} {echoes : List (Mqtt.Message Nat)}
  {operations : List (List (Event Channel))}
  {s s' : Link} {c : Channel} {index : Nat}

theorem sendMessage_of_connected {payload : Nat} {topic : String} (h : comm.connected = true)
    (htopic : topic ≠ "") : comm.sendMessage payload topic = .ok ⟨topic, payload⟩ := by
  rw [Communicator.sendMessage, if_pos h, if_neg htopic]

theorem requestTopic_ne_empty : c.requestTopic ≠ "" := by
  intro h
  have h := congrArg (fun text : String => text.toList.length) h
  cases c <;> simp [Channel.requestTopic] at h

theorem Link.Tuned.answer (h : s.Tuned machines channels) (hstep : s.answer R c index = .ok s') :
    s'.Tuned machines channels := by
  unfold Link.answer at hstep
  split at hstep
  · cases hstep
  · rename_i asker hasker
    cases hstep
    refine ⟨h.comm.onMessage, h.events, h.rest, fun d hd => ?_, h.echoes⟩
    rcases eq_or_ne d c with rfl | hne
    · refine h.asked d fun hnil => ?_
      rw [hnil] at hasker
      cases hasker
    · dsimp only at hd
      rw [Function.update_of_ne hne] at hd
      exact h.asked d hd

theorem Link.Tuned.echo (h : s.Tuned machines channels) (hstep : s.echo R index = .ok s') :
    s'.Tuned machines channels := by
  unfold Link.echo at hstep
  split at hstep
  · cases hstep
  · cases hstep
    exact ⟨h.comm.onMessage, h.events, h.rest, h.asked,
      fun message hmessage => h.echoes message (List.mem_of_mem_eraseIdx hmessage)⟩

theorem Link.Tuned.proceed (h : s.Tuned machines channels) (hstep : s.proceed = .ok s') :
    s'.Tuned machines channels := by
  unfold Link.proceed at hstep
  split at hstep
  · split at hstep
    · cases hstep
    · rename_i events rest hrest
      cases hstep
      have hwithin := h.rest
      rw [hrest, List.forall_mem_cons] at hwithin
      exact ⟨h.comm, hwithin.1, hwithin.2, h.asked, h.echoes⟩
  · rename_i d events hevents
    have hwithin := h.events
    rw [hevents, Within, List.forall_mem_cons] at hwithin
    rw [sendMessage_of_connected h.comm.connected requestTopic_ne_empty] at hstep
    cases hstep
    refine ⟨h.comm, hwithin.2, h.rest, fun e he => ?_, fun message hmessage => ?_⟩
    · rcases eq_or_ne e d with rfl | hne
      · exact hwithin.1
      · dsimp only at he
        rw [Function.update_of_ne hne] at he
        exact h.asked e he
    · rcases List.mem_append.mp hmessage with hmessage | hmessage
      · exact h.echoes message hmessage
      · exact ⟨d, by rw [List.mem_singleton.mp hmessage]⟩
  · rename_i d events hevents
    have hwithin := h.events
    rw [hevents, Within, List.forall_mem_cons] at hwithin
    split at hstep
    · rename_i result hresult
      cases hstep
      obtain ⟨_, _, _, _, _, hcomm⟩ := Communicator.getMessage_ok hresult
      refine ⟨?_, hwithin.2, h.rest, h.asked, h.echoes⟩
      dsimp only
      rw [hcomm]
      exact h.comm.pop
    · cases hstep

theorem Link.Tuned.step {action : LinkAction} (h : s.Tuned machines channels)
    (hstep : (link R comm echoes operations).step s action = .ok s') :
    s'.Tuned machines channels := by
  cases action with
  | proceed => exact h.proceed hstep
  | answer c index => exact h.answer hstep
  | echo index => exact h.echo hstep

/-- A subscribed topic is read as its queue says. -/
theorem getMessage_response (h : Tuned machines channels comm) (hc : channels c) :
    comm.getMessage c.responseTopic =
      match comm.messagesOn c.responseTopic with
      | [] => .error .noMessage
      | message :: _ =>
          .ok (message, comm.update (Subscription.pop c.responseTopic)
            fun _ => Subscription.pop_topic) := by
  obtain ⟨subscription, hfind⟩ := Option.ne_none_iff_exists'.mp (h.hears c hc)
  rw [Communicator.getMessage, if_pos h.connected, Communicator.messagesOn_of_some hfind]
  simp only [hfind]
  cases subscription.messages <;> rfl

theorem Link.Tuned.proceed_abstract (h : s.Tuned machines channels) :
    s.proceed.map Link.abstract = RequestReply.proceed s.abstract := by
  unfold Link.proceed RequestReply.proceed
  rcases hevents : s.events with _ | ⟨d | d, events⟩
  · rcases hrest : s.rest with _ | ⟨next, rest⟩
    · simp [Link.abstract, hevents, hrest, Except.map]
    · simp [Link.abstract, hevents, hrest, Except.map]
      rfl
  · simp only [sendMessage_of_connected h.comm.connected requestTopic_ne_empty, Link.abstract,
      hevents, Except.map]
    rfl
  · have hwithin := h.events
    rw [hevents, Within, List.forall_mem_cons] at hwithin
    have hget := getMessage_response h.comm (show channels d from hwithin.1)
    rcases hmessages : s.comm.messagesOn d.responseTopic with _ | ⟨message, more⟩
    · rw [hmessages] at hget
      simp [Link.abstract, Link.unread, hevents, hget, hmessages, Except.map, Refusal.fault]
    · rw [hmessages] at hget
      have hunread : ∀ e : Channel,
          ((s.comm.update (Subscription.pop d.responseTopic)
            fun _ => Subscription.pop_topic).messagesOn e.responseTopic).map
              Mqtt.Message.payload =
          Function.update s.unread d (more.map Mqtt.Message.payload) e := by
        intro e
        rw [Communicator.messagesOn_pop]
        rcases eq_or_ne e d with rfl | hne
        · rw [if_pos rfl, Function.update_self, hmessages, List.tail_cons]
        · rw [if_neg fun htopic => hne (responseTopic_injective htopic),
            Function.update_of_ne hne]
          rfl
      have hqueue : s.unread d = message.payload :: more.map Mqtt.Message.payload := by
        rw [Link.unread, hmessages, List.map_cons]
      simp only [Link.abstract, hevents, hget, hqueue, Except.map, ← funext hunread]
      rfl

theorem Link.Tuned.answer_abstract (h : s.Tuned machines channels)
    (hnames : Distinguishable machines) :
    (s.answer R c index).map Link.abstract = RequestReply.answer c index s.abstract := by
  unfold Link.answer RequestReply.answer
  rcases hasker : (s.asked c)[index]? with _ | asker
  · simp [Link.abstract, hasker, Except.map]
  · have hc : channels c := by
      refine h.asked c fun hnil => ?_
      rw [hnil] at hasker
      cases hasker
    have hunread : ∀ e : Channel,
        ((s.comm.onMessage R ⟨c.responseTopic, asker⟩).messagesOn e.responseTopic).map
          Mqtt.Message.payload =
        Function.update s.unread c (s.unread c ++ [asker]) e := by
      intro e
      rw [h.comm.messagesOn_answer hnames hc, List.map_append]
      rcases eq_or_ne e c with rfl | hne
      · rw [if_pos rfl, Function.update_self]
        rfl
      · rw [if_neg hne, Function.update_of_ne hne]
        exact List.append_nil _
    simp only [Link.abstract, hasker, Except.map, ← funext hunread]
    rfl

theorem Link.Tuned.echo_abstract (h : s.Tuned machines channels)
    (hnames : Distinguishable machines) (hstep : s.echo R index = .ok s') :
    s'.abstract = s.abstract := by
  unfold Link.echo at hstep
  split at hstep
  · cases hstep
  · rename_i message hmessage
    cases hstep
    obtain ⟨c, htopic⟩ := h.echoes message (List.mem_of_getElem? hmessage)
    have hunread : Link.unread { s with
        comm := s.comm.onMessage R message
        echoes := s.echoes.eraseIdx index } = s.unread := by
      funext e
      rw [Link.unread, h.comm.messagesOn_request hnames htopic]
      rfl
    rw [Link.abstract, hunread]
    rfl

/-- What a state needs for the operations to begin. -/
structure Ready (machines : List String) (channels : Channel → Prop)
    (comm : Communicator Nat) (echoes : List (Mqtt.Message Nat)) : Prop where
  tuned : Tuned machines channels comm
  empty : ∀ c : Channel, comm.messagesOn c.responseTopic = []
  echoes : ∀ message ∈ echoes, ∃ c : Channel, message.topic = c.requestTopic

theorem link_tuned (hready : Ready machines channels comm echoes)
    (hwithin : ∀ events ∈ operations, Within channels events)
    (hs : (link R comm echoes operations).Reachable s) : s.Tuned machines channels := by
  refine hs.invariant ?_ fun _ _ _ _ hinv _ hstep => hinv.step hstep
  rintro _ rfl
  exact ⟨hready.tuned, by simp [Within, Link.start], hwithin, fun c hc => absurd rfl hc,
    hready.echoes⟩

/-- Over the client, the operations do what they do over channels that are apart. -/
theorem link_refines (hnames : Distinguishable machines)
    (hready : Ready machines channels comm echoes)
    (hwithin : ∀ events ∈ operations, Within channels events) :
    (link R comm echoes operations).Refines (RequestReply.system operations)
      (fun _ _ => True) Link.abstract where
  init := by
    rintro _ rfl
    have hunread : (Link.start comm echoes operations).unread = fun _ => [] := by
      funext c
      rw [Link.unread, Link.start, hready.empty c]
      rfl
    rw [Link.abstract, hunread]
    rfl
  step s action s' hs hstep := by
    have h := link_tuned hready hwithin hs
    cases action with
    | proceed =>
        refine .inr ⟨.proceed, trivial, ?_⟩
        change RequestReply.proceed s.abstract = _
        rw [← h.proceed_abstract, show s.proceed = .ok s' from hstep]
        rfl
    | answer c index =>
        refine .inr ⟨.answer c index, trivial, ?_⟩
        change RequestReply.answer c index s.abstract = _
        rw [← h.answer_abstract hnames, show s.answer R c index = .ok s' from hstep]
        rfl
    | echo index => exact .inl (h.echo_abstract hnames hstep)

theorem link_follows (hnames : Distinguishable machines)
    (hready : Ready machines channels comm echoes)
    (hwithin : ∀ events ∈ operations, Within channels events) :
    (link R comm echoes operations).Follows (RequestReply.system operations) Link.abstract := by
  intro s action t hs hstep
  have h := link_tuned hready hwithin hs
  have hnow : ((link R comm echoes operations).startingAt s).Reachable s := .init rfl
  cases action with
  | proceed =>
      change RequestReply.proceed s.abstract = .ok t at hstep
      rw [← h.proceed_abstract, map_eq_ok] at hstep
      obtain ⟨s', hstep, habs⟩ := hstep
      exact ⟨s', .step (i := .proceed) hnow trivial hstep, habs⟩
  | answer c index =>
      change RequestReply.answer c index s.abstract = .ok t at hstep
      rw [← h.answer_abstract hnames, map_eq_ok] at hstep
      obtain ⟨s', hstep, habs⟩ := hstep
      exact ⟨s', .step (i := .answer c index) hnow trivial hstep, habs⟩

end Steps

end Poncos
