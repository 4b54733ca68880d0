import Mathlib.Data.List.Nodup
import Poncos.Library.History
import Poncos.Mqtt.Topics

/-!
The client of the message broker.  It keeps a queue of messages for every subscribed
topic; the thread of the client library fills the queues, and the reader of a topic takes
the messages from its own queue.
-/

namespace Poncos.Mqtt

open Poncos.Library.Execution
open Poncos.Library.Transition

structure Message (α : Type) where
  topic : String
  payload : α
  deriving DecidableEq, Repr

/-- `std::regex` on the expressions made from topics: what `regex_match` gives for the
topic of a message, or nothing if an exception is thrown.  Known is what becomes of the
topics without other syntax characters. -/
structure StdRegex where
  accepts : String → String → Option Bool
  spec : ∀ {topic items}, topicToRegex topic = some items →
    ∀ text, accepts topic text = some (regexMatch items text.toList)

/-- `MQTT_subscription_get` under its topic; the expression is made anew from the topic
for every message. -/
structure Subscription (α : Type) where
  topic : String
  messages : List (Message α)
  deriving DecidableEq, Repr

namespace Subscription

variable {α : Type} {R : StdRegex}

def accepts (R : StdRegex) (subscription : Subscription α) (message : Message α) : Bool :=
  R.accepts subscription.topic message.topic == some true

def receive (R : StdRegex) (message : Message α) (subscription : Subscription α) :
    Subscription α :=
  if subscription.accepts R message then
    { subscription with messages := subscription.messages ++ [message] }
  else subscription

@[simp] theorem receive_topic {message : Message α} {subscription : Subscription α} :
    (subscription.receive R message).topic = subscription.topic := by
  unfold receive
  split <;> rfl

@[simp] theorem receive_accepts {message : Message α} {subscription : Subscription α} :
    (subscription.receive R message).accepts R = subscription.accepts R := by
  unfold receive
  split <;> rfl

theorem receive_messages {message : Message α} {subscription : Subscription α} :
    (subscription.receive R message).messages =
      subscription.messages ++ [message].filter (subscription.accepts R) := by
  unfold receive
  split <;> simp [*]

/-- The queue of `topic` loses its first message. -/
def pop (topic : String) (subscription : Subscription α) : Subscription α :=
  if subscription.topic = topic then
    { subscription with messages := subscription.messages.tail }
  else subscription

@[simp] theorem pop_topic {topic : String} {subscription : Subscription α} :
    (subscription.pop topic).topic = subscription.topic := by
  unfold pop
  split <;> rfl

@[simp] theorem pop_accepts {topic : String} {subscription : Subscription α} :
    (subscription.pop topic).accepts R = subscription.accepts R := by
  unfold pop
  split <;> rfl

theorem pop_messages {subscription : Subscription α} :
    (subscription.pop subscription.topic).messages = subscription.messages.tail := by
  rw [pop, if_pos rfl]

theorem pop_of_ne {topic : String} {subscription : Subscription α}
    (h : subscription.topic ≠ topic) : subscription.pop topic = subscription := by
  rw [pop, if_neg h]

end Subscription

structure Communicator (α : Type) where
  defaultSubscribeTopic : String
  defaultPublishTopic : String
  connected : Bool
  subscriptions : List (Subscription α)
  unique : (subscriptions.map Subscription.topic).Nodup

/-- What a call throws; a call without a timeout waits where one with a timeout throws. -/
inductive Refusal where
  | noConnection
  | unknownTopic
  | noMessage
  deriving DecidableEq, Repr

def Refusal.what : Refusal → String
  | .noConnection => "No connection established."
  | .unknownTopic => "Topic not found in subscriptions."
  | .noMessage => "Timeout while waiting for message."

namespace Communicator

variable {α : Type} {R : StdRegex}

/-- The constructor, before it connects. -/
def create (publishTopic : String) : Communicator α where
  defaultSubscribeTopic := ""
  defaultPublishTopic := publishTopic
  connected := false
  subscriptions := []
  unique := List.nodup_nil

def onConnect (rc : Nat) (c : Communicator α) : Communicator α :=
  if rc = 0 then { c with connected := true } else c

def onDisconnect (c : Communicator α) : Communicator α := { c with connected := false }

/-- The subscriptions one by one, each under its topic as before. -/
def update (f : Subscription α → Subscription α) (hf : ∀ s, (f s).topic = s.topic)
    (c : Communicator α) : Communicator α :=
  { c with
    subscriptions := c.subscriptions.map f
    unique := by
      have htopics : Subscription.topic ∘ f = Subscription.topic := funext hf
      rw [List.map_map, htopics]
      exact c.unique }

def find (c : Communicator α) (topic : String) : Option (Subscription α) :=
  c.subscriptions.find? fun subscription => subscription.topic == topic

def messagesOn (c : Communicator α) (topic : String) : List (Message α) :=
  match c.find topic with
  | none => []
  | some subscription => subscription.messages

theorem find_eq_none {c : Communicator α} {topic : String} :
    c.find topic = none ↔ topic ∉ c.subscriptions.map Subscription.topic := by
  simp [find, List.find?_eq_none]

/-- `add_subscription`, where `emplace` leaves a topic that is there alone. -/
def addSubscription (topic : String) (c : Communicator α) : Communicator α :=
  if hfind : c.find topic = none then
    { c with
      subscriptions := c.subscriptions ++ [⟨topic, []⟩]
      unique := by
        rw [List.map_append, List.nodup_append]
        refine ⟨c.unique, by simp, ?_⟩
        rintro _ hmem _ hnew rfl
        rw [List.map_singleton, List.mem_singleton] at hnew
        rw [hnew] at hmem
        exact find_eq_none.mp hfind hmem }
  else c

def removeSubscription (topic : String) (c : Communicator α) : Communicator α :=
  { c with
    subscriptions := c.subscriptions.filter fun subscription => subscription.topic != topic
    unique := c.unique.sublist (List.Sublist.map _ List.filter_sublist) }

/-- Every subscribed topic is compared with the topic of a message. -/
def compares (R : StdRegex) (message : Message α) (c : Communicator α) : Bool :=
  c.subscriptions.all fun subscription => (R.accepts subscription.topic message.topic).isSome

/-- A message without a matching subscription is dropped.  What one expression throws is
caught before the message was added to any queue. -/
def onMessage (R : StdRegex) (message : Message α) (c : Communicator α) : Communicator α :=
  if c.compares R message then
    c.update (Subscription.receive R message) fun _ => Subscription.receive_topic
  else c

/-- What is published. -/
def sendMessage (payload : α) (topic : String) (c : Communicator α) :
    Except Refusal (Message α) :=
  if c.connected then .ok ⟨if topic = "" then c.defaultPublishTopic else topic, payload⟩
  else .error .noConnection

def getMessage (topic : String) (c : Communicator α) :
    Except Refusal (Message α × Communicator α) :=
  if c.connected then
    match c.find topic with
    | none => .error .unknownTopic
    | some subscription =>
        match subscription.messages with
        | [] => .error .noMessage
        | message :: _ =>
            .ok (message, c.update (Subscription.pop topic) fun _ => Subscription.pop_topic)
  else .error .noConnection

section Lookup

variable {c c' : Communicator α} {topic : String} {subscription : Subscription α}

theorem mem_of_find (h : c.find topic = some subscription) :
    subscription ∈ c.subscriptions ∧ subscription.topic = topic :=
  ⟨List.mem_of_find?_eq_some h, by simpa using List.find?_some h⟩

theorem mem_update {f : Subscription α → Subscription α} {hf : ∀ s, (f s).topic = s.topic} :
    subscription ∈ (c.update f hf).subscriptions ↔ ∃ s ∈ c.subscriptions, f s = subscription :=
  List.mem_map

theorem find_update {f : Subscription α → Subscription α} {hf : ∀ s, (f s).topic = s.topic} :
    (c.update f hf).find topic = (c.find topic).map f := by
  rw [find, update, List.find?_map]
  simp only [Function.comp_def, hf]
  rfl

theorem addSubscription_new (h : c.find topic = none) :
    (c.addSubscription topic).subscriptions = c.subscriptions ++ [⟨topic, []⟩] := by
  rw [addSubscription, dif_pos h]

theorem addSubscription_again (h : c.find topic ≠ none) : c.addSubscription topic = c := by
  rw [addSubscription, dif_neg h]

@[simp] theorem addSubscription_connected :
    (c.addSubscription topic).connected = c.connected := by
  unfold addSubscription
  split <;> rfl

theorem getMessage_ok {message : Message α} (h : c.getMessage topic = .ok (message, c')) :
    c.connected = true ∧ ∃ subscription rest, c.find topic = some subscription ∧
      subscription.messages = message :: rest ∧
      c' = c.update (Subscription.pop topic) fun _ => Subscription.pop_topic := by
  unfold getMessage at h
  split at h
  · rename_i hconnected
    split at h
    · cases h
    · rename_i subscription hfind
      split at h
      · cases h
      · rename_i rest hmessages
        cases h
        exact ⟨hconnected, subscription, rest, hfind, hmessages, rfl⟩
  · cases h

theorem messagesOn_of_none (h : c.find topic = none) : c.messagesOn topic = [] := by
  rw [messagesOn, h]

theorem messagesOn_of_some (h : c.find topic = some subscription) :
    c.messagesOn topic = subscription.messages := by
  rw [messagesOn, h]

theorem find_onMessage {message : Message α} (h : c.compares R message = true) :
    (c.onMessage R message).find topic =
      (c.find topic).map (Subscription.receive R message) := by
  rw [onMessage, if_pos h, find_update]

theorem messagesOn_onMessage {message : Message α} (h : c.compares R message = true)
    (hfind : c.find topic = some subscription) :
    (c.onMessage R message).messagesOn topic =
      c.messagesOn topic ++ [message].filter (subscription.accepts R) := by
  have hnew : (c.onMessage R message).find topic = some (subscription.receive R message) := by
    rw [find_onMessage h, hfind]
    rfl
  rw [messagesOn_of_some hnew, messagesOn_of_some hfind, Subscription.receive_messages]

theorem messagesOn_pop {other : String} :
    (c.update (Subscription.pop topic) fun _ => Subscription.pop_topic).messagesOn other =
      if other = topic then (c.messagesOn other).tail else c.messagesOn other := by
  rw [messagesOn, find_update, messagesOn]
  rcases hfind : c.find other with _ | found
  · simp
  · obtain ⟨_, rfl⟩ := mem_of_find hfind
    dsimp only [Option.map_some]
    split
    · rename_i htopic
      rw [← htopic, Subscription.pop_messages]
    · rename_i htopic
      rw [Subscription.pop_of_ne htopic]

end Lookup

end Communicator

/-- What the threads of the process and the thread of the client library do. -/
inductive Action (α : Type) where
  | subscribe (topic : String)
  | unsubscribe (topic : String)
  | arrive (message : Message α)
  | read (topic : String)
  | connect (rc : Nat)
  | disconnect

def client {α : Type} (R : StdRegex) (publishTopic : String) :
    System (Communicator α) (Action α) where
  Init c := c = .create publishTopic
  step c
    | .subscribe topic => .ok (c.addSubscription topic)
    | .unsubscribe topic => .ok (c.removeSubscription topic)
    | .arrive message => .ok (c.onMessage R message)
    | .read topic =>
        match c.getMessage topic with
        | .ok result => .ok result.2
        | .error _ => .error .disabled
    | .connect rc => .ok (c.onConnect rc)
    | .disconnect => .ok c.onDisconnect

/-- What was read from a topic since its subscription, and all that has arrived, with
whether every subscribed topic was compared with it. -/
structure Traffic (α : Type) where
  arrived : List (Message α × Bool)
  taken : List (Message α)

def observe {α : Type} (R : StdRegex) (c : Communicator α) (action : Action α)
    (h : String → Traffic α) : String → Traffic α :=
  match action with
  | .subscribe topic =>
      if (c.find topic).isSome then h else Function.update h topic ⟨[], []⟩
  | .arrive message => fun topic =>
      { h topic with arrived := (h topic).arrived ++ [(message, c.compares R message)] }
  | .read topic =>
      match c.getMessage topic with
      | .ok result =>
          Function.update h topic { h topic with taken := (h topic).taken ++ [result.1] }
      | .error _ => h
  | _ => h

/-- What of the arrived messages is for a subscription. -/
def Traffic.due {α : Type} (R : StdRegex) (traffic : Traffic α)
    (subscription : Subscription α) : List (Message α) :=
  ((traffic.arrived.filter Prod.snd).map Prod.fst).filter (subscription.accepts R)

/-- The messages read from a topic and those still to be read are the matching ones that
arrived. -/
def Accounted {α : Type} (R : StdRegex) (c : Communicator α) (h : String → Traffic α) : Prop :=
  ∀ subscription ∈ c.subscriptions,
    (h subscription.topic).taken ++ subscription.messages =
      (h subscription.topic).due R subscription

section Accounted

variable {α : Type} {R : StdRegex} {c c' : Communicator α} {h : String → Traffic α}

theorem Accounted.subscribe {topic : String} (hc : Accounted R c h) :
    Accounted R (c.addSubscription topic) (observe R c (.subscribe topic) h) := by
  rcases Classical.em (c.find topic = none) with hfind | hfind
  · rw [observe, hfind, if_neg (by simp)]
    intro subscription hmem
    rw [Communicator.addSubscription_new hfind, List.mem_append, List.mem_singleton] at hmem
    rcases hmem with hmem | rfl
    · have hne : subscription.topic ≠ topic := by
        rintro rfl
        exact Communicator.find_eq_none.mp hfind (List.mem_map_of_mem hmem)
      rw [Function.update_of_ne hne]
      exact hc subscription hmem
    · simp [Traffic.due]
  · rw [observe, if_pos (Option.isSome_iff_ne_none.mpr hfind),
      Communicator.addSubscription_again hfind]
    exact hc

theorem Accounted.arrive {message : Message α} (hc : Accounted R c h) :
    Accounted R (c.onMessage R message) (observe R c (.arrive message) h) := by
  rcases hcompares : c.compares R message with _ | _
  · rw [Communicator.onMessage, hcompares, if_neg Bool.false_ne_true]
    intro subscription hmem
    simpa [observe, Traffic.due, hcompares] using hc subscription hmem
  · rw [Communicator.onMessage, if_pos hcompares]
    intro subscription hmem
    obtain ⟨before, hbefore, rfl⟩ := Communicator.mem_update.mp hmem
    have hdue := hc before hbefore
    simp only [Traffic.due] at hdue
    simp only [observe, Traffic.due, hcompares, Subscription.receive_topic,
      Subscription.receive_accepts, Subscription.receive_messages, List.filter_append,
      List.map_append]
    rw [← List.append_assoc, hdue]
    rfl

theorem Accounted.read {topic : String} {message : Message α} (hc : Accounted R c h)
    (hread : c.getMessage topic = .ok (message, c')) :
    Accounted R c' (observe R c (.read topic) h) := by
  obtain ⟨_, found, rest, hfind, hmessages, rfl⟩ := Communicator.getMessage_ok hread
  obtain ⟨hfound, htopic⟩ := Communicator.mem_of_find hfind
  simp only [observe, hread]
  intro subscription hmem
  obtain ⟨before, hbefore, rfl⟩ := Communicator.mem_update.mp hmem
  rcases eq_or_ne before.topic topic with heq | hne
  · obtain rfl : found = before :=
      List.inj_on_of_nodup_map c.unique hfound hbefore (htopic.trans heq.symm)
    have hfront := hc found hfound
    rw [hmessages, htopic] at hfront
    subst htopic
    rw [Subscription.pop_topic, Subscription.pop_messages, Traffic.due,
      Subscription.pop_accepts, Function.update_self, hmessages]
    simpa [Traffic.due] using hfront
  · rw [Subscription.pop_of_ne hne, Function.update_of_ne hne]
    exact hc before hbefore

/-- Over every run: what is read from a topic are the matching messages since its
subscription, in the order of their arrival, none twice, and none lost but where the
expression of a subscribed topic throws, also when the topic is subscribed again. -/
theorem messages_accounted {publishTopic : String} {s : Communicator α × (String → Traffic α)}
    (hs : ((client R publishTopic).withHistory (fun _ => ⟨[], []⟩) (observe R)).Reachable s) :
    Accounted R s.1 s.2 := by
  refine System.history_invariant ?_ ?_ hs
  · rintro _ rfl subscription hmem
    cases hmem
  · intro c action c' h _ hc hstep
    cases action with
    | subscribe topic =>
        cases hstep
        exact hc.subscribe
    | unsubscribe topic =>
        cases hstep
        intro subscription hmem
        exact hc subscription (List.mem_of_mem_filter hmem)
    | arrive message =>
        cases hstep
        exact hc.arrive
    | read topic =>
        simp only [client] at hstep
        split at hstep
        · rename_i result hread
          cases hstep
          exact hc.read hread
        · cases hstep
    | connect rc =>
        cases hstep
        unfold Communicator.onConnect
        split <;> exact hc
    | disconnect =>
        cases hstep
        exact hc

end Accounted

/-- An engine that throws for everything but the topics whose expressions are modelled. -/
def StdRegex.plain : StdRegex where
  accepts topic text := (topicToRegex topic).map fun items => regexMatch items text.toList
  spec h text := by rw [h, Option.map_some]

/-- Two topics take the same message; one of them is subscribed again before it is read.
While a topic is subscribed whose expression is not made, a message is lost. -/
theorem messages_accounted_twice : ∃ s : Communicator Nat × (String → Traffic Nat),
    (s.2 "n.1").taken = [⟨"n-1", 4⟩] ∧
    (s.2 "+").arrived = [(⟨"n-1", 4⟩, true), (⟨"n-1", 6⟩, false), (⟨"m", 5⟩, true)] ∧
    s.1.messagesOn "+" = [⟨"n-1", 4⟩, ⟨"m", 5⟩] ∧ Accounted .plain s.1 s.2 := by
  have hrun : (((client .plain "p").withHistory (fun _ => ⟨[], []⟩) (observe .plain)).run
      (.create "p", fun _ => ⟨[], []⟩)
      [.connect 0, .subscribe "n.1", .subscribe "+", .arrive ⟨"n-1", 4⟩, .subscribe "n.1",
        .subscribe "(", .arrive ⟨"n-1", 6⟩, .unsubscribe "(", .arrive ⟨"m", 5⟩,
        .read "n.1"]).map (fun s =>
          ((s.2 "n.1").taken, (s.2 "+").arrived, s.1.messagesOn "+")) =
      .ok ([⟨"n-1", 4⟩], [(⟨"n-1", 4⟩, true), (⟨"n-1", 6⟩, false), (⟨"m", 5⟩, true)],
        [⟨"n-1", 4⟩, ⟨"m", 5⟩]) := by
    decide +kernel
  obtain ⟨s, hrun, heq⟩ := map_eq_ok.mp hrun
  obtain ⟨htaken, heq⟩ := Prod.mk.inj heq
  obtain ⟨harrived, hunread⟩ := Prod.mk.inj heq
  have hstart : ((client .plain "p").withHistory (fun _ => ⟨[], []⟩)
      (observe .plain)).Reachable
      ((.create "p", fun _ => ⟨[], []⟩) : Communicator Nat × (String → Traffic Nat)) :=
    .init ⟨rfl, rfl⟩
  exact ⟨s, htaken, harrived, hunread,
    messages_accounted (System.run_reachable (fun _ _ => trivial) hstart hrun)⟩

end Poncos.Mqtt
