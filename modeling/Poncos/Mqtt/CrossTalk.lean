import Poncos.Mqtt.Program

/-!
What a dot in the name of a machine does.  Where one name stands for another one, the
answers of the other machine are queued for the first one too.
-/

namespace Poncos

open Poncos.Library
open Poncos.Library.Execution
open Poncos.Library.RequestReply
open Poncos.Library.Transition
open Poncos.Mqtt

/-- One request to a machine, and its answer. -/
def ask (machine : String) : List (Event Channel) :=
  [.send (.migfra machine), .receive (.migfra machine)]

section Steps

variable {R : StdRegex} {machines : List String} {channels : Channel → Prop}
  {comm : Communicator Nat} {echoes : List (Mqtt.Message Nat)}
  {operations : List (List (Event Channel))} {s s' : Link}
  {c : Channel} {rest : List (Event Channel)} {message : Mqtt.Message Nat}
  {more : List (Mqtt.Message Nat)}

theorem link_proceed (hs : (link R comm echoes operations).Reachable s)
    (h : s.proceed = .ok s') : (link R comm echoes operations).Reachable s' :=
  .step (i := .proceed) hs trivial h

theorem link_answer {index : Nat} (hs : (link R comm echoes operations).Reachable s)
    (h : s.answer R c index = .ok s') : (link R comm echoes operations).Reachable s' :=
  .step (i := .answer c index) hs trivial h

theorem answer_only {asker : Nat} (h : s.asked c = [asker]) :
    s.answer R c 0 = .ok { s with
      comm := s.comm.onMessage R ⟨c.responseTopic, asker⟩
      asked := Function.update s.asked c [] } := by
  simp only [Link.answer, h, List.getElem?_cons_zero, List.eraseIdx_cons_zero]

theorem proceed_next {events : List (Event Channel)} {later : List (List (Event Channel))}
    (hevents : s.events = []) (hrest : s.rest = events :: later) :
    s.proceed = .ok { s with events := events, rest := later, number := s.number + 1 } := by
  simp only [Link.proceed, hevents, hrest]

theorem proceed_send (h : s.comm.connected = true) (hevents : s.events = .send c :: rest) :
    s.proceed = .ok { s with
      events := rest
      asked := Function.update s.asked c (s.asked c ++ [s.number])
      echoes := s.echoes ++ [⟨c.requestTopic, s.number⟩] } := by
  simp only [Link.proceed, hevents, sendMessage_of_connected h requestTopic_ne_empty]

theorem proceed_receive (h : Tuned machines channels s.comm) (hc : channels c)
    (hevents : s.events = .receive c :: rest)
    (hmessages : s.comm.messagesOn c.responseTopic = message :: more) :
    s.proceed = .ok { s with
      events := rest
      comm := s.comm.update (Subscription.pop c.responseTopic) fun _ => Subscription.pop_topic
      reads := s.reads ++ [(s.number, message.payload)] } := by
  have hget := getMessage_response h hc
  rw [hmessages] at hget
  simp only [Link.proceed, hevents, hget]

end Steps

section CrossTalk

variable {R : StdRegex} {machines : List String} {comm : Communicator Nat} {host other : String}

/-- One queue gets the answer for the other name, and the next operation reads it. -/
theorem answers_cross (hnames : Named machines)
    (hready : Ready machines (fun c => ∃ machine ∈ machines, c = .migfra machine) comm [])
    (hhost : host ∈ machines) (hother : other ∈ machines) (hne : host ≠ other)
    (hstands : NameStandsFor host other) :
    ∃ s, (link R comm [] [ask other, ask host]).Reachable s ∧ (2, 1) ∈ s.reads := by
  have htuned := hready.tuned
  have hhears : ∀ machine ∈ machines, ∃ machine' ∈ machines,
      Channel.migfra machine = .migfra machine' := fun machine hmachine => ⟨machine, hmachine, rfl⟩
  have hqueue : ∀ machine ∈ machines, NameStandsFor machine other →
      (comm.onMessage R ⟨(Channel.migfra other).responseTopic, 1⟩).messagesOn
        (Channel.migfra machine).responseTopic =
        [⟨(Channel.migfra other).responseTopic, 1⟩] := by
    intro machine hmachine hname
    obtain ⟨subscription, hfind⟩ :=
      Option.ne_none_iff_exists'.mp (htuned.hears _ (hhears machine hmachine))
    have haccepts : subscription.accepts R ⟨(Channel.migfra other).responseTopic, 1⟩ = true :=
      (htuned.accepts R _ hnames hfind).mpr (responseTopic_standsFor.mpr hname)
    rw [Communicator.messagesOn_onMessage (htuned.compares R _) hfind, hready.empty,
      List.filter_singleton, haccepts]
    rfl
  have hstart : (link R comm [] [ask other, ask host]).Reachable
      (.start comm [] [ask other, ask host]) := .init rfl
  have hbegun := link_proceed hstart (proceed_next rfl rfl)
  have hsent := link_proceed hbegun (proceed_send htuned.connected rfl)
  have hanswered := link_answer hsent (answer_only (Function.update_self ..))
  have hread := link_proceed hanswered (proceed_receive htuned.onMessage (hhears other hother) rfl
    (hqueue other hother nameStandsFor_self))
  have hnext := link_proceed hread (proceed_next rfl rfl)
  have hasked := link_proceed hnext (proceed_send htuned.onMessage.pop.connected rfl)
  have hpopped : ((comm.onMessage R ⟨(Channel.migfra other).responseTopic, 1⟩).update
      (Subscription.pop (Channel.migfra other).responseTopic)
      fun _ => Subscription.pop_topic).messagesOn (Channel.migfra host).responseTopic =
      [⟨(Channel.migfra other).responseTopic, 1⟩] := by
    rw [Communicator.messagesOn_pop, if_neg fun htopic =>
      hne (Channel.migfra.inj (responseTopic_injective htopic))]
    exact hqueue host hhost hstands
  have hstale := link_proceed hasked
    (proceed_receive htuned.onMessage.pop (hhears host hhost) rfl hpopped)
  exact ⟨_, hstale, by simp [Link.start]⟩

/-- The operations read their own answers, whatever they are, exactly if no name stands
for another one. -/
theorem answers_matched_iff_apart {backend : Backend} (hnames : Named machines) :
    (∀ operations, (∀ events ∈ operations,
        Within (fun c => ∃ machine ∈ machines, c = .migfra machine) events ∧ Matched events) →
      ∀ s, (link R (startUp backend machines) [] operations).Reachable s →
        ∀ read ∈ s.reads, read.2 = read.1) ↔
      Apart machines := by
  have hready := startUp_ready backend hnames
  constructor
  · intro h host hhost other hother hstands
    rcases Classical.em (host = other) with heq | hne
    · exact heq
    · obtain ⟨s, hs, hread⟩ := answers_cross hnames hready hhost hother hne hstands
      refine absurd (h _ (fun events hevents => ?_) s hs _ hread) (by decide)
      have hask : ∃ machine ∈ machines, events = ask machine := by
        rw [List.mem_cons, List.mem_singleton] at hevents
        rcases hevents with rfl | rfl
        · exact ⟨other, hother, rfl⟩
        · exact ⟨host, hhost, rfl⟩
      obtain ⟨machine, hmachine, rfl⟩ := hask
      refine ⟨fun event hevent => ?_, matched_of_perm (List.Perm.refl [Channel.migfra machine])⟩
      rw [ask, List.mem_cons, List.mem_singleton] at hevent
      rcases hevent with rfl | rfl
      · exact ⟨machine, hmachine, rfl⟩
      · exact ⟨machine, hmachine, rfl⟩
  · intro hapart operations hoperations s hs
    exact (link_sound ⟨hnames, hapart⟩ hready (fun events hevents => (hoperations events hevents).1)
      (fun events hevents => (hoperations events hevents).2) hs).reads

end CrossTalk

theorem answers_matched_iff_apart_dot : ∃ operations s, (∀ events ∈ operations, Matched events) ∧
    (link .plain (startUp .cgroup ["n.1", "n-1"]) [] operations).Reachable s ∧
    ∃ read ∈ s.reads, read.2 ≠ read.1 := by
  have hnames : Named ["n.1", "n-1"] := by
    intro machine hmachine
    simp only [List.mem_cons, List.not_mem_nil, or_false] at hmachine
    rcases hmachine with rfl | rfl <;> exact isName_of_all rfl
  have hcross : ¬ Apart ["n.1", "n-1"] := by
    intro hapart
    have hstands : List.Forall₂ StandsFor ['n', '.', '1'] ['n', '-', '1'] :=
      .cons (by decide) (.cons (by decide) (.cons (by decide) .nil))
    exact absurd (hapart "n.1" (by simp) "n-1" (by simp) hstands) (by decide)
  by_contra hnone
  refine hcross ((@answers_matched_iff_apart .plain _ .cgroup hnames).mp
    fun operations hoperations s hs read hread => ?_)
  by_contra hne
  exact hnone ⟨operations, s, fun events hevents => (hoperations events hevents).2, hs, read,
    hread, hne⟩

end Poncos
