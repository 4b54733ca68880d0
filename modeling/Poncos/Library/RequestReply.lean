import Mathlib.Algebra.GroupWithZero.Nat
import Mathlib.Logic.Function.Basic
import Poncos.Library.Transition

/-!
Requests and responses that are matched by nothing but their channel.  Operations
run one after another; each of them sends requests and reads from the channels, a
service answers every request once, in any order, and the answers of a channel are
read first in, first out.
-/

namespace Poncos.Library.RequestReply

open Poncos.Library.Execution
open Poncos.Library.Transition

inductive Event (χ : Type) where
  | send (channel : χ)
  | receive (channel : χ)
  deriving DecidableEq, Repr

/-- `events` and `rest` are what the current operation and the later ones still do.
A request and its answer carry the number of the operation that asked; `reads` are
the answers read so far, with the operation that read them. -/
structure State (χ : Type) where
  events : List (Event χ)
  rest : List (List (Event χ))
  number : Nat
  asked : χ → List Nat
  unread : χ → List Nat
  reads : List (Nat × Nat)

inductive Action (χ : Type) where
  | proceed
  | answer (channel : χ) (index : Nat)

section System

variable {χ : Type} [DecidableEq χ]

/-- The running operation goes on, or the next one begins; it waits where it reads
from a channel without an answer. -/
def proceed (s : State χ) : Exec (State χ) :=
  match s.events with
  | [] =>
      match s.rest with
      | [] => .error .disabled
      | events :: rest => .ok { s with events := events, rest := rest, number := s.number + 1 }
  | .send c :: events =>
      .ok { s with
        events := events
        asked := Function.update s.asked c (s.asked c ++ [s.number]) }
  | .receive c :: events =>
      match s.unread c with
      | [] => .error .disabled
      | asker :: more =>
          .ok { s with
            events := events
            unread := Function.update s.unread c more
            reads := s.reads ++ [(s.number, asker)] }

def answer (c : χ) (index : Nat) (s : State χ) : Exec (State χ) :=
  match (s.asked c)[index]? with
  | none => .error .disabled
  | some asker =>
      .ok { s with
        asked := Function.update s.asked c ((s.asked c).eraseIdx index)
        unread := Function.update s.unread c (s.unread c ++ [asker]) }

/-- Operations one after another, in an interleaving with the service. -/
def system (operations : List (List (Event χ))) : System (State χ) (Action χ) where
  Init s := s = ⟨[], operations, 0, fun _ => [], fun _ => [], []⟩
  step s
    | .proceed => proceed s
    | .answer c index => answer c index s

/-- With `n` answers to come on channel `c`, the events read each of them, and no
other. -/
def Served (c : χ) : Nat → List (Event χ) → Prop
  | n, [] => n = 0
  | n, .send d :: events => Served c (if d = c then n + 1 else n) events
  | n, .receive d :: events =>
      if d = c then 0 < n ∧ Served c (n - 1) events else Served c n events

/-- Every answer is read, after its request and by the operation that asked. -/
def Matched (events : List (Event χ)) : Prop := ∀ c, Served c 0 events

def sends (c : χ) (events : List (Event χ)) : Nat := events.count (.send c)

def receives (c : χ) (events : List (Event χ)) : Nat := events.count (.receive c)

/-- As many answers are read as requests are sent, and none before its request. -/
structure Balanced (events : List (Event χ)) (c : χ) : Prop where
  total : receives c events = sends c events
  prefixes : ∀ k, receives c (events.take k) ≤ sends c (events.take k)

section Counts

variable {c d : χ} {n : Nat} {events : List (Event χ)}

@[simp] theorem sends_send :
    sends c (.send d :: events) = sends c events + if d = c then 1 else 0 := by
  simp [sends, List.count_cons]

@[simp] theorem sends_receive : sends c (.receive d :: events) = sends c events := by
  simp [sends]

@[simp] theorem receives_send : receives c (.send d :: events) = receives c events := by
  simp [receives]

@[simp] theorem receives_receive :
    receives c (.receive d :: events) = receives c events + if d = c then 1 else 0 := by
  simp [receives, List.count_cons]

theorem served_receive_self : Served c n (.receive c :: events) ↔
    0 < n ∧ Served c (n - 1) events := by
  rw [Served, if_pos rfl]

theorem served_receive_of_ne (hne : d ≠ c) :
    Served c n (.receive d :: events) ↔ Served c n events := by
  rw [Served, if_neg hne]

theorem receives_of_served (h : Served c n events) :
    receives c events = n + sends c events := by
  induction events generalizing n with
  | nil =>
      obtain rfl : n = 0 := h
      rfl
  | cons event events ih =>
      cases event with
      | send d =>
          rw [receives_send, sends_send, ih h]
          split <;> omega
      | receive d =>
          rw [receives_receive, sends_receive]
          rcases eq_or_ne d c with rfl | hne
          · obtain ⟨hpos, h⟩ := served_receive_self.mp h
            rw [ih h, if_pos rfl]
            omega
          · rw [ih ((served_receive_of_ne hne).mp h), if_neg hne]
            omega

theorem receives_take_of_served (h : Served c n events) (k : Nat) :
    receives c (events.take k) ≤ n + sends c (events.take k) := by
  induction events generalizing n k with
  | nil => simp [receives]
  | cons event events ih =>
      cases k with
      | zero => simp [receives]
      | succ k =>
          rw [List.take_succ_cons]
          cases event with
          | send d =>
              have := ih h k
              rw [receives_send, sends_send]
              split at this <;> split <;> omega
          | receive d =>
              rw [receives_receive, sends_receive]
              rcases eq_or_ne d c with rfl | hne
              · obtain ⟨hpos, h⟩ := served_receive_self.mp h
                have := ih h k
                rw [if_pos rfl]
                omega
              · have := ih ((served_receive_of_ne hne).mp h) k
                rw [if_neg hne]
                omega

theorem Matched.balanced (h : Matched events) (c : χ) : Balanced events c where
  total := by
    have := receives_of_served (h c)
    omega
  prefixes k := by
    have := receives_take_of_served (h c) k
    omega

theorem served_map_send {channels : List χ} :
    Served c n (channels.map .send ++ events) ↔ Served c (n + channels.count c) events := by
  induction channels generalizing n with
  | nil => rfl
  | cons d channels ih =>
      rw [List.map_cons, List.cons_append, Served, ih, List.count_cons]
      rcases eq_or_ne d c with rfl | hne
      · simp only [if_true, beq_self_eq_true, Nat.add_assoc, Nat.add_comm 1]
      · simp [hne]

theorem served_map_receive {channels : List χ} :
    Served c n (channels.map .receive) ↔ n = channels.count c := by
  induction channels generalizing n with
  | nil => rfl
  | cons d channels ih =>
      rw [List.map_cons, List.count_cons]
      rcases eq_or_ne d c with rfl | hne
      · rw [served_receive_self, ih, beq_self_eq_true, if_pos rfl]
        omega
      · rw [served_receive_of_ne hne, ih]
        simp [hne]

/-- Requests first, and then as many answers from every channel. -/
theorem matched_of_perm {requests replies : List χ} (h : requests.Perm replies) :
    Matched (requests.map .send ++ replies.map .receive) := by
  intro c
  rw [served_map_send, served_map_receive, Nat.zero_add, h.count_eq]

end Counts

/-- What holds between the steps: the requests and answers under way are those of the
running operation, and it will read as many. -/
structure Invariant (s : State χ) : Prop where
  served : ∀ c, Served c ((s.asked c).length + (s.unread c).length) s.events
  rest : ∀ events ∈ s.rest, Matched events
  asked : ∀ c, ∀ asker ∈ s.asked c, asker = s.number
  unread : ∀ c, ∀ asker ∈ s.unread c, asker = s.number
  reads : ∀ read ∈ s.reads, read.2 = read.1

section Steps

variable {s s' : State χ} {operations : List (List (Event χ))}

theorem Invariant.quiet (h : Invariant s) (hevents : s.events = []) (c : χ) :
    s.asked c = [] ∧ s.unread c = [] := by
  have hserved := h.served c
  rw [hevents] at hserved
  have hlength : (s.asked c).length + (s.unread c).length = 0 := hserved
  exact ⟨List.length_eq_zero_iff.mp (by omega), List.length_eq_zero_iff.mp (by omega)⟩

theorem forall_mem_update {queues : χ → List Nat} {queue : List Nat} {c : χ}
    {P : Nat → Prop} (h : ∀ d, ∀ a ∈ queues d, P a) (hqueue : ∀ a ∈ queue, P a) :
    ∀ d, ∀ a ∈ Function.update queues c queue d, P a :=
  (Function.forall_update_iff queues fun _ queue' => ∀ a ∈ queue', P a).mpr
    ⟨hqueue, fun d _ => h d⟩

theorem Invariant.proceed (h : Invariant s) (hstep : RequestReply.proceed s = .ok s') :
    Invariant s' := by
  unfold RequestReply.proceed at hstep
  split at hstep
  · rename_i hevents
    split at hstep
    · cases hstep
    · rename_i events rest hrest
      cases hstep
      have hmatched : ∀ more ∈ events :: rest, Matched more := by
        rw [← hrest]
        exact h.rest
      refine ⟨fun c => ?_, fun more hmore => hmatched more (List.mem_cons_of_mem _ hmore),
        fun c => ?_, fun c => ?_, h.reads⟩
      · simp only [h.quiet hevents c, List.length_nil]
        exact hmatched events List.mem_cons_self c
      · simp [h.quiet hevents c]
      · simp [h.quiet hevents c]
  · rename_i c events hevents
    cases hstep
    refine ⟨fun d => ?_, h.rest, forall_mem_update h.asked fun asker hasker => ?_, h.unread,
      h.reads⟩
    · have hserved := h.served d
      rw [hevents, Served] at hserved
      rcases eq_or_ne c d with rfl | hne
      · simpa [Nat.add_right_comm] using hserved
      · simpa [Function.update_of_ne hne.symm, hne] using hserved
    · rw [List.mem_append, List.mem_singleton] at hasker
      exact hasker.elim (h.asked c asker) id
  · rename_i c events hevents
    split at hstep
    · cases hstep
    · rename_i asker more hunread
      cases hstep
      have hmem : ∀ a ∈ asker :: more, a = s.number := by
        rw [← hunread]
        exact h.unread c
      refine ⟨fun d => ?_, h.rest, h.asked,
        forall_mem_update h.unread fun a ha => hmem a (List.mem_cons_of_mem _ ha),
        fun read hread => ?_⟩
      · have hserved := h.served d
        rw [hevents] at hserved
        dsimp only
        rcases eq_or_ne c d with rfl | hne
        · obtain ⟨_, hserved⟩ := served_receive_self.mp hserved
          rw [Function.update_self]
          rwa [hunread, List.length_cons, ← Nat.add_assoc, Nat.add_sub_cancel] at hserved
        · rw [Function.update_of_ne hne.symm]
          exact (served_receive_of_ne hne).mp hserved
      · rcases List.mem_append.mp hread with hread | hread
        · exact h.reads read hread
        · rw [List.mem_singleton.mp hread]
          exact hmem asker List.mem_cons_self

theorem Invariant.answer {c : χ} {index : Nat} (h : Invariant s)
    (hstep : RequestReply.answer c index s = .ok s') : Invariant s' := by
  unfold RequestReply.answer at hstep
  split at hstep
  · cases hstep
  · rename_i asker hasker
    cases hstep
    have hlt : index < (s.asked c).length := (List.getElem?_eq_some_iff.mp hasker).1
    refine ⟨fun d => ?_, h.rest,
      forall_mem_update h.asked fun a ha => h.asked c a (List.mem_of_mem_eraseIdx ha),
      forall_mem_update h.unread fun a ha => ?_, h.reads⟩
    · have hserved := h.served d
      dsimp only
      rcases eq_or_ne c d with rfl | hne
      · rw [Function.update_self, Function.update_self, List.length_eraseIdx_of_lt hlt,
          List.length_append, List.length_singleton]
        rwa [show (s.asked c).length - 1 + ((s.unread c).length + 1) =
          (s.asked c).length + (s.unread c).length by omega]
      · rwa [Function.update_of_ne hne.symm, Function.update_of_ne hne.symm]
    · rw [List.mem_append, List.mem_singleton] at ha
      rcases ha with ha | rfl
      · exact h.unread c a ha
      · exact h.asked c a (List.mem_of_getElem? hasker)

theorem Invariant.step {action : Action χ} (h : Invariant s)
    (hstep : (system operations).step s action = .ok s') : Invariant s' := by
  cases action with
  | proceed => exact h.proceed hstep
  | answer c index => exact h.answer hstep

theorem Invariant.continues (h : Invariant s)
    (hs : ((system operations).startingAt s).Reachable s') : Invariant s' := by
  refine System.ReachableVia.invariant ?_ ?_ hs
  · rintro _ rfl
    exact h
  · intro t action t' _ hinv _ hstep
    exact @Invariant.step _ _ _ _ operations _ hinv hstep

theorem reachable_invariant (h : ∀ events ∈ operations, Matched events)
    (hs : (system operations).Reachable s) : Invariant s := by
  refine hs.invariant ?_ fun _ _ _ _ hinv _ hstep => hinv.step hstep
  rintro s rfl
  exact ⟨fun c => rfl, h, by simp, by simp, by simp⟩

/-- An operation that waits for an answer waits for one that is to come. -/
theorem Invariant.waits {c : χ} {events : List (Event χ)} (h : Invariant s)
    (hevents : s.events = .receive c :: events) :
    s.asked c ≠ [] ∨ s.unread c ≠ [] := by
  have hserved := h.served c
  rw [hevents, served_receive_self] at hserved
  by_contra hnone
  push Not at hnone
  rw [hnone.1, hnone.2] at hserved
  exact absurd hserved.1 (Nat.lt_irrefl 0)

def remaining (s : State χ) : Nat :=
  s.events.length + (s.rest.map fun events => events.length + 1).sum

theorem proceed_enabled (hrest : s.events ≠ [] ∨ s.rest ≠ [])
    (hread : ∀ c events, s.events = .receive c :: events → s.unread c ≠ []) :
    ∃ s', RequestReply.proceed s = .ok s' ∧ remaining s' < remaining s := by
  unfold RequestReply.proceed
  split
  · rename_i hevents
    split
    · rename_i hdone
      exact absurd hdone (hrest.resolve_left (not_not_intro hevents))
    · rename_i hmore
      exact ⟨_, rfl, by simp [remaining, hevents, hmore]⟩
  · rename_i hevents
    exact ⟨_, rfl, by simp [remaining, hevents]⟩
  · rename_i c events hevents
    split
    · rename_i hunread
      exact absurd hunread (hread c events hevents)
    · exact ⟨_, rfl, by simp [remaining, hevents]⟩

/-- Until everything is done, the running operation goes on, at the latest after one
answer. -/
theorem Invariant.advances (h : Invariant s) (hrest : s.events ≠ [] ∨ s.rest ≠ []) :
    ∃ s', ((system operations).startingAt s).Reachable s' ∧ remaining s' < remaining s := by
  have hnow : ((system operations).startingAt s).Reachable s := .init rfl
  rcases Classical.em (∃ c events, s.events = .receive c :: events ∧ s.unread c = [])
    with ⟨c, events, hevents, hunread⟩ | hread
  · have hasked := (h.waits hevents).resolve_right (not_not_intro hunread)
    obtain ⟨asker, others, hasked⟩ := List.exists_cons_of_ne_nil hasked
    have hanswer : RequestReply.answer c 0 s = .ok { s with
        asked := Function.update s.asked c ((s.asked c).eraseIdx 0)
        unread := Function.update s.unread c (s.unread c ++ [asker]) } := by
      simp only [RequestReply.answer, hasked, List.getElem?_cons_zero]
    obtain ⟨s', hstep, hless⟩ := proceed_enabled
      (s := { s with
        asked := Function.update s.asked c ((s.asked c).eraseIdx 0)
        unread := Function.update s.unread c (s.unread c ++ [asker]) })
      hrest fun d events' hevents' => by
        have hd : c = d ∧ events = events' := by simpa [hevents] using hevents'
        simp [hd.1]
    exact ⟨s', .step (i := .proceed) (.step (i := .answer c 0) hnow trivial hanswer) trivial
      hstep, hless⟩
  · obtain ⟨s', hstep, hless⟩ := proceed_enabled hrest fun c events hevents hunread =>
      hread ⟨c, events, hevents, hunread⟩
    exact ⟨s', .step (i := .proceed) hnow trivial hstep, hless⟩

theorem Invariant.completes (h : Invariant s) :
    ∃ s', ((system operations).startingAt s).Reachable s' ∧ s'.events = [] ∧ s'.rest = [] := by
  induction hn : remaining s using Nat.strongRecOn generalizing s with
  | ind n ih =>
      rcases Classical.em (s.events = [] ∧ s.rest = []) with hdone | hrest
      · exact ⟨s, .init rfl, hdone⟩
      · obtain ⟨s₁, hs₁, hless⟩ := @Invariant.advances _ _ _ operations h
          (by simpa only [ne_eq, ← not_and_or] using hrest)
        obtain ⟨s', hs', hdone⟩ := ih _ (hn ▸ hless) (h.continues hs₁) rfl
        exact ⟨s', hs₁.append hs', hdone⟩

end Steps

end System

end Poncos.Library.RequestReply
