import Mathlib.Logic.Function.Basic
import Poncos.Library.Transition

/-!
The queue of a subscription with its condition variable.  The thread of the client
library calls `notify_one` only for a message that comes into an empty queue.  The waits
have no timeout, and no thread wakes up without a notification.
-/

namespace Poncos.Mqtt

open Poncos.Library.Execution
open Poncos.Library.Transition

/-- A reader outside `get_message`, in its wait, notified there, and back from the wait
with the lock. -/
inductive Reader where
  | away
  | asleep
  | notified
  | woken
  deriving DecidableEq, Repr

/-- `notifying`: the lock is held for the call of `notify_one`. -/
structure MessageQueue (α : Type) (n : Nat) where
  messages : List α
  readers : Fin n → Reader
  notifying : Bool

inductive QueueAction (α : Type) (n : Nat) where
  | addMessage (message : α)
  | notifyOne (reader : Option (Fin n))
  | getMessage (reader : Fin n)
  | wake (reader : Fin n)
  | recheck (reader : Fin n)

namespace MessageQueue

variable {α : Type} {n : Nat}

def LockFree (s : MessageQueue α n) : Prop :=
  s.notifying = false ∧ ∀ reader, s.readers reader ≠ .woken

instance (s : MessageQueue α n) : Decidable s.LockFree := inferInstanceAs (Decidable (_ ∧ _))

def addMessage (message : α) (s : MessageQueue α n) : Exec (MessageQueue α n) := do
  require s.LockFree
  let messages := s.messages ++ [message]
  .ok { s with messages := messages, notifying := decide (messages.length = 1) }

/-- One of the waiting readers is notified, if there is one. -/
def notifyOne (reader : Option (Fin n)) (s : MessageQueue α n) : Exec (MessageQueue α n) := do
  require (s.notifying = true)
  match reader with
  | some reader => do
      require (s.readers reader = .asleep)
      .ok { s with readers := Function.update s.readers reader .notified, notifying := false }
  | none => do
      require (∀ reader, s.readers reader ≠ .asleep)
      .ok { s with notifying := false }

/-- The test of the predicate, under the lock, and the first message. -/
def check (reader : Fin n) (s : MessageQueue α n) : MessageQueue α n :=
  match s.messages with
  | [] => { s with readers := Function.update s.readers reader .asleep }
  | _ :: rest =>
      { s with messages := rest, readers := Function.update s.readers reader .away }

def getMessage (reader : Fin n) (s : MessageQueue α n) : Exec (MessageQueue α n) := do
  require (s.LockFree ∧ s.readers reader = .away)
  .ok (s.check reader)

def wake (reader : Fin n) (s : MessageQueue α n) : Exec (MessageQueue α n) := do
  require (s.LockFree ∧ s.readers reader = .notified)
  .ok { s with readers := Function.update s.readers reader .woken }

def recheck (reader : Fin n) (s : MessageQueue α n) : Exec (MessageQueue α n) := do
  require (s.readers reader = .woken)
  .ok (s.check reader)

/-- A reader waits although there is a message, and nobody is about to wake it up or to
take the message. -/
def Stuck (s : MessageQueue α n) : Prop :=
  s.messages ≠ [] ∧ s.notifying = false ∧ (∃ reader, s.readers reader = .asleep) ∧
    ∀ reader, s.readers reader = .asleep ∨ s.readers reader = .away

end MessageQueue

def messageQueue (α : Type) (n : Nat) : System (MessageQueue α n) (QueueAction α n) where
  Init s := s = ⟨[], fun _ => .away, false⟩
  step s
    | .addMessage message => s.addMessage message
    | .notifyOne reader => s.notifyOne reader
    | .getMessage reader => s.getMessage reader
    | .wake reader => s.wake reader
    | .recheck reader => s.recheck reader

section Readers

variable {α : Type} {n : Nat} {s s' : MessageQueue α n} {action : QueueAction α n}

/-- A message in the queue of a waiting reader is about to be announced. -/
def Announced (s : MessageQueue α n) : Prop :=
  ∀ reader, s.readers reader = .asleep → s.messages ≠ [] → s.notifying = true

theorem update_reader (hn : n ≤ 1) {reader other : Fin n} {phase : Reader} :
    Function.update s.readers reader phase other = phase := by
  obtain rfl : other = reader := Fin.ext (by omega)
  exact Function.update_self ..

theorem announced_check (hn : n ≤ 1) {reader : Fin n} : Announced (s.check reader) := by
  intro other hasleep hmessages
  unfold MessageQueue.check at hasleep hmessages
  split at hmessages
  · rename_i hnil
    exact absurd hnil hmessages
  · rename_i hcons
    simp only [hcons] at hasleep
    rw [update_reader hn] at hasleep
    cases hasleep

theorem Announced.step (hn : n ≤ 1) (h : Announced s)
    (hstep : (messageQueue α n).step s action = .ok s') : Announced s' := by
  cases action with
  | addMessage message =>
      obtain ⟨_, hfree, hstep⟩ := bind_eq_ok.mp hstep
      cases hstep
      intro reader hasleep _
      rcases Classical.em (s.messages = []) with hnil | hne
      · simp [hnil]
      · have := h reader hasleep hne
        rw [(require_eq_ok.mp hfree).1] at this
        cases this
  | notifyOne reader =>
      obtain ⟨_, _, hstep⟩ := bind_eq_ok.mp hstep
      cases reader with
      | some reader =>
          obtain ⟨_, _, hstep⟩ := bind_eq_ok.mp hstep
          cases hstep
          intro other hasleep
          dsimp only at hasleep
          rw [update_reader hn] at hasleep
          cases hasleep
      | none =>
          obtain ⟨_, hnone, hstep⟩ := bind_eq_ok.mp hstep
          cases hstep
          intro other hasleep
          exact absurd hasleep (require_eq_ok.mp hnone other)
  | getMessage reader =>
      obtain ⟨_, _, hstep⟩ := bind_eq_ok.mp hstep
      cases hstep
      exact announced_check hn
  | wake reader =>
      obtain ⟨_, _, hstep⟩ := bind_eq_ok.mp hstep
      cases hstep
      intro other hasleep
      dsimp only at hasleep
      rw [update_reader hn] at hasleep
      cases hasleep
  | recheck reader =>
      obtain ⟨_, _, hstep⟩ := bind_eq_ok.mp hstep
      cases hstep
      exact announced_check hn

end Readers

/-- Two readers in `get_message`, and no other one. -/
def pairOf {n : Nat} (first second : Fin n) (p q : Reader) : Fin n → Reader :=
  Function.update (Function.update (fun _ => .away) second q) first p

section Pair

variable {α : Type} {n : Nat} {first second : Fin n} {p p' q q' : Reader}

theorem pairOf_first : pairOf first second p q first = p := Function.update_self ..

theorem pairOf_second (h : second ≠ first) : pairOf first second p q second = q := by
  rw [pairOf, Function.update_of_ne h, Function.update_self]

theorem update_pairOf_first :
    Function.update (pairOf first second p q) first p' = pairOf first second p' q :=
  Function.update_idem ..

theorem update_pairOf_second (h : second ≠ first) :
    Function.update (pairOf first second p q) second q' = pairOf first second p q' := by
  rw [pairOf, Function.update_comm h.symm, Function.update_idem]
  rfl

variable (first second p q) in
theorem pairOf_cases (reader : Fin n) : pairOf first second p q reader = p ∨
    pairOf first second p q reader = q ∨ pairOf first second p q reader = .away := by
  rcases eq_or_ne reader first with rfl | hfirst
  · exact .inl pairOf_first
  · rw [pairOf, Function.update_of_ne hfirst]
    rcases eq_or_ne reader second with rfl | hsecond
    · exact .inr (.inl (Function.update_self ..))
    · exact .inr (.inr (Function.update_of_ne hsecond ..))

theorem lockFree_pairOf {messages : List α} (hp : p ≠ .woken) (hq : q ≠ .woken) :
    MessageQueue.LockFree ⟨messages, pairOf first second p q, false⟩ := by
  refine ⟨rfl, fun reader => ?_⟩
  change pairOf first second p q reader ≠ .woken
  rcases pairOf_cases first second p q reader
    with h | h | h
  · rw [h]
    exact hp
  · rw [h]
    exact hq
  · rw [h]
    decide

/-- The second message comes before the first reader has woken up, and is not announced. -/
theorem stuck_of_two (hne : second ≠ first) (message : α) :
    ∃ s, (messageQueue α n).Reachable s ∧ s.Stuck := by
  have hstart : (messageQueue α n).Reachable ⟨[], pairOf first second .away .away, false⟩ := by
    have haway : pairOf first second .away .away = fun _ => Reader.away := by
      funext reader
      rcases pairOf_cases first second .away .away reader
        with h | h | h
      · exact h
      · exact h
      · exact h
    rw [haway]
    exact .init rfl
  have hfirst : (messageQueue α n).Reachable ⟨[], pairOf first second .asleep .away, false⟩ := by
    refine .step (i := .getMessage first) hstart trivial ?_
    change MessageQueue.getMessage _ _ = _
    rw [MessageQueue.getMessage, require_of ⟨lockFree_pairOf (by decide) (by decide), pairOf_first⟩]
    simp only [MessageQueue.check, update_pairOf_first]
    rfl
  have hsecond : (messageQueue α n).Reachable
      ⟨[], pairOf first second .asleep .asleep, false⟩ := by
    refine .step (i := .getMessage second) hfirst trivial ?_
    change MessageQueue.getMessage _ _ = _
    rw [MessageQueue.getMessage,
      require_of ⟨lockFree_pairOf (by decide) (by decide), pairOf_second hne⟩]
    simp only [MessageQueue.check, update_pairOf_second hne]
    rfl
  have hcome : (messageQueue α n).Reachable
      ⟨[message], pairOf first second .asleep .asleep, true⟩ := by
    refine .step (i := .addMessage message) hsecond trivial ?_
    change MessageQueue.addMessage _ _ = _
    rw [MessageQueue.addMessage, require_of (lockFree_pairOf (by decide) (by decide))]
    rfl
  have hnotify : (messageQueue α n).Reachable
      ⟨[message], pairOf first second .notified .asleep, false⟩ := by
    refine .step (i := .notifyOne (some first)) hcome trivial ?_
    change MessageQueue.notifyOne (some first) _ = _
    rw [MessageQueue.notifyOne, require_of rfl]
    simp only [require_of pairOf_first, update_pairOf_first]
    rfl
  have hagain : (messageQueue α n).Reachable
      ⟨[message, message], pairOf first second .notified .asleep, false⟩ := by
    refine .step (i := .addMessage message) hnotify trivial ?_
    change MessageQueue.addMessage _ _ = _
    rw [MessageQueue.addMessage, require_of (lockFree_pairOf (by decide) (by decide))]
    rfl
  have hwoken : (messageQueue α n).Reachable
      ⟨[message, message], pairOf first second .woken .asleep, false⟩ := by
    refine .step (i := .wake first) hagain trivial ?_
    change MessageQueue.wake _ _ = _
    rw [MessageQueue.wake, require_of ⟨lockFree_pairOf (by decide) (by decide), pairOf_first⟩,
      update_pairOf_first]
    rfl
  have htaken : (messageQueue α n).Reachable
      ⟨[message], pairOf first second .away .asleep, false⟩ := by
    refine .step (i := .recheck first) hwoken trivial ?_
    change MessageQueue.recheck _ _ = _
    rw [MessageQueue.recheck, require_of pairOf_first]
    simp only [MessageQueue.check, update_pairOf_first]
    rfl
  refine ⟨_, htaken, List.cons_ne_nil message [], rfl, ⟨second, pairOf_second hne⟩,
    fun reader => ?_⟩
  rcases pairOf_cases first second .away .asleep reader
    with h | h | h
  · exact .inr h
  · exact .inl h
  · exact .inr h

end Pair

/-- `get_message` may wait beside a message, with nobody to announce it, exactly if a
topic has two readers or more. -/
theorem stuck_iff_readers {α : Type} [Nonempty α] (n : Nat) :
    (∃ s, (messageQueue α n).Reachable s ∧ s.Stuck) ↔ 2 ≤ n := by
  constructor
  · rintro ⟨s, hs, hmessages, hnotifying, ⟨reader, hasleep⟩, _⟩
    by_contra hn
    have hannounced : Announced s := by
      refine hs.invariant ?_ fun _ _ _ _ hinv _ hstep => hinv.step (by omega) hstep
      rintro _ rfl reader hasleep
      cases hasleep
    rw [hannounced reader hasleep hmessages] at hnotifying
    cases hnotifying
  · intro hn
    obtain ⟨message⟩ := ‹Nonempty α›
    exact stuck_of_two (show (⟨1, by omega⟩ : Fin n) ≠ ⟨0, by omega⟩ by simp) message

theorem stuck_iff_readers_nat :
    (∃ s, (messageQueue Nat 2).Reachable s ∧ s.Stuck) ∧
    ¬ ∃ s, (messageQueue Nat 1).Reachable s ∧ s.Stuck :=
  ⟨(stuck_iff_readers 2).mpr (by decide), fun h => absurd ((stuck_iff_readers 1).mp h) (by decide)⟩

end Poncos.Mqtt
