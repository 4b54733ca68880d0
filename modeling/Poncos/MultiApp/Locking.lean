import Poncos.Library.Mutex
import Poncos.MultiApp.Transitions

/-!
The lock of the controller.  All threads share one mutex and, the completion
threads apart, one `unique_lock` with a single ownership flag, so that
`owns_lock` may answer for another thread.  The steps of the scheduler, the
completion threads and the detached waiters are those of `Schedule`, with
locking, unlocking, waiting and the test of the flag as steps of their own.
-/

namespace Poncos.MultiApp

open Poncos.Library
open Poncos.Library.Execution
open Poncos.Library.Transition
open Poncos.Controller

inductive Thread where
  | scheduler
  | worker (id : Nat)
  | waiter (index : Nat)
  deriving DecidableEq, Repr

/-- The scheduler before its first wait or asleep in one, at the test of the flag,
at `lock`, or between a wait and the next. -/
inductive SchedulerLock where
  | outside
  | testing
  | locking
  | inside
  deriving DecidableEq, Repr

/-- A detached thread: inside `wait_for_change` up to `asleep`, between its return
and the next call, at `unlock`, or returned. -/
inductive WaiterLock where
  | testing
  | locking
  | waiting
  | asleep
  | inside
  | unlocking
  | finished
  deriving DecidableEq, Repr

/-- `ownsLock` is the flag of `work_counter_lock`; `workers` are the completion
threads inside their locked block. -/
structure LockState where
  data : State
  mutex : Option Thread
  ownsLock : Bool
  scheduler : SchedulerLock
  workers : List Nat
  waiters : List WaiterLock
  deriving DecidableEq, Repr

inductive LockAction where
  | schedule (distgenRes : List ℚ)
  | schedulerTest
  | schedulerLock
  | schedulerWake
  | processEnd (id : Nat)
  | workerLock (id : Nat)
  | workerUnlock (id : Nat)
  | notifyAll (id : Nat)
  | waiterTest (index : Nat)
  | waiterLock (index : Nat)
  | waiterWait (index : Nat)
  | waiterWake (index : Nat)
  | waiterCheck (index : Nat)
  | waiterUnlock (index : Nat)
  deriving Repr

/-- Where the scheduler is after one of its steps: a call of a wait begins with the
test of the flag, and a condition that is false leads into the wait. -/
def SchedulerLock.after (scheduler : SchedulerLock) : Pc → SchedulerLock
  | .waitRessource _ => .testing
  | .done => .testing
  | .asleep _ => .outside
  | _ => scheduler

namespace LockState

/-- The mutex and the flag are taken together. -/
def acquire (s : LockState) (t : Thread) : LockState :=
  { s with mutex := some t, ownsLock := true }

/-- Unlocking, and entering a wait, release both. -/
def release (s : LockState) : LockState := { s with mutex := none, ownsLock := false }

def setWaiter (s : LockState) (index : Nat) (waiter : WaiterLock) : LockState :=
  { s with waiters := s.waiters.set index waiter }

end LockState

def State.enterWait (s : State) (index : Nat) : State :=
  { s with
    waiters := s.waiters.modify index fun w => { w with phase := .asleep false } }

variable (σ : Settings)

def lockSchedule (distgenRes : List ℚ) (s : LockState) : Exec LockState := do
  require (s.scheduler = .outside ∨ s.scheduler = .inside)
  let data ← scheduleStep σ distgenRes s.data
  let next : LockState :=
    { s with
      data := data
      scheduler := s.scheduler.after data.pc
      waiters := s.waiters ++
        List.replicate (data.waiters.length - s.data.waiters.length) .testing }
  .ok (if data.LockFree then next.release else next)

def lockStep (s : LockState) : LockAction → Exec LockState
  | .schedule distgenRes => lockSchedule σ distgenRes s
  | .schedulerTest => do
      require (s.scheduler = .testing)
      .ok { s with scheduler := if s.ownsLock then .inside else .locking }
  | .schedulerLock => do
      require (s.scheduler = .locking ∧ s.mutex = none)
      .ok { s.acquire .scheduler with scheduler := .inside }
  | .schedulerWake => do
      require (s.mutex = none)
      let data ← wakeStep s.data
      .ok { s.acquire .scheduler with data := data, scheduler := .inside }
  | .processEnd id => do
      require (InPhase s.data.controller id .executing)
      .ok { s with
        data := { s.data with controller := s.data.controller.setPhase id .ended } }
  | .workerLock id => do
      require (InPhase s.data.controller id .ended ∧ id ∉ s.workers ∧ s.mutex = none)
      .ok { s with mutex := some (.worker id), workers := id :: s.workers }
  | .workerUnlock id => do
      require (id ∈ s.workers)
      let data ← completeStep id s.data
      .ok { s with data := data, mutex := none, workers := s.workers.filter (· ≠ id) }
  | .notifyAll id => do
      let data ← notifyStep id s.data
      .ok { s with data := data }
  | .waiterTest index => do
      require (s.waiters[index]? = some .testing)
      .ok (s.setWaiter index (if s.ownsLock then .waiting else .locking))
  | .waiterLock index => do
      require (s.waiters[index]? = some .locking ∧ s.mutex = none)
      .ok ((s.acquire (.waiter index)).setWaiter index .waiting)
  | .waiterWait index => do
      require (s.waiters[index]? = some .waiting)
      .ok ({ s.release with data := s.data.enterWait index }.setWaiter index .asleep)
  | .waiterWake index => do
      require (s.waiters[index]? = some .asleep ∧ s.mutex = none)
      .ok ((s.acquire (.waiter index)).setWaiter index .inside)
  | .waiterCheck index => do
      require (s.waiters[index]? = some .inside)
      let data ← waiterWakeStep σ index s.data
      let thawed := (data.waiters[index]?.map Waiter.phase) = some .finished
      .ok ({ s with data := data }.setWaiter index (if thawed then .unlocking else .testing))
  | .waiterUnlock index => do
      require (s.waiters[index]? = some .unlocking)
      .ok (s.release.setWaiter index .finished)

/-- Runs without update support, with no thread but the scheduler at the start. -/
def lockSystem : System LockState LockAction where
  Init s := σ.backend = .cgroup ∧ ∃ data, (system σ).Init data ∧
    s = ⟨data, none, false, .outside, [], []⟩
  step := lockStep σ

/-- The thread is inside a region that uses the controller or the utilisations. -/
def InRegion (s : LockState) : Thread → Prop
  | .scheduler => s.scheduler = .inside
  | .worker id => id ∈ s.workers
  | .waiter index => s.waiters[index]? = some .inside ∨ s.waiters[index]? = some .unlocking

def Pc.AtWait : Pc → Prop
  | .waitRessource _ => True
  | .done => True
  | _ => False

/-- The step is a wait or an unlock, executed by the thread. -/
def WaitsOrUnlocks (s s' : LockState) : LockAction → Thread → Prop
  | .schedule _, t => (s.data.pc.AtWait ∨ s'.data.LockFree) ∧ t = .scheduler
  | .workerUnlock id, t => t = .worker id
  | .waiterWait index, t => t = .waiter index
  | .waiterUnlock index, t => t = .waiter index
  | _, _ => False

structure LockLaw (s : LockState) : Prop where
  exclusive : ∀ t t', InRegion s t → InRegion s t' → t = t'
  held : ∀ action s' t, lockStep σ s action = .ok s' → WaitsOrUnlocks s s' action t →
    s.mutex = some t

/-- The condition on a step: a waiter that finds the flag set holds the mutex. -/
def OwnsItself (s : LockState) : LockAction → Prop
  | .waiterTest index => s.ownsLock = true → s.mutex = some (.waiter index)
  | _ => True

instance (s : LockState) : DecidablePred (OwnsItself s)
  | .waiterTest index => inferInstanceAs (Decidable (_ → s.mutex = some (.waiter index)))
  | .schedule _ | .schedulerTest | .schedulerLock | .schedulerWake | .processEnd _
  | .workerLock _ | .workerUnlock _ | .notifyAll _ | .waiterLock _ | .waiterWait _
  | .waiterWake _ | .waiterCheck _ | .waiterUnlock _ => isTrue trivial

/-- No thread but the scheduler was started, and no wait was entered. -/
structure Unshared (s : LockState) : Prop where
  ownsLock : s.ownsLock = false
  threadPool : s.data.controller.threadPool = []
  workers : s.workers = []
  waiters : s.waiters = []

/-- The waiter is between taking the mutex and releasing it. -/
def WaiterLock.Holds : WaiterLock → Prop
  | .waiting => True
  | .inside => True
  | .unlocking => True
  | _ => False

/-- The thread acts as an owner of the mutex.  The scheduler also does so where it
will find the flag set that it left behind. -/
def Owner (s : LockState) : Thread → Prop
  | .scheduler => s.scheduler = .inside ∨ s.scheduler = .testing ∧ ¬ Unshared s
  | .worker id => id ∈ s.workers
  | .waiter index => ∃ waiter, s.waiters[index]? = some waiter ∧ waiter.Holds

structure LockInv (s : LockState) : Prop where
  owner : Mutex.Sound s.mutex (Owner s)
  outside : s.scheduler = .outside → s.data.LockFree ∨ Unshared s ∧ s.data.pc = .nextJob

namespace Unshared

variable {s : LockState}

theorem not_of_inPhase {id : Nat} {phase : Phase}
    (h : InPhase s.data.controller id phase) : ¬ Unshared s := by
  intro hs
  obtain ⟨worker, hmem, _⟩ := h
  simp [hs.threadPool] at hmem

theorem not_of_worker {id : Nat} (h : id ∈ s.workers) : ¬ Unshared s := by
  intro hs
  simp [hs.workers] at h

theorem not_of_waiter {index : Nat} {waiter : WaiterLock}
    (h : s.waiters[index]? = some waiter) : ¬ Unshared s := by
  intro hs
  simp [hs.waiters] at h

end Unshared

theorem InRegion.owner {s : LockState} {t : Thread} (h : InRegion s t) : Owner s t := by
  cases t with
  | scheduler => exact .inl h
  | worker id => exact h
  | waiter index =>
      rcases h with h | h
      · exact ⟨_, h, trivial⟩
      · exact ⟨_, h, trivial⟩

section Steps

variable {σ} {s s' : LockState}

theorem owner_scheduler_of_eq (h : Owner s' .scheduler) (hshared : ¬ Unshared s)
    (heq : s'.scheduler = s.scheduler) : Owner s .scheduler := by
  rcases h with h | ⟨h, _⟩
  · exact .inl (heq ▸ h)
  · exact .inr ⟨heq ▸ h, hshared⟩

theorem owner_setWaiter {index : Nat} {waiter : WaiterLock} {t : Thread}
    (hwaiters : s'.waiters = s.waiters.set index waiter) (hworkers : s'.workers = s.workers)
    (hscheduler : s'.scheduler = s.scheduler) (hshared : ¬ Unshared s)
    (h : Owner s' t) : t = .waiter index ∧ waiter.Holds ∨ t ≠ .waiter index ∧ Owner s t := by
  cases t with
  | scheduler => exact .inr ⟨by simp, owner_scheduler_of_eq h hshared hscheduler⟩
  | worker id =>
      rw [Owner, hworkers] at h
      exact .inr ⟨by simp, h⟩
  | waiter index' =>
      obtain ⟨w, hw, hholds⟩ := h
      rw [hwaiters, List.getElem?_set] at hw
      split at hw
      · rename_i heq
        split at hw
        · cases hw
          exact .inl ⟨by rw [heq], hholds⟩
        · cases hw
      · rename_i hne
        refine .inr ⟨?_, w, hw, hholds⟩
        rintro ⟨⟩
        exact hne rfl

theorem LockInv.lockFree (h : LockInv s) (hshared : ¬ Unshared s)
    (hout : s.scheduler = .outside) : s.data.LockFree :=
  (h.outside hout).resolve_right fun hs => hshared hs.1

theorem LockInv.of_other (h : LockInv s) (hshared : ¬ Unshared s)
    (howner : Mutex.Sound s'.mutex (Owner s')) (hscheduler : s'.scheduler = s.scheduler)
    (hpc : s'.data.pc = s.data.pc) : LockInv s' := by
  refine ⟨howner, fun hout => .inl ?_⟩
  obtain ⟨wait, hwait⟩ := h.lockFree hshared (hscheduler ▸ hout)
  exact ⟨wait, hpc.trans hwait⟩

theorem not_lockFree_of_atWait {data : State} (h : data.pc.AtWait) : ¬ data.LockFree := by
  rintro ⟨wait, hwait⟩
  rw [hwait] at h
  exact h

theorem not_lockFree_of_scheduleStep {r : List ℚ} {data data' : State}
    (h : scheduleStep σ r data = .ok data') : ¬ data.LockFree := by
  rintro ⟨wait, hwait⟩
  simp [scheduleStep, hwait] at h

theorem scheduleStep_nextJob {r : List ℚ} {data data' : State} (hpc : data.pc = .nextJob)
    (h : scheduleStep σ r data = .ok data') :
    data'.controller = data.controller ∧ data'.waiters = data.waiters ∧ data'.pc.AtWait := by
  cases scheduleStep_trans h with
  | nextJob => exact ⟨rfl, rfl, trivial⟩
  | lastJob => exact ⟨rfl, rfl, trivial⟩
  | _ => simp_all

theorem after_of_atWait {scheduler : SchedulerLock} {pc : Pc} (h : pc.AtWait) :
    scheduler.after pc = .testing := by
  cases pc with
  | waitRessource job => rfl
  | done => rfl
  | _ => exact h.elim

theorem after_eq_outside {scheduler : SchedulerLock} {data : State}
    (hne : scheduler ≠ .outside) (h : scheduler.after data.pc = .outside) :
    data.LockFree := by
  cases hpc : data.pc with
  | asleep wait => exact ⟨wait, hpc⟩
  | waitRessource job =>
      rw [hpc] at h
      cases h
  | done =>
      rw [hpc] at h
      cases h
  | _ =>
      rw [hpc] at h
      exact absurd h hne

theorem holds_append {waiters : List WaiterLock} {n index : Nat} {waiter : WaiterLock}
    (h : (waiters ++ List.replicate n .testing)[index]? = some waiter)
    (hholds : waiter.Holds) : waiters[index]? = some waiter := by
  rw [List.getElem?_append] at h
  split at h
  · exact h
  · rw [List.getElem?_replicate] at h
    split at h
    · cases h
      exact hholds.elim
    · cases h

/-- The first wait of the scheduler lies ahead: no other thread exists. -/
theorem LockInv.firstSchedule {r : List ℚ} (hs : Unshared s) (hpc : s.data.pc = .nextJob)
    (hstep : lockSchedule σ r s = .ok s') : LockInv s' := by
  simp only [lockSchedule, bind_eq_ok, require_eq_ok] at hstep
  obtain ⟨_, _, data, hdata, hstep⟩ := hstep
  obtain ⟨hcontroller, hwaiters, hat⟩ := scheduleStep_nextJob hpc hdata
  rw [if_neg (not_lockFree_of_atWait hat), after_of_atWait hat, hwaiters] at hstep
  cases hstep
  have hunshared : Unshared
      { s with
        data := data
        scheduler := .testing
        waiters := s.waiters ++
          List.replicate (s.data.waiters.length - s.data.waiters.length) .testing } := by
    refine ⟨hs.ownsLock, ?_, hs.workers, by simp [hs.waiters]⟩
    rw [hcontroller]
    exact hs.threadPool
  refine ⟨?_, by rintro ⟨⟩⟩
  intro t ht
  cases t with
  | scheduler =>
      rcases ht with ht | ⟨_, ht⟩
      · cases ht
      · exact absurd hunshared ht
  | worker id => exact absurd hunshared (Unshared.not_of_worker ht)
  | waiter index =>
      obtain ⟨waiter, hwaiter, _⟩ := ht
      exact absurd hunshared (Unshared.not_of_waiter hwaiter)

theorem LockInv.insideSchedule {r : List ℚ} (h : LockInv s) (hin : s.scheduler = .inside)
    (hstep : lockSchedule σ r s = .ok s') : LockInv s' := by
  simp only [lockSchedule, bind_eq_ok, require_eq_ok] at hstep
  obtain ⟨_, _, data, _, hstep⟩ := hstep
  have howner : Owner s .scheduler := .inl hin
  split at hstep
  · rename_i hfree
    cases hstep
    refine ⟨h.owner.drop howner ?_, fun _ => .inl hfree⟩
    obtain ⟨wait, hwait⟩ := hfree
    intro t ht
    cases t with
    | scheduler => simp [Owner, LockState.release, hwait, SchedulerLock.after] at ht
    | worker id => exact ⟨by simp, ht⟩
    | waiter index =>
        obtain ⟨waiter, hwaiter, hholds⟩ := ht
        exact ⟨by simp, waiter, holds_append hwaiter hholds, hholds⟩
  · rename_i hfree
    cases hstep
    refine ⟨h.owner.keep ?_, fun hout => absurd (after_eq_outside (by simp [hin]) hout) hfree⟩
    intro t ht
    cases t with
    | scheduler => exact howner
    | worker id => exact ht
    | waiter index =>
        obtain ⟨waiter, hwaiter, hholds⟩ := ht
        exact ⟨waiter, holds_append hwaiter hholds, hholds⟩

theorem LockInv.schedule {r : List ℚ} (h : LockInv s)
    (hstep : lockSchedule σ r s = .ok s') : LockInv s' := by
  have hplace := hstep
  simp only [lockSchedule, bind_eq_ok, require_eq_ok] at hplace
  obtain ⟨_, hout | hin, data, hdata, _⟩ := hplace
  · rcases h.outside hout with hfree | ⟨hs, hpc⟩
    · exact absurd hfree (not_lockFree_of_scheduleStep hdata)
    · exact .firstSchedule hs hpc hstep
  · exact h.insideSchedule hin hstep

theorem LockInv.schedulerTakes (h : LockInv s) (hfree : s.mutex = none) (data : State) :
    LockInv { s.acquire .scheduler with data := data, scheduler := .inside } := by
  have howner := h.owner
  rw [hfree] at howner
  refine ⟨howner.take ?_, by rintro ⟨⟩⟩
  intro t ht
  cases t with
  | scheduler => exact .inl rfl
  | worker id => exact .inr ht
  | waiter index => exact .inr ht

theorem LockInv.schedulerTests (h : LockInv s) (htesting : s.scheduler = .testing) :
    LockInv { s with scheduler := if s.ownsLock then .inside else .locking } := by
  refine ⟨h.owner.keep ?_, ?_⟩
  · intro t ht
    cases t with
    | scheduler =>
        refine .inr ⟨htesting, fun hs => ?_⟩
        simp [Owner, hs.ownsLock] at ht
    | worker id => exact ht
    | waiter index => exact ht
  · intro hout
    change (if s.ownsLock then SchedulerLock.inside else .locking) = .outside at hout
    split at hout
    · cases hout
    · cases hout

theorem LockInv.workerLocks {id : Nat} (h : LockInv s) (hfree : s.mutex = none)
    (hphase : InPhase s.data.controller id .ended) :
    LockInv { s with mutex := some (.worker id), workers := id :: s.workers } := by
  have hshared := Unshared.not_of_inPhase hphase
  have howner := h.owner
  rw [hfree] at howner
  refine h.of_other hshared (howner.take ?_) rfl rfl
  intro t ht
  cases t with
  | scheduler => exact .inr (owner_scheduler_of_eq ht hshared rfl)
  | worker id' =>
      rcases List.mem_cons.mp ht with rfl | ht
      · exact .inl rfl
      · exact .inr ht
  | waiter index => exact .inr ht

theorem LockInv.workerUnlocks {id : Nat} (h : LockInv s) (hmem : id ∈ s.workers)
    {data : State} (hpc : data.pc = s.data.pc) :
    LockInv { s with
      data := data, mutex := none, workers := s.workers.filter (· ≠ id) } := by
  have hshared := Unshared.not_of_worker hmem
  refine h.of_other hshared (h.owner.drop (t := .worker id) hmem ?_) rfl hpc
  intro t ht
  cases t with
  | scheduler => exact ⟨by simp, owner_scheduler_of_eq ht hshared rfl⟩
  | worker id' =>
      obtain ⟨hmem', hne⟩ := List.mem_filter.mp ht
      exact ⟨by simpa using hne, hmem'⟩
  | waiter index => exact ⟨by simp, ht⟩

theorem LockInv.dataStep (h : LockInv s) (hshared : ¬ Unshared s) {data : State}
    (hpc : data.pc = s.data.pc) : LockInv { s with data := data } := by
  refine h.of_other hshared (h.owner.keep ?_) rfl hpc
  intro t ht
  cases t with
  | scheduler => exact owner_scheduler_of_eq ht hshared rfl
  | worker id => exact ht
  | waiter index => exact ht

/-- A step of a waiter keeps the mutex as it is, takes it, or releases it. -/
theorem LockInv.waiterStep {index : Nat} {old new : WaiterLock} (h : LockInv s)
    (hold : s.waiters[index]? = some old)
    (hmutex : s'.mutex = s.mutex ∧ (new.Holds → s.mutex = some (.waiter index)) ∨
      s.mutex = none ∧ s'.mutex = some (.waiter index) ∨
      old.Holds ∧ ¬ new.Holds ∧ s'.mutex = none)
    (hwaiters : s'.waiters = s.waiters.set index new) (hworkers : s'.workers = s.workers)
    (hscheduler : s'.scheduler = s.scheduler) (hpc : s'.data.pc = s.data.pc) :
    LockInv s' := by
  have hshared := Unshared.not_of_waiter hold
  have hset : ∀ t, Owner s' t →
      t = .waiter index ∧ new.Holds ∨ t ≠ .waiter index ∧ Owner s t :=
    fun t => owner_setWaiter hwaiters hworkers hscheduler hshared
  refine h.of_other hshared ?_ hscheduler hpc
  rcases hmutex with ⟨hkeep, hnew⟩ | ⟨hfree, htake⟩ | ⟨hholds, hnot, hdrop⟩
  · rw [hkeep]
    intro t ht
    rcases hset t ht with ⟨rfl, hholds⟩ | ⟨_, howner⟩
    · exact hnew hholds
    · exact h.owner t howner
  · have howner := h.owner
    rw [hfree] at howner
    rw [htake]
    exact howner.take fun t ht => (hset t ht).imp And.left And.right
  · rw [hdrop]
    have howner : Owner s (.waiter index) := ⟨old, hold, hholds⟩
    exact h.owner.drop howner fun t ht => (hset t ht).resolve_left fun hin => hnot hin.2

theorem completeStep_pc {id : Nat} {data data' : State}
    (h : completeStep id data = .ok data') : data'.pc = data.pc := by
  simp only [completeStep, bind_eq_ok] at h
  obtain ⟨_, _, _, _, _, _, h⟩ := h
  cases h
  rfl

theorem waiterWakeStep_pc {index : Nat} {data data' : State}
    (h : waiterWakeStep σ index data = .ok data') : data'.pc = data.pc := by
  rw [waiterWakeStep] at h
  split at h
  · simp only [bind_eq_ok] at h
    obtain ⟨_, _, h⟩ := h
    split at h
    · simp only [bind_eq_ok] at h
      obtain ⟨_, _, h⟩ := h
      cases h
      rfl
    · cases h
      rfl
  · cases h

theorem LockInv.step {action : LockAction} (h : LockInv s) (hguard : OwnsItself s action)
    (hstep : lockStep σ s action = .ok s') : LockInv s' := by
  cases action with
  | schedule r => exact h.schedule hstep
  | schedulerTest =>
      simp only [lockStep, bind_eq_ok, require_eq_ok] at hstep
      obtain ⟨_, htesting, hstep⟩ := hstep
      cases hstep
      exact h.schedulerTests htesting
  | schedulerLock =>
      simp only [lockStep, bind_eq_ok, require_eq_ok] at hstep
      obtain ⟨_, ⟨_, hfree⟩, hstep⟩ := hstep
      cases hstep
      exact h.schedulerTakes hfree s.data
  | schedulerWake =>
      simp only [lockStep, bind_eq_ok, require_eq_ok] at hstep
      obtain ⟨_, hfree, data, _, hstep⟩ := hstep
      cases hstep
      exact h.schedulerTakes hfree data
  | processEnd id =>
      simp only [lockStep, bind_eq_ok, require_eq_ok] at hstep
      obtain ⟨_, hphase, hstep⟩ := hstep
      cases hstep
      exact h.dataStep (Unshared.not_of_inPhase hphase) rfl
  | workerLock id =>
      simp only [lockStep, bind_eq_ok, require_eq_ok] at hstep
      obtain ⟨_, ⟨hphase, _, hfree⟩, hstep⟩ := hstep
      cases hstep
      exact h.workerLocks hfree hphase
  | workerUnlock id =>
      simp only [lockStep, bind_eq_ok, require_eq_ok] at hstep
      obtain ⟨_, hmem, data, hdata, hstep⟩ := hstep
      cases hstep
      exact h.workerUnlocks hmem (completeStep_pc hdata)
  | notifyAll id =>
      simp only [lockStep, notifyStep, bind_eq_ok, require_eq_ok] at hstep
      obtain ⟨data, ⟨_, hphase, hdata⟩, hstep⟩ := hstep
      cases hdata
      cases hstep
      exact h.dataStep (Unshared.not_of_inPhase hphase) rfl
  | waiterTest index =>
      simp only [lockStep, bind_eq_ok, require_eq_ok] at hstep
      obtain ⟨_, htesting, hstep⟩ := hstep
      cases hstep
      refine h.waiterStep htesting (.inl ⟨rfl, fun hholds => hguard ?_⟩) rfl rfl rfl rfl
      rcases Bool.eq_false_or_eq_true s.ownsLock with hset | hclear
      · exact hset
      · simp [hclear, WaiterLock.Holds] at hholds
  | waiterLock index =>
      simp only [lockStep, bind_eq_ok, require_eq_ok] at hstep
      obtain ⟨_, ⟨hlocking, hfree⟩, hstep⟩ := hstep
      cases hstep
      exact h.waiterStep hlocking (.inr (.inl ⟨hfree, rfl⟩)) rfl rfl rfl rfl
  | waiterWait index =>
      simp only [lockStep, bind_eq_ok, require_eq_ok] at hstep
      obtain ⟨_, hwaiting, hstep⟩ := hstep
      cases hstep
      exact h.waiterStep hwaiting (.inr (.inr ⟨trivial, id, rfl⟩)) rfl rfl rfl rfl
  | waiterWake index =>
      simp only [lockStep, bind_eq_ok, require_eq_ok] at hstep
      obtain ⟨_, ⟨hasleep, hfree⟩, hstep⟩ := hstep
      cases hstep
      exact h.waiterStep hasleep (.inr (.inl ⟨hfree, rfl⟩)) rfl rfl rfl rfl
  | waiterCheck index =>
      simp only [lockStep, bind_eq_ok, require_eq_ok] at hstep
      obtain ⟨_, hinside, data, hdata, hstep⟩ := hstep
      cases hstep
      have hmutex := h.owner (.waiter index) ⟨_, hinside, trivial⟩
      exact h.waiterStep hinside (.inl ⟨rfl, fun _ => hmutex⟩) rfl rfl rfl
        (waiterWakeStep_pc hdata)
  | waiterUnlock index =>
      simp only [lockStep, bind_eq_ok, require_eq_ok] at hstep
      obtain ⟨_, hunlocking, hstep⟩ := hstep
      cases hstep
      exact h.waiterStep hunlocking (.inr (.inr ⟨trivial, id, rfl⟩)) rfl rfl rfl rfl

theorem LockInv.lockLaw (h : LockInv s) : LockLaw σ s := by
  refine ⟨fun t t' ht ht' => h.owner.unique ht.owner ht'.owner, ?_⟩
  intro action s' t hstep hwait
  cases action with
  | schedule r =>
      obtain ⟨hwait, rfl⟩ := hwait
      simp only [lockStep, lockSchedule, bind_eq_ok, require_eq_ok] at hstep
      obtain ⟨_, hout | hin, data, hdata, hstep⟩ := hstep
      · rcases h.outside hout with hfree | ⟨_, hpc⟩
        · exact absurd hfree (not_lockFree_of_scheduleStep hdata)
        · obtain ⟨_, _, hat⟩ := scheduleStep_nextJob hpc hdata
          rw [if_neg (not_lockFree_of_atWait hat)] at hstep
          cases hstep
          rcases hwait with hwait | hfree
          · rw [hpc] at hwait
            exact hwait.elim
          · exact absurd hfree (not_lockFree_of_atWait hat)
      · exact h.owner .scheduler (.inl hin)
  | workerUnlock id =>
      obtain rfl := hwait
      simp only [lockStep, bind_eq_ok, require_eq_ok] at hstep
      obtain ⟨_, hmem, _⟩ := hstep
      exact h.owner (.worker id) hmem
  | waiterWait index =>
      obtain rfl := hwait
      simp only [lockStep, bind_eq_ok, require_eq_ok] at hstep
      obtain ⟨_, hwaiting, _⟩ := hstep
      exact h.owner (.waiter index) ⟨_, hwaiting, trivial⟩
  | waiterUnlock index =>
      obtain rfl := hwait
      simp only [lockStep, bind_eq_ok, require_eq_ok] at hstep
      obtain ⟨_, hunlocking, _⟩ := hstep
      exact h.owner (.waiter index) ⟨_, hunlocking, trivial⟩
  | _ => exact hwait.elim

end Steps

theorem init_lockInv {s : LockState} (h : (lockSystem σ).Init s) : LockInv s := by
  obtain ⟨_, data, ⟨machines, systemConfig, vmLocations, queue, _, _, rfl⟩, rfl⟩ := h
  have hunshared : Unshared
      ⟨start machines systemConfig vmLocations queue, none, false, .outside, [], []⟩ :=
    ⟨rfl, rfl, rfl, rfl⟩
  refine ⟨?_, fun _ => .inr ⟨hunshared, rfl⟩⟩
  intro t ht
  cases t with
  | scheduler => simp [Owner] at ht
  | worker id => simp [Owner] at ht
  | waiter index => simp [Owner] at ht

/-- A waiter that takes the flag of another thread for its own goes on to a wait,
which releases the mutex of the holder. -/
theorem not_lockLaw_of_not_ownsItself {s s' : LockState} {action : LockAction}
    (hguard : ¬ OwnsItself s action) (hstep : lockStep σ s action = .ok s') :
    ¬ LockLaw σ s' := by
  cases action with
  | waiterTest index =>
      rw [OwnsItself, Classical.not_imp] at hguard
      obtain ⟨hset, hother⟩ := hguard
      simp only [lockStep, bind_eq_ok, require_eq_ok] at hstep
      obtain ⟨_, htesting, hstep⟩ := hstep
      rw [if_pos hset] at hstep
      cases hstep
      have hwaiting : (s.setWaiter index .waiting).waiters[index]? = some .waiting := by
        obtain ⟨hindex, _⟩ := List.getElem?_eq_some_iff.mp htesting
        exact List.getElem?_set_self hindex
      intro h
      have hwait : lockStep σ (s.setWaiter index .waiting) (.waiterWait index) = .ok _ :=
        bind_of_ok (a := ()) (require_eq_ok.mpr hwaiting)
      exact hother (h.held _ _ _ hwait rfl)
  | _ => exact absurd trivial hguard

/-- Every run in which no waiter takes the flag of another thread for its own obeys
the law of the lock, and the first step that does so breaks it. -/
theorem lockLaw_iff {s : LockState} (hs : (lockSystem σ).ReachableVia OwnsItself s) :
    LockLaw σ s ∧ ∀ action s', lockStep σ s action = .ok s' →
      (LockLaw σ s' ↔ OwnsItself s action) := by
  have hinv : LockInv s := by
    refine hs.invariant (fun s h => init_lockInv σ h) ?_
    intro s action s' _ h hguard hstep
    exact h.step hguard hstep
  refine ⟨hinv.lockLaw, ?_⟩
  intro action s' hstep
  constructor
  · intro hlaw
    exact not_not.mp fun hguard => not_lockLaw_of_not_ownsItself σ hguard hstep hlaw
  · intro hguard
    exact (hinv.step hguard hstep).lockLaw

def lockedPass (distgenRes : List ℚ) : List LockAction :=
  [.schedule [], .schedule [], .schedule [], .schedule distgenRes, .schedule [],
   .schedule []]

/-- A run up to the point where the second of two jobs is frozen and its waiter
started; the scheduler holds the mutex. -/
def detachSecond : List LockAction :=
  [.schedule [], .schedulerTest, .schedulerLock] ++ lockedPass [4 / 10] ++
    [.schedule [], .schedulerTest] ++ lockedPass [5 / 10]

def lockStart : LockState :=
  ⟨twoMachines .cgroup [⟨1, 1, "", true⟩, ⟨1, 1, "", true⟩], none, false, .outside, [], []⟩

theorem lockStart_init : (lockSystem (plainSettings .cgroup)).Init lockStart :=
  ⟨rfl, _, twoMachines_init _ _, rfl⟩

/-- The waiter asks for the flag while the scheduler sleeps, and thaws its job. -/
theorem lockLaw_iff_sleepsFirst : ∃ s, s.mutex = some (.waiter 0) ∧
    s.waiters = [.unlocking] ∧ LockLaw (plainSettings .cgroup) s := by
  have hrun : ((lockSystem (plainSettings .cgroup)).runVia
      (fun s action => decide (OwnsItself s action)) lockStart
      (detachSecond ++ [.schedule [], .schedulerTest, .schedule [], .waiterTest 0,
        .waiterLock 0, .waiterWait 0, .processEnd 0, .workerLock 0, .workerUnlock 0,
        .notifyAll 0, .waiterWake 0, .waiterCheck 0])).map
          (fun s => (s.mutex, s.waiters)) =
      .ok (some (.waiter 0), [.unlocking]) := by
    decide +kernel
  obtain ⟨s, hrun, hs⟩ := map_eq_ok.mp hrun
  rw [Prod.mk.injEq] at hs
  obtain ⟨hmutex, hwaiters⟩ := hs
  refine ⟨s, hmutex, hwaiters, (lockLaw_iff (plainSettings .cgroup) ?_).1⟩
  exact System.runVia_reachable (fun _ _ => of_decide_eq_true) (.init lockStart_init) hrun

/-- The waiter takes the flag of the scheduler for its own and waits, so that a
completion thread enters its block while the scheduler is at work. -/
theorem not_lockLaw_borrowedFlag : ∃ s,
    (lockSystem (plainSettings .cgroup)).Reachable s ∧
      ¬ LockLaw (plainSettings .cgroup) s := by
  have hrun : ((lockSystem (plainSettings .cgroup)).run lockStart
      (detachSecond ++ [.waiterTest 0, .waiterWait 0, .processEnd 0, .workerLock 0])).map
        (fun s => (s.scheduler, s.workers)) =
      .ok (.inside, [0]) := by
    decide +kernel
  obtain ⟨s, hrun, hs⟩ := map_eq_ok.mp hrun
  rw [Prod.mk.injEq] at hs
  obtain ⟨hscheduler, hworkers⟩ := hs
  refine ⟨s, System.run_reachable (fun _ _ => trivial) (.init lockStart_init) hrun, ?_⟩
  intro h
  have hworker : InRegion s (.worker 0) := by
    rw [InRegion, hworkers]
    exact List.mem_singleton_self 0
  cases h.exclusive .scheduler (.worker 0) hscheduler hworker

end Poncos.MultiApp
