import Poncos.Controller.Timers

/-!
Runs with the calls of the timers.  What a scheduler may still do to each job decides
which names are unused and which are known; a scheduler that keeps to it never makes the
timers throw, whenever the threads of the jobs begin.
-/

namespace Poncos

open Poncos.Library
open Poncos.Library.Execution
open Poncos.Library.Transition

/-- What one step does with the timers; `swaps` are the hosts of the migrations in the
order in which they are requested. -/
inductive TimerUse where
  | none
  | freeze (id : Nat)
  | thaw (id : Nat)
  | updateConfig (id : Nat) (swaps : List (String × String))
  | processEnd (id : Nat)
  deriving DecidableEq, Repr

namespace TimerUse

def swapTimers (id : Nat) (swaps : List (String × String)) : List Timer :=
  swaps.map fun hosts => .swap hosts.1 hosts.2 id

def calls : TimerUse → List TimerCall
  | .none => []
  | .freeze id => [.tick (Timer.freeze id).name]
  | .thaw id => [.tock (Timer.freeze id).name]
  | .updateConfig id swaps =>
      let names := (swapTimers id swaps).map Timer.name
      .tick (Timer.updateConfig id).name ::
        (names.map .tick ++ names.map .tock ++ [.tock (Timer.updateConfig id).name])
  | .processEnd id => [.tock (Timer.job id).name]

/-- The timers a step starts. -/
def started : TimerUse → List Timer
  | .none | .thaw _ | .processEnd _ => []
  | .freeze id => [.freeze id]
  | .updateConfig id swaps => .updateConfig id :: swapTimers id swaps

/-- The threads that have to have begun for a step to be taken. -/
def threads (c : Controller) : TimerUse → List Nat
  | .processEnd id => (c.idToTpool[id]?).toList
  | .none | .freeze _ | .thaw _ | .updateConfig _ _ => []

variable {use : TimerUse} {id : Nat}

theorem ticks_calls (use : TimerUse) : ticks use.calls = use.started.map Timer.name := by
  cases use with
  | updateConfig id swaps =>
      simp only [calls, started, ticks_tick, ticks_tock, ticks_nil, ticks_append,
        ticks_map_tick, ticks_map_tock, List.append_nil, List.map_cons]
  | none | freeze id | thaw id | processEnd id => rfl

theorem eq_freeze_of_started (h : Timer.freeze id ∈ use.started) : use = .freeze id := by
  cases use with
  | freeze i => simpa [started, eq_comm] using h
  | updateConfig i swaps => simp [started, swapTimers] at h
  | none | thaw i | processEnd i => cases h

theorem eq_updateConfig_of_started (h : Timer.updateConfig id ∈ use.started) :
    ∃ swaps, use = .updateConfig id swaps := by
  cases use with
  | updateConfig i swaps =>
      obtain rfl : id = i := by simpa [started, swapTimers] using h
      exact ⟨swaps, rfl⟩
  | freeze i => simp [started] at h
  | none | thaw i | processEnd i => cases h

theorem eq_swap_of_started {src dest : String} (h : Timer.swap src dest id ∈ use.started) :
    ∃ swaps, use = .updateConfig id swaps := by
  cases use with
  | updateConfig i swaps =>
      simp only [started, swapTimers, List.mem_cons, List.mem_map, reduceCtorEq, false_or,
        Timer.swap.injEq] at h
      obtain ⟨_, _, _, _, rfl⟩ := h
      exact ⟨swaps, rfl⟩
  | freeze i => simp [started] at h
  | none | thaw i | processEnd i => cases h

theorem job_not_started : Timer.job id ∉ use.started := by
  cases use <;> simp [started, swapTimers]

theorem mem_ticks_calls {log : List TimerCall} {name : String} :
    name ∈ ticks (log ++ use.calls) ↔
      name ∈ ticks log ∨ ∃ t ∈ use.started, t.name = name := by
  rw [ticks_append, ticks_calls, List.mem_append, List.mem_map]

end TimerUse

/-- What a scheduler may still do to the jobs: suspend and resume them with a timer, and
move them. -/
structure Duties where
  freezable : Nat → Prop
  thawable : Nat → Prop
  updatable : Nat → Prop

/-- A step keeps to the duties: every job is frozen once and thawed only afterwards, and
moved once, between pairs of hosts whose names do not read the same. -/
structure Duties.Step (d d' : Duties) (use : TimerUse) : Prop where
  freeze : ∀ id, use = .freeze id → d.freezable id
  thaw : ∀ id, use = .thaw id → d.thawable id
  update : ∀ id swaps, use = .updateConfig id swaps →
    d.updatable id ∧ (swaps.map fun hosts => hosts.1 ++ "-" ++ hosts.2).Nodup
  freezable : ∀ id, d'.freezable id → d.freezable id ∧ use ≠ .freeze id
  thawable : ∀ id, d'.thawable id → d.thawable id ∨ use = .freeze id
  updatable : ∀ id, d'.updatable id → d.updatable id ∧ ∀ swaps, use ≠ .updateConfig id swaps

namespace Duties.Step

variable {d d' : Duties} {id : Nat} (hfreezable : ∀ i, d'.freezable i → d.freezable i)
  (hthawable : ∀ i, d'.thawable i → d.thawable i)
  (hupdatable : ∀ i, d'.updatable i → d.updatable i)

include hfreezable hupdatable

include hthawable in
theorem quiet {use : TimerUse} (huse : use = .none ∨ ∃ id, use = .processEnd id) :
    d.Step d' use := by
  rcases huse with rfl | ⟨id, rfl⟩ <;>
    exact ⟨by simp, by simp, by simp, fun i hi => ⟨hfreezable i hi, by simp⟩,
      fun i hi => .inl (hthawable i hi), fun i hi => ⟨hupdatable i hi, by simp⟩⟩

include hthawable in
theorem of_thaw (hid : d.thawable id) : d.Step d' (.thaw id) := by
  refine ⟨by simp, ?_, by simp, fun i hi => ⟨hfreezable i hi, by simp⟩,
    fun i hi => .inl (hthawable i hi), fun i hi => ⟨hupdatable i hi, by simp⟩⟩
  rintro i ⟨⟩
  exact hid

theorem of_freeze (hid : d.freezable id) (hfrozen : ¬ d'.freezable id)
    (hthawable : ∀ i, d'.thawable i → d.thawable i ∨ i = id) : d.Step d' (.freeze id) := by
  refine ⟨?_, by simp, by simp, fun i hi => ⟨hfreezable i hi, ?_⟩, fun i hi => ?_,
    fun i hi => ⟨hupdatable i hi, by simp⟩⟩
  · rintro i ⟨⟩
    exact hid
  · rintro ⟨⟩
    exact hfrozen hi
  · exact (hthawable i hi).imp_right fun heq => by rw [heq]

include hthawable in
theorem of_updateConfig {swaps : List (String × String)} (hid : d.updatable id)
    (hnodup : (swaps.map fun hosts => hosts.1 ++ "-" ++ hosts.2).Nodup)
    (hmoved : ¬ d'.updatable id) : d.Step d' (.updateConfig id swaps) := by
  refine ⟨by simp, by simp, ?_, fun i hi => ⟨hfreezable i hi, by simp⟩,
    fun i hi => .inl (hthawable i hi), fun i hi => ⟨hupdatable i hi, ?_⟩⟩
  · rintro i swaps ⟨⟩
    exact ⟨hid, hnodup⟩
  · rintro swaps ⟨⟩
    exact hmoved hi

end Duties.Step

/-- The names in the log are those of the jobs that began, were frozen and were moved. -/
structure TimersInv (d : Duties) (begun : List Nat) (log : List TimerCall) : Prop where
  noThrow : NoThrow log
  freezable : ∀ id, d.freezable id → (Timer.freeze id).name ∉ ticks log
  thawable : ∀ id, d.thawable id → (Timer.freeze id).name ∈ ticks log
  updatable : ∀ id, d.updatable id → (Timer.updateConfig id).name ∉ ticks log ∧
    ∀ src dest, (Timer.swap src dest id).name ∉ ticks log
  begun : ∀ id, (Timer.job id).name ∈ ticks log ↔ id ∈ begun

section Invariant

variable {d d' : Duties} {begun : List Nat} {log : List TimerCall} {use : TimerUse}

theorem swapTimers_nodup {id : Nat} {swaps : List (String × String)}
    (h : (swaps.map fun hosts => hosts.1 ++ "-" ++ hosts.2).Nodup) :
    ((TimerUse.swapTimers id swaps).map Timer.name).Nodup := by
  rw [TimerUse.swapTimers, List.map_map]
  refine List.pairwise_map.mpr ((List.pairwise_map.mp h).imp ?_)
  intro hosts hosts' hne heq
  obtain ⟨src, dest, htimer, hread⟩ := Timer.eq_swap_of_name heq
  cases htimer
  exact hne hread

theorem noThrow_updateConfig {id : Nat} {swaps : List (String × String)} (hlog : NoThrow log)
    (hnodup : (swaps.map fun hosts => hosts.1 ++ "-" ++ hosts.2).Nodup)
    (hnew : (Timer.updateConfig id).name ∉ ticks log)
    (hswaps : ∀ src dest, (Timer.swap src dest id).name ∉ ticks log) :
    NoThrow (log ++ (TimerUse.updateConfig id swaps).calls) := by
  have hstart := hlog.tick hnew
  have hticks := hstart.tick_all (swapTimers_nodup hnodup) fun name hname => by
    obtain ⟨t, ht, rfl⟩ := List.mem_map.mp hname
    obtain ⟨hosts, _, rfl⟩ := List.mem_map.mp ht
    rw [ticks_append, ticks_tick, ticks_nil, List.mem_append, List.mem_singleton, not_or]
    exact ⟨hswaps _ _, fun heq => by cases Timer.eq_updateConfig_of_name heq⟩
  have htocks := hticks.tock_all fun name hname => by
    rw [ticks_append, ticks_map_tick]
    exact List.mem_append_right _ hname
  have hend : NoThrow (_ ++ [.tock (Timer.updateConfig id).name]) := htocks.tock (by simp)
  simpa only [TimerUse.calls, List.append_assoc, List.cons_append, List.nil_append]
    using hend

theorem TimersInv.noThrow_use (h : TimersInv d begun log) (hstep : d.Step d' use)
    (hend : ∀ id, use = .processEnd id → id ∈ begun) : NoThrow (log ++ use.calls) := by
  cases use with
  | none => simpa [TimerUse.calls] using h.noThrow
  | freeze id => exact h.noThrow.tick (h.freezable id (hstep.freeze id rfl))
  | thaw id => exact h.noThrow.tock (h.thawable id (hstep.thaw id rfl))
  | processEnd id => exact h.noThrow.tock ((h.begun id).mpr (hend id rfl))
  | updateConfig id swaps =>
      obtain ⟨hupdatable, hnodup⟩ := hstep.update id swaps rfl
      obtain ⟨hnew, hswaps⟩ := h.updatable id hupdatable
      exact noThrow_updateConfig h.noThrow hnodup hnew hswaps

theorem TimersInv.step (h : TimersInv d begun log) (hstep : d.Step d' use)
    (hend : ∀ id, use = .processEnd id → id ∈ begun) : TimersInv d' begun (log ++ use.calls) := by
  refine ⟨h.noThrow_use hstep hend, ?_, ?_, ?_, ?_⟩
  · intro id hid
    obtain ⟨hid, hne⟩ := hstep.freezable id hid
    rw [TimerUse.mem_ticks_calls, not_or]
    refine ⟨h.freezable id hid, ?_⟩
    rintro ⟨t, ht, hname⟩
    rw [Timer.eq_freeze_of_name hname] at ht
    exact hne (TimerUse.eq_freeze_of_started ht)
  · intro id hid
    rw [TimerUse.mem_ticks_calls]
    rcases hstep.thawable id hid with hid | rfl
    · exact .inl (h.thawable id hid)
    · exact .inr ⟨.freeze id, List.mem_singleton_self _, rfl⟩
  · intro id hid
    obtain ⟨hid, hne⟩ := hstep.updatable id hid
    obtain ⟨hnew, hswaps⟩ := h.updatable id hid
    refine ⟨?_, fun src dest => ?_⟩
    · rw [TimerUse.mem_ticks_calls, not_or]
      refine ⟨hnew, ?_⟩
      rintro ⟨t, ht, hname⟩
      rw [Timer.eq_updateConfig_of_name hname] at ht
      obtain ⟨swaps, huse⟩ := TimerUse.eq_updateConfig_of_started ht
      exact hne swaps huse
    · rw [TimerUse.mem_ticks_calls, not_or]
      refine ⟨hswaps src dest, ?_⟩
      rintro ⟨t, ht, hname⟩
      obtain ⟨src', dest', rfl, _⟩ := Timer.eq_swap_of_name hname
      obtain ⟨swaps, huse⟩ := TimerUse.eq_swap_of_started ht
      exact hne swaps huse
  · intro id
    rw [TimerUse.mem_ticks_calls, ← h.begun, or_iff_left]
    rintro ⟨t, ht, hname⟩
    rw [Timer.eq_job_of_name hname] at ht
    exact TimerUse.job_not_started ht

/-- The thread of a job begins. -/
theorem TimersInv.begin (h : TimersInv d begun log) {index : Nat} (hnew : index ∉ begun) :
    TimersInv d (index :: begun) (log ++ [.tick (Timer.job index).name]) := by
  have hmem : ∀ name, name ∈ ticks (log ++ [.tick (Timer.job index).name]) ↔
      name ∈ ticks log ∨ name = (Timer.job index).name := by
    intro name
    rw [ticks_append, ticks_tick, ticks_nil, List.mem_append, List.mem_singleton]
  have hother : ∀ t : Timer, t ≠ .job index → t.name ∉ ticks log →
      t.name ∉ ticks (log ++ [.tick (Timer.job index).name]) := by
    intro t hne ht
    rw [hmem, not_or]
    exact ⟨ht, fun heq => hne (Timer.eq_job_of_name heq)⟩
  refine ⟨h.noThrow.tick ((h.begun index).not.mpr hnew), ?_, ?_, ?_, ?_⟩
  · exact fun id hid => hother _ (by simp) (h.freezable id hid)
  · exact fun id hid => (hmem _).mpr (.inl (h.thawable id hid))
  · intro id hid
    obtain ⟨hupdate, hswaps⟩ := h.updatable id hid
    exact ⟨hother _ (by simp) hupdate, fun src dest => hother _ (by simp) (hswaps src dest)⟩
  · intro id
    rw [hmem, h.begun, List.mem_cons, or_comm]
    refine or_congr_left ⟨fun heq => ?_, fun heq => by rw [heq]⟩
    exact Timer.job.inj (Timer.eq_job_of_name heq)

end Invariant

/-- A scheduler with its timers: `begun` are the threads of the pool that have come to
their first call. -/
structure Timed (σ : Type) where
  state : σ
  begun : List Nat
  log : List TimerCall

inductive TimedAction (ι : Type) where
  | step (action : ι)
  | begin (index : Nat)

section System

variable {σ ι : Type} (M : System σ ι) (controller : σ → Controller)
  (timerUse : σ → ι → TimerUse)

/-- A step that fails makes no call. -/
def TimerUse.made : Exec TimerUse → TimerUse
  | .ok use => use
  | .error _ => .none

/-- The runs of `M` with the calls of the timers.  A process ends after its thread
began. -/
def timed : System (Timed σ) (TimedAction ι) where
  Init s := M.Init s.state ∧ s.begun = [] ∧ s.log = []
  step s
    | .step action => do
        let use := timerUse s.state action
        require (∀ index ∈ use.threads (controller s.state), index ∈ s.begun)
        let state ← M.step s.state action
        .ok { s with state := state, log := s.log ++ use.calls }
    | .begin index => do
        let worker ← fetch (controller s.state).threadPool index
        require (index ∉ s.begun)
        .ok { s with
          begun := index :: s.begun
          log := s.log ++ [.tick (Timer.job worker.counter).name] }

/-- The timers never clash, over the whole run. -/
def NeverClash (N : System (Timed σ) (TimedAction ι)) : Prop :=
  ∀ s, N.Reachable s → NoClash s.log

/-- A system whose steps keep to the duties. -/
structure Disciplined (duties : σ → Duties) : Prop where
  init : ∀ s, M.Init s → ∀ id, ¬ (duties s).thawable id
  consistent : ∀ s, M.Reachable s → (controller s).Consistent
  ended : ∀ s action s' id, M.Reachable s → M.step s action = .ok s' →
    timerUse s action = .processEnd id → id < (controller s).cmdCounter
  step : ∀ s action s', M.Reachable s → M.step s action = .ok s' →
    (duties s).Step (duties s') (timerUse s action)

variable {M controller timerUse}

theorem timed_forget {s : Timed σ} (hs : (timed M controller timerUse).Reachable s) :
    M.Reachable s.state := by
  induction hs with
  | init h => exact .init h.1
  | @step s s' action _ _ hstep ih =>
      cases action with
      | step action =>
          simp only [timed, bind_eq_ok] at hstep
          obtain ⟨_, _, state, hstate, h⟩ := hstep
          cases h
          exact .step ih trivial hstate
      | begin index =>
          simp only [timed, bind_eq_ok] at hstep
          obtain ⟨_, _, _, _, h⟩ := hstep
          cases h
          exact ih

theorem threads_index {c : Controller} (hc : c.Consistent) {index : Nat} {worker : Worker}
    (hworker : c.threadPool[index]? = some worker) : worker.counter = index := by
  have hcounter := congrArg (·[index]?) hc.counters
  rw [List.getElem?_map, hworker, Option.map_some] at hcounter
  obtain ⟨_, heq⟩ := List.getElem?_eq_some_iff.mp hcounter.symm
  rw [← heq, List.getElem_range]

theorem threads_processEnd {c : Controller} (hc : c.Consistent) {id : Nat}
    (hlt : id < c.cmdCounter) : (TimerUse.processEnd id).threads c = [id] := by
  rw [TimerUse.threads, hc.tpool, List.getElem?_range hlt, Option.toList_some]

theorem Disciplined.invariant {duties : σ → Duties}
    (h : Disciplined M controller timerUse duties) {s : Timed σ}
    (hs : (timed M controller timerUse).Reachable s) :
    TimersInv (duties s.state) s.begun s.log := by
  refine hs.invariant (P := fun s => TimersInv (duties s.state) s.begun s.log) ?_ ?_
  · rintro ⟨s, begun, log⟩ ⟨hinit, rfl, rfl⟩
    exact ⟨noThrow_nil, by simp, fun id hid => absurd hid (h.init s hinit id), by simp,
      by simp⟩
  · intro s action s' hs hinv _ hstep
    have hreach := timed_forget hs
    have hc := h.consistent _ hreach
    cases action with
    | step action =>
        simp only [timed, bind_eq_ok, require_eq_ok] at hstep
        obtain ⟨_, hbegun, state, hstate, heq⟩ := hstep
        cases heq
        refine hinv.step (h.step _ _ _ hreach hstate) fun id huse => hbegun id ?_
        rw [huse, threads_processEnd hc (h.ended _ _ _ _ hreach hstate huse)]
        exact List.mem_singleton_self id
    | begin index =>
        simp only [timed, bind_eq_ok, require_eq_ok, fetch_eq_ok] at hstep
        obtain ⟨worker, hworker, _, hnew, heq⟩ := hstep
        cases heq
        rw [threads_index hc hworker]
        exact hinv.begin hnew

theorem Disciplined.neverClash {duties : σ → Duties}
    (h : Disciplined M controller timerUse duties) :
    NeverClash (timed M controller timerUse) :=
  fun _ hs => (h.invariant hs).noThrow.noClash

theorem exists_timed_step {t : Timed σ} {action : ι} {s' : σ}
    (ht : (timed M controller timerUse).Reachable t)
    (hbegun : ∀ index ∈ (timerUse t.state action).threads (controller t.state),
      index ∈ t.begun)
    (hstep : M.step t.state action = .ok s') :
    ∃ t', (timed M controller timerUse).Reachable t' ∧ t'.state = s' := by
  refine ⟨⟨s', t.begun, t.log ++ (timerUse t.state action).calls⟩,
    .step (i := .step action) ht trivial ?_, rfl⟩
  simp only [timed]
  rw [bind_of_ok (require_of hbegun), bind_of_ok hstep]

/-- The calls of the timers keep no step from being taken. -/
theorem Disciplined.exists_timed {duties : σ → Duties}
    (h : Disciplined M controller timerUse duties) {s : σ} (hs : M.Reachable s) :
    ∃ t, (timed M controller timerUse).Reachable t ∧ t.state = s := by
  induction hs with
  | init hinit => exact ⟨⟨_, [], []⟩, .init ⟨hinit, rfl, rfl⟩, rfl⟩
  | @step s s' action hs _ hstep ih =>
      obtain ⟨t, ht, rfl⟩ := ih
      cases huse : timerUse t.state action with
      | processEnd id =>
          have hc := h.consistent _ hs
          have hlt := h.ended _ _ _ _ hs hstep huse
          have hthreads := threads_processEnd hc hlt
          rcases Classical.em (id ∈ t.begun) with hbegun | hnew
          · exact exists_timed_step ht (by simpa [huse, hthreads] using hbegun) hstep
          · -- the thread begins before its process ends
            have hlt' : id < (controller t.state).threadPool.length :=
              hlt.trans_eq hc.threadPool_length.symm
            obtain ⟨log, hbegin⟩ : ∃ log, (timed M controller timerUse).step t (.begin id) =
                .ok ⟨t.state, id :: t.begun, log⟩ := by
              simp only [timed]
              rw [bind_of_ok (fetch_eq_ok.mpr (List.getElem?_eq_getElem hlt')),
                bind_of_ok (require_of hnew)]
              exact ⟨_, rfl⟩
            exact exists_timed_step (.step ht trivial hbegin)
              (by simp [huse, hthreads]) hstep
      | none | freeze id | thaw id | updateConfig id swaps =>
          exact exists_timed_step ht (by simp [huse, TimerUse.threads]) hstep

end System

end Poncos
