import Poncos.Controller.Consistency

/-!
The threads that run the jobs, and what moving one of them to another phase does
to the controller.
-/

namespace Poncos.Controller

open Poncos.Library
open Poncos.Library.Execution

/-- The thread of one job is in a given phase. -/
def InPhase (c : Controller) (id : Nat) (phase : Phase) : Prop :=
  ∃ worker ∈ c.threadPool, worker.counter = id ∧ worker.phase = phase

instance (c : Controller) (id : Nat) (phase : Phase) : Decidable (InPhase c id phase) :=
  inferInstanceAs (Decidable (∃ worker ∈ c.threadPool, _))

theorem Consistent.of_running_eq {c c' : Controller} (hc : c.Consistent)
    (hcounters : c'.threadPool.map Worker.counter = c.threadPool.map Worker.counter)
    (hcounter : c'.cmdCounter = c.cmdCounter) (hconfigs : c'.idToConfig = c.idToConfig)
    (hjobs : c'.idToJob = c.idToJob) (htpool : c'.idToTpool = c.idToTpool)
    (husage : c'.machineUsage = c.machineUsage)
    (hrunning : ∀ j, c'.Running j ↔ c.Running j) : c'.Consistent := by
  have hrunning' : c'.Running = c.Running := funext fun j => propext (hrunning j)
  have hplacement : c'.placement = c.placement := by
    rw [placement, placement, husage, hconfigs]
  refine ⟨?_, ?_, ?_, ?_, ?_⟩
  · rw [hcounters, hc.counters, hcounter]
  · rw [hconfigs, hc.configs_length, hcounter]
  · rw [hjobs, hc.jobs_length, hcounter]
  · rw [htpool, hc.tpool, hcounter]
  · rw [hrunning', hplacement]
    exact hc.placed

theorem Consistent.setPhase {c : Controller} (hc : c.Consistent) {id : Nat}
    {phase : Phase} (hrunning : ∀ j, (c.setPhase id phase).Running j ↔ c.Running j) :
    (c.setPhase id phase).Consistent :=
  hc.of_running_eq (counters_setPhase c id phase) rfl rfl rfl rfl rfl hrunning

theorem Consistent.worker_unique {c : Controller} (hc : c.Consistent) {w w' : Worker}
    (hw : w ∈ c.threadPool) (hw' : w' ∈ c.threadPool) (heq : w.counter = w'.counter) :
    w = w' := by
  have hnodup : (c.threadPool.map Worker.counter).Nodup := by
    rw [hc.counters]
    exact List.nodup_range
  exact List.inj_on_of_nodup_map hnodup hw hw' heq

theorem running_of_inPhase {c : Controller} {id : Nat} {phase : Phase}
    (h : InPhase c id phase) (hphase : Phase.Active phase) : c.Running id := by
  obtain ⟨worker, hmem, hid, rfl⟩ := h
  exact ⟨worker, hmem, hid, hphase⟩

theorem not_running_of_inPhase {c : Controller} (hc : c.Consistent) {id : Nat}
    {phase : Phase} (h : InPhase c id phase) (hphase : ¬ Phase.Active phase) :
    ¬ c.Running id := by
  obtain ⟨worker, hmem, hid, rfl⟩ := h
  rintro ⟨worker', hmem', hid', hactive⟩
  have hsame := hc.worker_unique hmem hmem' (hid.trans hid'.symm)
  rw [← hsame] at hactive
  exact hphase hactive

theorem running_setPhase_ended {c : Controller} {id : Nat}
    (h : InPhase c id .executing) (j : Nat) :
    (c.setPhase id .ended).Running j ↔ c.Running j :=
  running_setPhase_active (.inr rfl) (running_of_inPhase h (.inl rfl))

theorem running_setPhase_finished {c : Controller} (hc : c.Consistent) {id : Nat}
    (h : InPhase c id .notifying) (j : Nat) :
    (c.setPhase id .finished).Running j ↔ c.Running j := by
  have hphase : ¬ Phase.Active .finished := by simp [Phase.Active]
  have hnot := not_running_of_inPhase hc h (by simp [Phase.Active])
  rw [running_setPhase_iff hphase]
  constructor
  · exact fun hj => hj.1
  · intro hj
    refine ⟨hj, ?_⟩
    rintro rfl
    exact hnot hj

theorem inPhase_setPhase_of_ne {c : Controller} {id id' : Nat} {phase phase' : Phase}
    (h : InPhase c id phase) (hne : id ≠ id') : InPhase (c.setPhase id' phase') id phase := by
  obtain ⟨worker, hmem, rfl, hphase⟩ := h
  refine ⟨worker, ?_, rfl, hphase⟩
  exact List.mem_map.mpr ⟨worker, hmem, if_neg hne⟩

theorem inPhase_setPhase_self {c : Controller} {id : Nat} {phase phase' : Phase}
    (h : InPhase c id phase) : InPhase (c.setPhase id phase') id phase' := by
  obtain ⟨worker, hmem, rfl, _⟩ := h
  refine ⟨{ worker with phase := phase' }, ?_, rfl, rfl⟩
  exact List.mem_map.mpr ⟨worker, hmem, if_pos rfl⟩

theorem inPhase_unique {c : Controller} (hc : c.Consistent) {id : Nat}
    {phase phase' : Phase} (h : InPhase c id phase) (h' : InPhase c id phase') :
    phase = phase' := by
  obtain ⟨worker, hmem, hid, rfl⟩ := h
  obtain ⟨worker', hmem', hid', rfl⟩ := h'
  rw [hc.worker_unique hmem hmem' (hid.trans hid'.symm)]

end Poncos.Controller
