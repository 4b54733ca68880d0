import Poncos.Controller.Threads
import Poncos.Controller.TableRuns
import Poncos.Library.Refinement

/-!
What any user of the controller may rely on, whichever slots it chooses: it takes
the jobs of a queue in order, moves jobs as it likes, and returns once the queue
is empty and `done` finds every slot free.  Then every job was executed once and
completed once.
-/

namespace Poncos.JobQueue

open Poncos.Library
open Poncos.Library.Execution
open Poncos.Library.Transition
open Poncos.Controller

/-- The controller in use: the jobs not yet executed, the ids the locked block of a
completion was run for, and whether `done` has returned. -/
structure State where
  controller : Controller
  queue : List Job
  completed : List Nat
  returned : Bool

inductive Action where
  | execute (generateCommand : CommandGenerator) (config : ExecuteConfig)
  | updateConfig (id : Nat) (newConfig : ExecuteConfig)
  | processEnd (id : Nat)
  | complete (id : Nat)
  | notifyAll (id : Nat)
  | done

def execute (generateCommand : CommandGenerator) (config : ExecuteConfig) (s : State) :
    Exec State :=
  match s.queue with
  | [] => .error .disabled
  | job :: rest => do
      let (c, _) ← s.controller.execute generateCommand job config
      .ok { s with controller := c, queue := rest }

def done (s : State) : Exec State := do
  require (s.queue = [])
  let free ← Controller.allFree s.controller.systemConfig s.controller.machineUsage
  require free
  .ok { s with returned := true }

def step (s : State) : Action → Exec State
  | .execute generateCommand config => execute generateCommand config s
  | .updateConfig id newConfig => do
      let c ← s.controller.updateConfig id newConfig
      .ok { s with controller := c }
  | .processEnd id => do
      require (InPhase s.controller id .executing)
      .ok { s with controller := s.controller.setPhase id .ended }
  | .complete id => do
      require (InPhase s.controller id .ended)
      let c ← s.controller.executeCommandInternal id
      .ok { s with controller := c, completed := s.completed ++ [id] }
  | .notifyAll id => do
      require (InPhase s.controller id .notifying)
      .ok { s with controller := s.controller.setPhase id .finished }
  | .done => done s

section Steps

variable {s : State} {c : Controller} {id : Nat}

theorem step_execute {generateCommand : CommandGenerator} {config : ExecuteConfig} {job : Job}
    {rest : List Job} (hqueue : s.queue = job :: rest)
    (hexecute : s.controller.execute generateCommand job config = .ok (c, id)) :
    step s (.execute generateCommand config) =
      .ok { s with controller := c, queue := rest } := by
  simp [step, execute, hqueue, hexecute, bind_of_ok rfl]

theorem step_updateConfig {newConfig : ExecuteConfig}
    (hupdate : s.controller.updateConfig id newConfig = .ok c) :
    step s (.updateConfig id newConfig) = .ok { s with controller := c } := by
  simp [step, hupdate, bind_of_ok rfl]

theorem step_processEnd (hphase : InPhase s.controller id .executing) :
    step s (.processEnd id) =
      .ok { s with controller := s.controller.setPhase id .ended } := by
  simp [step, hphase, require, bind_of_ok rfl]

theorem step_complete (hphase : InPhase s.controller id .ended)
    (hcomplete : s.controller.executeCommandInternal id = .ok c) :
    step s (.complete id) =
      .ok { s with controller := c, completed := s.completed ++ [id] } := by
  simp [step, hphase, hcomplete, require, bind_of_ok rfl]

theorem step_notifyAll (hphase : InPhase s.controller id .notifying) :
    step s (.notifyAll id) =
      .ok { s with controller := s.controller.setPhase id .finished } := by
  simp [step, hphase, require, bind_of_ok rfl]

theorem step_done (hqueue : s.queue = [])
    (hfree : Controller.allFree s.controller.systemConfig s.controller.machineUsage =
      .ok true) : step s .done = .ok { s with returned := true } := by
  simp [step, done, hqueue, hfree, require, bind_of_ok rfl]

end Steps

def system (jobs : List Job) : System State Action where
  Init s := ∃ machines systemConfig, s = ⟨create machines systemConfig, jobs, [], false⟩
  step := step

/-- The slots of a config exist in the system configuration. -/
def SlotsExist (c : Controller) (config : ExecuteConfig) : Prop :=
  ∀ p ∈ config, p.2 < c.systemConfig.slots.length

/-- The calls a user may make: jobs are placed and moved on existing slots, and a
job that is moved still runs or has left its slots free. -/
def Admissible (s : State) : Action → Prop
  | .execute _ config => SlotsExist s.controller config
  | .updateConfig id newConfig =>
      s.controller.MovableJob id ∧ SlotsExist s.controller newConfig
  | _ => True

/-- Where all jobs are done: every job of the queue was executed once and in order,
its id is its place in the queue, its thread ran the completion once, and every
slot is free. -/
structure JobsDone (jobs : List Job) (c : Controller) (completed : List Nat) : Prop where
  executed : c.idToJob = jobs
  threads : c.threadPool.map Worker.counter = List.range jobs.length
  completed : completed.Perm (List.range jobs.length)
  ended : ∀ id, ¬ c.Running id
  free : ∀ p owner, c.machineUsage.get? p = some owner → owner = none

/-- What holds of the tables on the way. -/
structure JobsAccounted (jobs : List Job) (s : State) : Prop where
  consistent : s.controller.Consistent
  jobs : s.controller.idToJob ++ s.queue = jobs
  rows : ∀ config ∈ s.controller.idToConfig, config ≠ []
  slots : ∀ config ∈ s.controller.idToConfig, SlotsExist s.controller config
  nodup : s.completed.Nodup
  completed : ∀ id, id ∈ s.completed ↔ id < s.controller.cmdCounter ∧
    ¬ s.controller.Running id
  returned : s.returned = true → s.queue = [] ∧ ∀ id, ¬ s.controller.Running id

theorem rowFree_spec {usage : SlotAllocation} {slots : List Nat}
    (h : rowFree usage slots = .ok true) {s : Nat} (hs : s ∈ slots) :
    usage[s]? = some none := by
  induction slots with
  | nil => cases hs
  | cons t rest ih =>
      simp only [rowFree, bind_eq_ok, fetch_eq_ok] at h
      obtain ⟨owner, ht, h⟩ := h
      split at h
      · rename_i hnone
        rcases List.mem_cons.mp hs with rfl | hs
        · rw [ht, hnone]
        · exact ih h hs
      · cases h

theorem allFree_spec {systemConfig : SystemConfig} {usage : MachineUsage}
    (h : allFree systemConfig usage = .ok true) {p : Cell}
    (hslot : p.2 < systemConfig.slots.length) (hcell : (usage.get? p).isSome) :
    usage.get? p = some none := by
  obtain ⟨m, s⟩ := p
  induction usage generalizing m with
  | nil => cases hcell
  | cons row rest ih =>
      simp only [allFree, bind_eq_ok] at h
      obtain ⟨free, hrow, h⟩ := h
      cases free with
      | false => cases h
      | true =>
          cases m with
          | zero => exact rowFree_spec hrow (List.mem_range.mpr hslot)
          | succ m => exact ih h m hslot hcell

theorem slotsExist_updateConfig {c c' : Controller} {id : Nat} {newConfig : ExecuteConfig}
    {σ : Equiv.Perm Cell} (hslots : ∀ config ∈ c.idToConfig, SlotsExist c config)
    (hnew : SlotsExist c newConfig) (heffect : UpdateEffect c c' id newConfig σ) {p : Cell}
    (hp : p.2 < c.systemConfig.slots.length) : (σ p).2 < c.systemConfig.slots.length := by
  rcases eq_or_ne (σ p) p with hfix | hmoves
  · rw [hfix]
    exact hp
  -- a slot that the permutation moves is a new slot or a slot the job gave up
  have hmoves' : σ (σ p) ≠ σ p := fun h => hmoves (σ.injective h)
  rcases Classical.em (σ p ∈ newConfig) with hmem | hmem
  · exact hnew _ hmem
  have hold : ∃ m, c.placement.configs.get? (id, m) = some (σ p) := by
    by_contra hnone
    push Not at hnone
    exact hmoves' (heffect.loop.support (σ p) hmem fun m _ => hnone m)
  obtain ⟨m, hm⟩ := hold
  obtain ⟨config, hrow, hentry⟩ := Grid.get?_eq_some_iff.mp hm
  exact hslots config (List.mem_of_getElem? hrow) _ (List.mem_of_getElem? hentry)

theorem row_updateConfig {c c' : Controller} {id : Nat} {newConfig config' : ExecuteConfig}
    {σ : Equiv.Perm Cell} (heffect : UpdateEffect c c' id newConfig σ)
    (hmem : config' ∈ c'.idToConfig) :
    config' = newConfig ∨
      ∃ config ∈ c.idToConfig, config' = config ∨ config' = config.map σ := by
  obtain ⟨j, hj⟩ := List.mem_iff_getElem?.mp hmem
  rcases eq_or_ne j id with rfl | hne
  · exact .inl (Option.some_inj.mp (hj.symm.trans heffect.moved))
  right
  rcases Classical.em (c.Running j) with hrunning | hrunning
  · have hlt := (List.getElem?_eq_some_iff.mp hj).1
    rw [show c'.idToConfig.length = c.idToConfig.length from heffect.loop.length_eq] at hlt
    have hrow := heffect.row_map hrunning (List.getElem?_eq_getElem hlt)
    exact ⟨_, List.getElem_mem hlt, .inr (Option.some_inj.mp (hj.symm.trans hrow))⟩
  · have hrow : c.idToConfig[j]? = some config' :=
      (heffect.loop.others j hrunning hne).symm.trans hj
    exact ⟨config', List.mem_of_getElem? hrow, .inl rfl⟩

namespace JobsAccounted

variable {jobs : List Job} {s s' : State}

theorem create (machines : List String) (systemConfig : SystemConfig) (jobs : List Job) :
    JobsAccounted jobs ⟨Controller.create machines systemConfig, jobs, [], false⟩ where
  consistent := create_consistent machines systemConfig
  jobs := rfl
  rows := by simp [Controller.create]
  slots := by simp [Controller.create]
  nodup := List.nodup_nil
  completed := by simp [Controller.create]
  returned := by simp

theorem execute (h : JobsAccounted jobs s) {generateCommand : CommandGenerator}
    {config : ExecuteConfig} (hslots : SlotsExist s.controller config)
    (hstep : JobQueue.execute generateCommand config s = .ok s') :
    JobsAccounted jobs s' := by
  rw [JobQueue.execute] at hstep
  split at hstep
  · cases hstep
  rename_i job rest hqueue
  simp only [bind_eq_ok, Prod.exists] at hstep
  obtain ⟨c, id, hexecute, hstep⟩ := hstep
  cases hstep
  have heffect := execute_effect hexecute
  refine ⟨heffect.consistent h.consistent, ?_, ?_, ?_, h.nodup, ?_, ?_⟩
  · rw [← h.jobs, hqueue, heffect.idToJob, List.append_assoc, List.singleton_append]
  · intro config' hconfig'
    rw [heffect.idToConfig, List.mem_append, List.mem_singleton] at hconfig'
    rcases hconfig' with hold | rfl
    · exact h.rows config' hold
    · exact heffect.nonempty
  · intro config' hconfig'
    rw [SlotsExist, heffect.systemConfig]
    rw [heffect.idToConfig, List.mem_append, List.mem_singleton] at hconfig'
    rcases hconfig' with hold | rfl
    · exact h.slots config' hold
    · exact hslots
  · intro j
    have hid := heffect.id_eq
    rw [h.completed, heffect.running_iff, heffect.cmdCounter]
    constructor
    · rintro ⟨hlt, hnot⟩
      exact ⟨by omega, by rintro (hj | rfl) <;> [exact hnot hj; omega]⟩
    · rintro ⟨hlt, hnot⟩
      push Not at hnot
      exact ⟨by omega, hnot.1⟩
  · intro hreturned
    rw [(h.returned hreturned).1] at hqueue
    cases hqueue

theorem updateConfig (h : JobsAccounted jobs s) {id : Nat} {newConfig : ExecuteConfig}
    {c : Controller} (hmov : s.controller.MovableJob id)
    (hslots : SlotsExist s.controller newConfig)
    (hupdate : s.controller.updateConfig id newConfig = .ok c) :
    JobsAccounted jobs { s with controller := c } := by
  obtain ⟨σ, heffect⟩ := updateConfig_effect h.consistent hmov hupdate
  refine ⟨heffect.consistent h.consistent, ?_, ?_, ?_, h.nodup, ?_, ?_⟩
  · rw [heffect.idToJob]
    exact h.jobs
  · intro config' hconfig'
    obtain ⟨j, hj⟩ := List.mem_iff_getElem?.mp hconfig'
    rintro rfl
    -- the row had an entry before, so it has one now
    have hlt := (List.getElem?_eq_some_iff.mp hj).1
    rw [show c.idToConfig.length = s.controller.idToConfig.length from
      heffect.loop.length_eq] at hlt
    have hentry := heffect.loop.isSome_eq (j, 0)
    rw [Grid.get?_of_row (g := c.placement.configs) hj,
      Grid.get?_of_row (g := s.controller.placement.configs)
        (List.getElem?_eq_getElem hlt)] at hentry
    exact h.rows _ (List.getElem_mem hlt)
      (List.eq_nil_iff_length_eq_zero.mpr (by simpa using hentry))
  · intro config' hconfig' p hp
    rw [heffect.systemConfig]
    rcases row_updateConfig heffect hconfig' with rfl | ⟨config, hconfig, rfl | rfl⟩
    · exact hslots p hp
    · exact h.slots _ hconfig p hp
    · obtain ⟨q, hq, rfl⟩ := List.mem_map.mp hp
      exact slotsExist_updateConfig h.slots hslots heffect (h.slots config hconfig q hq)
  · intro j
    rw [h.completed, heffect.cmdCounter, heffect.running_iff]
  · intro hreturned
    obtain ⟨hqueue, hnone⟩ := h.returned hreturned
    exact ⟨hqueue, fun j hj => hnone j ((heffect.running_iff j).mp hj)⟩

theorem setPhase (h : JobsAccounted jobs s) {id : Nat} {phase : Phase}
    (hrunning : ∀ j, (s.controller.setPhase id phase).Running j ↔
      s.controller.Running j) :
    JobsAccounted jobs { s with controller := s.controller.setPhase id phase } where
  consistent := h.consistent.setPhase hrunning
  jobs := h.jobs
  rows := h.rows
  slots := h.slots
  nodup := h.nodup
  completed j := by
    rw [h.completed, hrunning]
    rfl
  returned hreturned :=
    ⟨(h.returned hreturned).1, fun j hj => (h.returned hreturned).2 j ((hrunning j).mp hj)⟩

theorem complete (h : JobsAccounted jobs s) {id : Nat} {c : Controller}
    (hphase : InPhase s.controller id .ended)
    (hcomplete : s.controller.executeCommandInternal id = .ok c) :
    JobsAccounted jobs { s with controller := c, completed := s.completed ++ [id] } := by
  obtain ⟨config, heffect⟩ := executeCommandInternal_effect hcomplete
  have hid := running_of_inPhase hphase (.inr rfl)
  refine ⟨heffect.consistent h.consistent hid, ?_, ?_, ?_, ?_, ?_, ?_⟩
  · rw [heffect.idToJob]
    exact h.jobs
  · rw [heffect.idToConfig]
    exact h.rows
  · rw [heffect.idToConfig]
    intro config' hconfig'
    rw [SlotsExist, heffect.systemConfig]
    exact h.slots config' hconfig'
  · have hnot : id ∉ s.completed := fun hmem => ((h.completed id).mp hmem).2 hid
    exact List.nodup_append.mpr ⟨h.nodup, List.nodup_singleton id, by
      rintro j hj _ hj' rfl
      exact hnot (List.mem_singleton.mp hj' ▸ hj)⟩
  · intro j
    rw [List.mem_append, List.mem_singleton, h.completed, heffect.cmdCounter,
      heffect.running_iff]
    constructor
    · rintro (⟨hlt, hnot⟩ | rfl)
      · exact ⟨hlt, fun hj => hnot hj.1⟩
      · exact ⟨h.consistent.running_lt hid, fun hj => hj.2 rfl⟩
    · rintro ⟨hlt, hnot⟩
      rcases eq_or_ne j id with rfl | hne
      · exact .inr rfl
      · exact .inl ⟨hlt, fun hj => hnot ⟨hj, hne⟩⟩
  · intro hreturned
    exact absurd hid ((h.returned hreturned).2 id)

/-- `done` returns only where no job runs: a running job holds a slot that the
predicate looks at. -/
theorem done (h : JobsAccounted jobs s) (hstep : JobQueue.done s = .ok s') :
    JobsAccounted jobs s' := by
  simp only [JobQueue.done, bind_eq_ok, require_eq_ok] at hstep
  obtain ⟨_, hqueue, free, hfree, _, rfl, hstep⟩ := hstep
  cases hstep
  refine ⟨h.consistent, h.jobs, h.rows, h.slots, h.nodup, h.completed, fun _ => ⟨hqueue, ?_⟩⟩
  intro id hid
  obtain ⟨config, hrow⟩ := h.consistent.exists_config hid
  have hmem := List.mem_of_getElem? hrow
  obtain ⟨p, hp⟩ := List.exists_mem_of_ne_nil config (h.rows config hmem)
  have howner := (h.consistent.owner_iff p id).mpr ⟨hid, config, hrow, hp⟩
  rw [allFree_spec hfree (h.slots config hmem p hp) (by rw [howner]; rfl)] at howner
  cases howner

theorem step (h : JobsAccounted jobs s) {action : Action} (hguard : Admissible s action)
    (hstep : JobQueue.step s action = .ok s') : JobsAccounted jobs s' := by
  cases action with
  | execute generateCommand config => exact h.execute hguard hstep
  | updateConfig id newConfig =>
      simp only [JobQueue.step, bind_eq_ok] at hstep
      obtain ⟨c, hupdate, hstep⟩ := hstep
      cases hstep
      exact h.updateConfig hguard.1 hguard.2 hupdate
  | processEnd id =>
      simp only [JobQueue.step, bind_eq_ok, require_eq_ok] at hstep
      obtain ⟨_, hphase, hstep⟩ := hstep
      cases hstep
      exact h.setPhase (running_setPhase_ended hphase)
  | complete id =>
      simp only [JobQueue.step, bind_eq_ok, require_eq_ok] at hstep
      obtain ⟨_, hphase, c, hcomplete, hstep⟩ := hstep
      cases hstep
      exact h.complete hphase hcomplete
  | notifyAll id =>
      simp only [JobQueue.step, bind_eq_ok, require_eq_ok] at hstep
      obtain ⟨_, hphase, hstep⟩ := hstep
      cases hstep
      exact h.setPhase (running_setPhase_finished h.consistent hphase)
  | done => exact h.done hstep

theorem jobsDone (h : JobsAccounted jobs s) (hreturned : s.returned = true) :
    JobsDone jobs s.controller s.completed := by
  obtain ⟨hqueue, hnone⟩ := h.returned hreturned
  have hjobs : s.controller.idToJob = jobs := by
    rw [← h.jobs, hqueue, List.append_nil]
  have hcounter : s.controller.cmdCounter = jobs.length := by
    rw [← h.consistent.jobs_length, hjobs]
  refine ⟨hjobs, ?_, ?_, hnone, ?_⟩
  · rw [h.consistent.counters, hcounter]
  · refine (List.perm_ext_iff_of_nodup h.nodup List.nodup_range).mpr fun id => ?_
    rw [h.completed, List.mem_range, hcounter]
    exact and_iff_left (hnone id)
  · intro p owner howner
    cases owner with
    | none => rfl
    | some id => exact absurd ((h.consistent.owner_iff p id).mp howner).1 (hnone id)

end JobsAccounted

theorem reachable_accounted {jobs : List Job} {s : State}
    (hs : (system jobs).ReachableVia Admissible s) : JobsAccounted jobs s := by
  refine hs.invariant ?_ ?_
  · rintro s ⟨machines, systemConfig, rfl⟩
    exact .create machines systemConfig jobs
  · intro s action s' _ h hguard hstep
    exact h.step hguard hstep

end Poncos.JobQueue
