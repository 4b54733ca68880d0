import Mathlib.Data.List.Nodup
import Poncos.Controller.UpdateConfig
import Poncos.Library.Transition

/-!
The per-job tables and the occupancy table stay in step under `execute`,
completions and `update_config`, in any order and for any overlap between old
and new configs.
-/

namespace Poncos.Controller

open Poncos.Library
open Poncos.Library.Execution
open Poncos.Library.Transition

section Loops

variable {id : Nat} {config : ExecuteConfig} {usage usage' : MachineUsage}

theorem occupy_spec (h : occupy id config usage = .ok usage') :
    config.Nodup ∧ (∀ p ∈ config, usage.get? p = some none) ∧
      ∀ q, usage'.get? q = if q ∈ config then some (some id) else usage.get? q := by
  induction config generalizing usage with
  | nil =>
      cases h
      simp
  | cons p rest ih =>
      simp only [occupy, bind_eq_ok, Grid.read_eq_ok, ensure_eq_ok] at h
      obtain ⟨owner, hp, _, rfl, hrest⟩ := h
      obtain ⟨hnodup, hfree, hget⟩ := ih hrest
      have hsome : (usage.get? p).isSome := by simp [hp]
      have hnot : p ∉ rest := by
        intro hmem
        have := hfree p hmem
        rw [Grid.get?_put_self _ hsome] at this
        simp at this
      refine ⟨List.nodup_cons.mpr ⟨hnot, hnodup⟩, ?_, ?_⟩
      · intro q hq
        rcases List.mem_cons.mp hq with rfl | hq
        · exact hp
        · have hne : p ≠ q := fun h => hnot (h ▸ hq)
          rw [← Grid.get?_put_of_ne (g := usage) (some id) hne]
          exact hfree q hq
      · intro q
        rw [hget]
        by_cases hq : q ∈ rest
        · simp [hq]
        · by_cases hqp : q = p
          · subst hqp
            simp [hq, Grid.get?_put_self _ hsome]
          · simp [hq, hqp, Grid.get?_put_of_ne _ (Ne.symm hqp)]

theorem occupy_ok (hnodup : config.Nodup)
    (hfree : ∀ p ∈ config, usage.get? p = some none) :
    ∃ usage', occupy id config usage = .ok usage' := by
  induction config generalizing usage with
  | nil => exact ⟨usage, rfl⟩
  | cons p rest ih =>
      obtain ⟨hnot, hnodup⟩ := List.nodup_cons.mp hnodup
      have hfree' : ∀ q ∈ rest, (usage.put p (some id)).get? q = some none := by
        intro q hq
        have hne : p ≠ q := fun h => hnot (h ▸ hq)
        rw [Grid.get?_put_of_ne _ hne]
        exact hfree q (List.mem_cons_of_mem p hq)
      obtain ⟨usage', h⟩ := ih hnodup hfree'
      exact ⟨usage', by simp [occupy, hfree p List.mem_cons_self, h]⟩

theorem occupy_rectangular {rows columns : Nat} (hu : usage.Rectangular rows columns)
    (h : occupy id config usage = .ok usage') : usage'.Rectangular rows columns := by
  induction config generalizing usage with
  | nil =>
      cases h
      exact hu
  | cons p rest ih =>
      simp only [occupy, bind_eq_ok] at h
      obtain ⟨_, _, _, _, hrest⟩ := h
      exact ih (hu.put p _) hrest

theorem release_spec (h : release config usage = .ok usage') :
    ∀ q, usage'.get? q = if q ∈ config then some none else usage.get? q := by
  induction config generalizing usage with
  | nil =>
      cases h
      simp
  | cons p rest ih =>
      simp only [release, bind_eq_ok, Grid.read_eq_ok, ensure_eq_ok] at h
      obtain ⟨owner, hp, _, _, hrest⟩ := h
      have hsome : (usage.get? p).isSome := by simp [hp]
      intro q
      rw [ih hrest]
      by_cases hq : q ∈ rest
      · simp [hq]
      · by_cases hqp : q = p
        · subst hqp
          simp [hq, Grid.get?_put_self _ hsome]
        · simp [hq, hqp, Grid.get?_put_of_ne _ (Ne.symm hqp)]

theorem release_ok (hnodup : config.Nodup)
    (htaken : ∀ p ∈ config, ∃ j, usage.get? p = some (some j)) :
    ∃ usage', release config usage = .ok usage' := by
  induction config generalizing usage with
  | nil => exact ⟨usage, rfl⟩
  | cons p rest ih =>
      obtain ⟨hnot, hnodup⟩ := List.nodup_cons.mp hnodup
      obtain ⟨j, hj⟩ := htaken p List.mem_cons_self
      have htaken' : ∀ q ∈ rest, ∃ j, (usage.put p none).get? q = some (some j) := by
        intro q hq
        have hne : p ≠ q := fun h => hnot (h ▸ hq)
        rw [Grid.get?_put_of_ne _ hne]
        exact htaken q (List.mem_cons_of_mem p hq)
      obtain ⟨usage', h⟩ := ih hnodup htaken'
      exact ⟨usage', by simp [release, hj, h]⟩

theorem release_rectangular {rows columns : Nat} (hu : usage.Rectangular rows columns)
    (h : release config usage = .ok usage') : usage'.Rectangular rows columns := by
  induction config generalizing usage with
  | nil =>
      cases h
      exact hu
  | cons p rest ih =>
      simp only [release, bind_eq_ok] at h
      obtain ⟨_, _, _, _, hrest⟩ := h
      exact ih (hu.put p _) hrest

end Loops

theorem updateStep_rectangular {id i : Nat} {nc : ExecuteConfigElem}
    {t t' : Placement} {rows columns : Nat} (ht : t.usage.Rectangular rows columns)
    (h : updateStep id i nc t = .ok t') : t'.usage.Rectangular rows columns := by
  simp only [updateStep, bind_eq_ok, Grid.read_eq_ok] at h
  obtain ⟨oc, _, op, _, usage, hswap, h⟩ := h
  cases op with
  | none =>
      cases h
      exact ht.swap hswap
  | some op =>
      simp only [bind_eq_ok] at h
      obtain ⟨opConfig, _, h⟩ := h
      cases hfind : opConfig.findIdx? (· = nc) with
      | none => simp [hfind] at h
      | some k =>
          simp only [hfind, bind_eq_ok] at h
          obtain ⟨configs, _, h⟩ := h
          cases h
          exact ht.swap hswap

theorem updateLoop_rectangular {id i : Nat} {newConfig : ExecuteConfig}
    {t t' : Placement} {rows columns : Nat} (ht : t.usage.Rectangular rows columns)
    (h : updateLoop id i newConfig t = .ok t') : t'.usage.Rectangular rows columns := by
  induction newConfig generalizing i t with
  | nil =>
      cases h
      exact ht
  | cons nc rest ih =>
      simp only [updateLoop, bind_eq_ok] at h
      obtain ⟨t₁, hstep, hrest⟩ := h
      exact ih (updateStep_rectangular ht hstep) hrest

theorem updateLoop_range {id i : Nat} {newConfig : ExecuteConfig} {t t' : Placement}
    {rows columns : Nat} (ht : t.usage.Rectangular rows columns)
    (h : updateLoop id i newConfig t = .ok t') :
    ∀ p ∈ newConfig, p.1 < rows ∧ p.2 < columns := by
  induction newConfig generalizing i t with
  | nil => simp
  | cons nc rest ih =>
      simp only [updateLoop, bind_eq_ok] at h
      obtain ⟨t₁, hstep, hrest⟩ := h
      intro p hp
      rcases List.mem_cons.mp hp with rfl | hp
      · simp only [updateStep, bind_eq_ok, Grid.read_eq_ok] at hstep
        obtain ⟨_, _, op, hop, _⟩ := hstep
        exact (ht.isSome_iff p).mp (by rw [hop]; rfl)
      · exact ih (updateStep_rectangular ht hstep) hrest p hp

/-- A call that returns has moved its job inside the table. -/
theorem updateConfig_range {c c' : Controller} {id : Nat} {newConfig : ExecuteConfig}
    {rows columns : Nat} (hc : c.machineUsage.Rectangular rows columns)
    (h : c.updateConfig id newConfig = .ok c') :
    ∀ p ∈ newConfig, p.1 < rows ∧ p.2 < columns := by
  simp only [updateConfig, bind_eq_ok] at h
  obtain ⟨_, _, _, _, t, hloop, _⟩ := h
  exact updateLoop_range hc hloop

theorem updateConfig_frame {c c' : Controller} {id : Nat} {newConfig : ExecuteConfig}
    (h : c.updateConfig id newConfig = .ok c') : c'.machines = c.machines ∧
      c'.systemConfig = c.systemConfig ∧ c'.cmdCounter = c.cmdCounter := by
  simp only [updateConfig, bind_eq_ok] at h
  obtain ⟨_, _, _, _, _, _, _, _, _, _, h⟩ := h
  cases h
  exact ⟨rfl, rfl, rfl⟩

/-- The two tables `update_config` rewrites. -/
def placement (c : Controller) : Placement := ⟨c.machineUsage, c.idToConfig⟩

/-- The relation between the tables of a controller that every operation keeps. -/
structure Consistent (c : Controller) : Prop where
  counters : c.threadPool.map Worker.counter = List.range c.cmdCounter
  configs_length : c.idToConfig.length = c.cmdCounter
  jobs_length : c.idToJob.length = c.cmdCounter
  tpool : c.idToTpool = List.range c.cmdCounter
  placed : Placed c.Running c.placement

namespace Consistent

variable {c : Controller}

theorem threadPool_length (hc : c.Consistent) : c.threadPool.length = c.cmdCounter := by
  have := congrArg List.length hc.counters
  simpa using this

theorem running_lt (hc : c.Consistent) {id : Nat} (hid : c.Running id) :
    id < c.cmdCounter := by
  obtain ⟨worker, hmem, rfl, _⟩ := hid
  have : worker.counter ∈ c.threadPool.map Worker.counter :=
    List.mem_map_of_mem hmem
  rw [hc.counters] at this
  exact List.mem_range.mp this

theorem exists_config (hc : c.Consistent) {id : Nat} (hid : c.Running id) :
    ∃ config, c.idToConfig[id]? = some config := by
  have hlt := hc.running_lt hid
  rw [← hc.configs_length] at hlt
  exact ⟨_, List.getElem?_eq_getElem hlt⟩

theorem owner_iff (hc : c.Consistent) (p : Cell) (j : Nat) :
    c.machineUsage.get? p = some (some j) ↔
      c.Running j ∧ ∃ config, c.idToConfig[j]? = some config ∧ p ∈ config := by
  rw [show c.machineUsage = c.placement.usage from rfl, hc.placed.owner_iff]
  refine and_congr_right fun hj => ?_
  constructor
  · rintro ⟨i, hi⟩
    obtain ⟨config, hrow, hmem⟩ := Grid.get?_eq_some_iff.mp hi
    exact ⟨config, hrow, List.mem_of_getElem? hmem⟩
  · rintro ⟨config, hrow, hmem⟩
    obtain ⟨i, hi⟩ := List.mem_iff_getElem?.mp hmem
    exact ⟨i, Grid.get?_eq_some_iff.mpr ⟨config, hrow, hi⟩⟩

theorem nodup (hc : c.Consistent) {j : Nat} {config : ExecuteConfig}
    (hj : c.Running j) (hrow : c.idToConfig[j]? = some config) : config.Nodup := by
  refine List.nodup_iff_injective_get.mpr fun i k heq => Fin.ext ?_
  have hcell := Grid.get?_of_row (g := c.placement.configs) hrow
  refine hc.placed.inj j i k (config.get i) hj ?_ ?_
  · rw [hcell]
    simp
  · rw [hcell, heq]
    simp

end Consistent

theorem running_append_iff (c : Controller) (command : String) (j : Nat) :
    (∃ worker ∈ c.threadPool ++ [⟨command, c.cmdCounter, .executing⟩],
        worker.counter = j ∧ Phase.Active worker.phase) ↔
      c.Running j ∨ j = c.cmdCounter := by
  constructor
  · rintro ⟨worker, hmem, hj, hactive⟩
    rcases List.mem_append.mp hmem with hmem | hmem
    · exact .inl ⟨worker, hmem, hj, hactive⟩
    · obtain rfl := List.mem_singleton.mp hmem
      exact .inr hj.symm
  · rintro (⟨worker, hmem, hj, hactive⟩ | rfl)
    · exact ⟨worker, List.mem_append_left _ hmem, hj, hactive⟩
    · exact ⟨_, List.mem_append_right _ (List.mem_singleton_self _), rfl, .inl rfl⟩

structure ExecuteEffect (c c' : Controller) (job : Job) (config : ExecuteConfig)
    (id : Nat) : Prop where
  id_eq : id = c.cmdCounter
  nonempty : config ≠ []
  nodup : config.Nodup
  free : ∀ p ∈ config, c.machineUsage.get? p = some none
  machines : c'.machines = c.machines
  systemConfig : c'.systemConfig = c.systemConfig
  usage : ∀ q, c'.machineUsage.get? q =
    if q ∈ config then some (some id) else c.machineUsage.get? q
  idToConfig : c'.idToConfig = c.idToConfig ++ [config]
  idToJob : c'.idToJob = c.idToJob ++ [job]
  idToTpool : c'.idToTpool = c.idToTpool ++ [c.threadPool.length]
  threadPool : ∃ command, c'.threadPool =
    c.threadPool ++ [⟨command, c.cmdCounter, .executing⟩]
  cmdCounter : c'.cmdCounter = c.cmdCounter + 1
  rectangular : ∀ rows columns, c.machineUsage.Rectangular rows columns →
    c'.machineUsage.Rectangular rows columns

theorem execute_effect {generateCommand : CommandGenerator} {c c' : Controller}
    {job : Job} {config : ExecuteConfig} {id : Nat}
    (h : c.execute generateCommand job config = .ok (c', id)) :
    ExecuteEffect c c' job config id := by
  simp only [execute, bind_eq_ok, ensure_eq_ok] at h
  obtain ⟨_, hne, usage, hoccupy, command, _, h⟩ := h
  cases h
  obtain ⟨hnodup, hfree, husage⟩ := occupy_spec hoccupy
  exact ⟨rfl, hne, hnodup, hfree, rfl, rfl, husage, rfl, rfl, rfl, ⟨command, rfl⟩,
    rfl, fun _ _ hu => occupy_rectangular hu hoccupy⟩

/-- `execute` on free, distinct slots can only fail in the command generator. -/
theorem execute_fault {generateCommand : CommandGenerator} {c : Controller}
    {job : Job} {config : ExecuteConfig} (hne : config ≠ []) (hnodup : config.Nodup)
    (hfree : ∀ p ∈ config, c.machineUsage.get? p = some none) {fault : Fault}
    (h : c.execute generateCommand job config = .error fault) :
    ∃ c', generateCommand c' job c.cmdCounter config = .error fault := by
  obtain ⟨usage, hoccupy⟩ := @occupy_ok c.cmdCounter _ _ hnodup hfree
  rw [execute, ensure_of hne, bind_of_ok rfl, hoccupy, bind_of_ok rfl] at h
  rcases bind_eq_error.mp h with hcommand | ⟨_, _, h⟩
  · exact ⟨_, hcommand⟩
  · cases h

/-- A slot held after the call is one of the new job, or was held before. -/
theorem ExecuteEffect.owner_cases {c c' : Controller} {job : Job} {config : ExecuteConfig}
    {id : Nat} (h : ExecuteEffect c c' job config id) {p : Cell} {j : Nat}
    (howner : c'.machineUsage.get? p = some (some j)) :
    p ∈ config ∧ j = id ∨ c.machineUsage.get? p = some (some j) := by
  rw [h.usage] at howner
  split at howner
  · rename_i hp
    cases howner
    exact .inl ⟨hp, rfl⟩
  · exact .inr howner

theorem ExecuteEffect.free_before {c c' : Controller} {job : Job} {config : ExecuteConfig}
    {id : Nat} (h : ExecuteEffect c c' job config id) {p : Cell}
    (hfree : c'.machineUsage.get? p = some none) : c.machineUsage.get? p = some none := by
  rw [h.usage] at hfree
  split at hfree
  · cases hfree
  · exact hfree

theorem ExecuteEffect.running_iff {c c' : Controller} {job : Job} {config : ExecuteConfig}
    {id : Nat} (h : ExecuteEffect c c' job config id) (j : Nat) :
    c'.Running j ↔ c.Running j ∨ j = id := by
  obtain ⟨command, hpool⟩ := h.threadPool
  rw [Running, hpool, h.id_eq]
  exact running_append_iff c command j

theorem ExecuteEffect.consistent {c c' : Controller} {job : Job}
    {config : ExecuteConfig} {id : Nat} (h : ExecuteEffect c c' job config id)
    (hc : c.Consistent) : c'.Consistent := by
  obtain ⟨command, hpool⟩ := h.threadPool
  have hrunning : ∀ j, c'.Running j ↔ c.Running j ∨ j = c.cmdCounter := by
    intro j
    rw [h.running_iff, h.id_eq]
  have hold : ∀ j i, c.Running j →
      c'.placement.configs.get? (j, i) = c.placement.configs.get? (j, i) := by
    intro j i hj
    have hlt := hc.running_lt hj
    simp only [placement, Grid.get?, h.idToConfig]
    rw [List.getElem?_append_left (by rw [hc.configs_length]; exact hlt)]
  have hnew : ∀ i, c'.placement.configs.get? (c.cmdCounter, i) = config[i]? := by
    intro i
    simp only [placement, Grid.get?, h.idToConfig, ← hc.configs_length]
    simp
  have hnot : ¬ c.Running c.cmdCounter := fun hrun => by
    have := hc.running_lt hrun
    omega
  have hfresh : ∀ p ∈ config, ∀ j, c.machineUsage.get? p ≠ some (some j) := by
    intro p hp j
    simp [h.free p hp]
  refine ⟨?_, ?_, ?_, ?_, ?_, ?_⟩
  · rw [hpool, List.map_append, hc.counters, h.cmdCounter, List.range_succ]
    rfl
  · rw [h.idToConfig, List.length_append, hc.configs_length, h.cmdCounter]
    rfl
  · rw [h.idToJob, List.length_append, hc.jobs_length, h.cmdCounter]
    rfl
  · rw [h.idToTpool, hc.tpool, hc.threadPool_length, h.cmdCounter, List.range_succ]
  · intro p j
    rw [show c'.placement.usage = c'.machineUsage from rfl, h.usage, hrunning, h.id_eq]
    by_cases hp : p ∈ config
    · rw [if_pos hp]
      constructor
      · intro hj
        obtain rfl : c.cmdCounter = j := by simpa using hj
        obtain ⟨i, hi⟩ := List.mem_iff_getElem?.mp hp
        exact ⟨.inr rfl, i, (hnew i).trans hi⟩
      · rintro ⟨hj | rfl, i, hi⟩
        · rw [hold j i hj] at hi
          exact absurd (hc.placed.owner_of_config hj hi) (hfresh p hp j)
        · rfl
    · rw [if_neg hp, show c.machineUsage = c.placement.usage from rfl,
        hc.placed.owner_iff]
      constructor
      · rintro ⟨hj, i, hi⟩
        exact ⟨.inl hj, i, (hold j i hj).trans hi⟩
      · rintro ⟨hj | rfl, i, hi⟩
        · exact ⟨hj, i, (hold j i hj).symm.trans hi⟩
        · rw [hnew i] at hi
          exact absurd (List.mem_of_getElem? hi) hp
  · intro j i k p hj hi hk
    rcases (hrunning j).mp hj with hj | rfl
    · rw [hold j _ hj] at hi hk
      exact hc.placed.inj j i k p hj hi hk
    · rw [hnew] at hi hk
      have hlt := (List.getElem?_eq_some_iff.mp hi).1
      exact (List.getElem?_inj hlt h.nodup).mp (hi.trans hk.symm)

/-- The rows of the jobs that were there before, and the one of the new job. -/
theorem ExecuteEffect.row_cases {c c' : Controller} {job : Job} {config config' : ExecuteConfig}
    {id : Nat} (h : ExecuteEffect c c' job config id) (hc : c.Consistent) {j : Nat}
    (hrow : c'.idToConfig[j]? = some config') :
    c.idToConfig[j]? = some config' ∨ j = id ∧ config' = config := by
  rw [h.idToConfig, List.getElem?_append] at hrow
  split at hrow
  · exact .inl hrow
  · rename_i hge
    rw [List.getElem?_singleton] at hrow
    split at hrow
    · rename_i hzero
      rw [hc.configs_length] at hge hzero
      exact .inr ⟨by rw [h.id_eq]; omega, (Option.some_inj.mp hrow).symm⟩
    · cases hrow

theorem running_setPhase_iff {c : Controller} {counter j : Nat} {phase : Phase}
    (hphase : ¬ Phase.Active phase) :
    (c.setPhase counter phase).Running j ↔ c.Running j ∧ j ≠ counter := by
  simp only [Running, setPhase, List.mem_map]
  constructor
  · rintro ⟨_, ⟨worker, hmem, rfl⟩, hj, hactive⟩
    by_cases hcounter : worker.counter = counter
    · simp only [hcounter, if_true] at hactive
      exact absurd hactive hphase
    · simp only [hcounter, if_false] at hj hactive
      exact ⟨⟨worker, hmem, hj, hactive⟩, hj ▸ hcounter⟩
  · rintro ⟨⟨worker, hmem, hj, hactive⟩, hne⟩
    exact ⟨worker, ⟨worker, hmem, by simp [hj, hne]⟩, hj, hactive⟩

theorem running_setPhase_active {c : Controller} {counter j : Nat} {phase : Phase}
    (hphase : Phase.Active phase) (hcounter : c.Running counter) :
    (c.setPhase counter phase).Running j ↔ c.Running j := by
  simp only [Running, setPhase, List.mem_map]
  constructor
  · rintro ⟨_, ⟨worker, hmem, rfl⟩, hj, hactive⟩
    by_cases hw : worker.counter = counter
    · simp only [hw, if_true] at hj
      exact hj ▸ hcounter
    · simp only [hw, if_false] at hj hactive
      exact ⟨worker, hmem, hj, hactive⟩
  · rintro ⟨worker, hmem, hj, hactive⟩
    refine ⟨_, ⟨worker, hmem, rfl⟩, ?_⟩
    split
    · exact ⟨hj, hphase⟩
    · exact ⟨hj, hactive⟩

@[simp] theorem counters_setPhase (c : Controller) (counter : Nat) (phase : Phase) :
    (c.setPhase counter phase).threadPool.map Worker.counter =
      c.threadPool.map Worker.counter := by
  simp only [setPhase, List.map_map]
  apply List.map_congr_left
  intro worker _
  simp only [Function.comp_apply]
  split <;> rfl

structure CompleteEffect (c c' : Controller) (id : Nat) (config : ExecuteConfig) :
    Prop where
  row : c.idToConfig[id]? = some config
  machines : c'.machines = c.machines
  systemConfig : c'.systemConfig = c.systemConfig
  usage : ∀ q, c'.machineUsage.get? q =
    if q ∈ config then some none else c.machineUsage.get? q
  idToConfig : c'.idToConfig = c.idToConfig
  idToJob : c'.idToJob = c.idToJob
  idToTpool : c'.idToTpool = c.idToTpool
  threadPool : c'.threadPool = (c.setPhase id .notifying).threadPool
  cmdCounter : c'.cmdCounter = c.cmdCounter
  rectangular : ∀ rows columns, c.machineUsage.Rectangular rows columns →
    c'.machineUsage.Rectangular rows columns

theorem executeCommandInternal_effect {c c' : Controller} {id : Nat}
    (h : c.executeCommandInternal id = .ok c') :
    ∃ config, CompleteEffect c c' id config := by
  simp only [executeCommandInternal, bind_eq_ok, fetch_eq_ok] at h
  obtain ⟨config, hrow, usage, hrelease, h⟩ := h
  cases h
  exact ⟨config, hrow, rfl, rfl, release_spec hrelease, rfl, rfl, rfl, rfl, rfl,
    fun _ _ hu => release_rectangular hu hrelease⟩

theorem CompleteEffect.owner_before {c c' : Controller} {id : Nat} {config : ExecuteConfig}
    (h : CompleteEffect c c' id config) {p : Cell} {j : Nat}
    (howner : c'.machineUsage.get? p = some (some j)) :
    p ∉ config ∧ c.machineUsage.get? p = some (some j) := by
  rw [h.usage] at howner
  split at howner
  · cases howner
  · rename_i hp
    exact ⟨hp, howner⟩

theorem CompleteEffect.running_iff {c c' : Controller} {id : Nat}
    {config : ExecuteConfig} (h : CompleteEffect c c' id config) (j : Nat) :
    c'.Running j ↔ c.Running j ∧ j ≠ id := by
  have hphase : ¬ Phase.Active .notifying := by simp [Phase.Active]
  rw [← running_setPhase_iff hphase]
  simp only [Running, h.threadPool]

theorem CompleteEffect.consistent {c c' : Controller} {id : Nat}
    {config : ExecuteConfig} (h : CompleteEffect c c' id config) (hc : c.Consistent)
    (hid : c.Running id) : c'.Consistent := by
  have hconfigs : c'.placement.configs = c.placement.configs := h.idToConfig
  have hmem : ∀ p, p ∈ config ↔ ∃ i, c.placement.configs.get? (id, i) = some p := by
    intro p
    rw [List.mem_iff_getElem?]
    exact exists_congr fun i => by rw [Grid.get?_of_row (g := c.placement.configs) h.row]
  refine ⟨?_, ?_, ?_, ?_, ?_, ?_⟩
  · rw [h.threadPool, counters_setPhase, hc.counters, h.cmdCounter]
  · rw [h.idToConfig, hc.configs_length, h.cmdCounter]
  · rw [h.idToJob, hc.jobs_length, h.cmdCounter]
  · rw [h.idToTpool, hc.tpool, h.cmdCounter]
  · intro p j
    rw [show c'.placement.usage = c'.machineUsage from rfl, h.usage, hconfigs,
      h.running_iff]
    by_cases hp : p ∈ config
    · rw [if_pos hp]
      constructor
      · intro habs
        simp at habs
      · rintro ⟨⟨hj, hne⟩, i, hi⟩
        obtain ⟨k, hk⟩ := (hmem p).mp hp
        exact absurd (hc.placed.cell_unique hj hid hi hk).1 hne
    · rw [if_neg hp, show c.machineUsage = c.placement.usage from rfl,
        hc.placed.owner_iff]
      constructor
      · rintro ⟨hj, hi⟩
        refine ⟨⟨hj, ?_⟩, hi⟩
        rintro rfl
        exact hp ((hmem p).mpr hi)
      · rintro ⟨⟨hj, _⟩, hi⟩
        exact ⟨hj, hi⟩
  · intro j i k p hj hi hk
    rw [hconfigs] at hi hk
    exact hc.placed.inj j i k p ((h.running_iff j).mp hj).1 hi hk

theorem executeCommandInternal_ok {c : Controller} (hc : c.Consistent) {id : Nat}
    (hid : c.Running id) : ∃ c', c.executeCommandInternal id = .ok c' := by
  obtain ⟨config, hrow⟩ := hc.exists_config hid
  obtain ⟨usage, hrelease⟩ := @release_ok _ c.machineUsage (hc.nodup hid hrow)
    fun p hp => ⟨id, (hc.owner_iff p id).mpr ⟨hid, config, hrow, hp⟩⟩
  refine ⟨setPhase { c with machineUsage := usage } id .notifying, ?_⟩
  rw [executeCommandInternal, fetch_eq_ok.mpr hrow, bind_of_ok rfl, hrelease,
    bind_of_ok rfl]

/-- The moved job is running, or its slots are free and distinct: what
`update_config` is called with. -/
def MovableJob (c : Controller) (id : Nat) : Prop :=
  Movable c.Running id 0 c.placement

structure UpdateEffect (c c' : Controller) (id : Nat) (newConfig : ExecuteConfig)
    (σ : Equiv.Perm Cell) : Prop where
  loop : LoopEffect c.Running id 0 newConfig c.placement c'.placement σ
  moved : c'.idToConfig[id]? = some newConfig
  machines : c'.machines = c.machines
  systemConfig : c'.systemConfig = c.systemConfig
  idToJob : c'.idToJob = c.idToJob
  idToTpool : c'.idToTpool = c.idToTpool
  threadPool : c'.threadPool = c.threadPool
  cmdCounter : c'.cmdCounter = c.cmdCounter
  rectangular : ∀ rows columns, c.machineUsage.Rectangular rows columns →
    c'.machineUsage.Rectangular rows columns

theorem updateConfig_effect {c c' : Controller} {id : Nat} {newConfig : ExecuteConfig}
    (hc : c.Consistent) (hmov : c.MovableJob id)
    (h : c.updateConfig id newConfig = .ok c') :
    ∃ σ, UpdateEffect c c' id newConfig σ := by
  simp only [updateConfig, bind_eq_ok, fetch_eq_ok, ensure_eq_ok] at h
  obtain ⟨oldConfig, hrow, _, hlen, t, hloop, oldConfig', hrow', _, rfl, h⟩ := h
  cases h
  obtain ⟨σ, hσ⟩ := updateLoop_effect hc.placed hmov hloop
  exact ⟨σ, hσ, hrow', rfl, rfl, rfl, rfl, rfl, rfl,
    fun _ _ hu => updateLoop_rectangular hu hloop⟩

theorem UpdateEffect.running_iff {c c' : Controller} {id : Nat}
    {newConfig : ExecuteConfig} {σ : Equiv.Perm Cell}
    (h : UpdateEffect c c' id newConfig σ) (j : Nat) : c'.Running j ↔ c.Running j := by
  simp only [Running, h.threadPool]

theorem UpdateEffect.consistent {c c' : Controller} {id : Nat}
    {newConfig : ExecuteConfig} {σ : Equiv.Perm Cell}
    (h : UpdateEffect c c' id newConfig σ) (hc : c.Consistent) : c'.Consistent := by
  have hrunning : c'.Running = c.Running := funext fun j => propext (h.running_iff j)
  refine ⟨?_, ?_, ?_, ?_, ?_⟩
  · rw [h.threadPool, hc.counters, h.cmdCounter]
  · rw [show c'.idToConfig.length = c.idToConfig.length from h.loop.length_eq,
      hc.configs_length, h.cmdCounter]
  · rw [h.idToJob, hc.jobs_length, h.cmdCounter]
  · rw [h.idToTpool, hc.tpool, h.cmdCounter]
  · rw [hrunning]
    exact hc.placed.relabel σ h.loop.usage h.loop.configs

theorem UpdateEffect.row_map {c c' : Controller} {id : Nat} {newConfig : ExecuteConfig}
    {σ : Equiv.Perm Cell} (h : UpdateEffect c c' id newConfig σ) {j : Nat}
    {config : ExecuteConfig} (hj : c.Running j) (hrow : c.idToConfig[j]? = some config) :
    c'.idToConfig[j]? = some (config.map σ) := by
  have hcell := Grid.get?_of_row (g := c.placement.configs) hrow
  refine Grid.row_eq_of_get? (g := c'.idToConfig) ?_ fun m => ?_
  · rw [show c'.idToConfig.length = c.idToConfig.length from h.loop.length_eq]
    exact (List.getElem?_eq_some_iff.mp hrow).1
  · rw [show c'.idToConfig = c'.placement.configs from rfl, h.loop.configs j m hj, hcell,
      List.getElem?_map]

theorem entries_isSome {c : Controller} {id : Nat} {oldConfig newConfig : ExecuteConfig}
    (hrow : c.idToConfig[id]? = some oldConfig)
    (hlen : newConfig.length = oldConfig.length) (m : Nat) (_ : 0 ≤ m)
    (hm : m < 0 + newConfig.length) : (c.placement.configs.get? (id, m)).isSome := by
  have hlt : m < oldConfig.length := by omega
  rw [Grid.get?_of_row (g := c.placement.configs) hrow]
  simp [hlt]

theorem updateConfig_ok {c : Controller} (hc : c.Consistent) {id : Nat}
    {oldConfig newConfig : ExecuteConfig} (hid : c.Running id)
    (hrow : c.idToConfig[id]? = some oldConfig)
    (hlen : newConfig.length = oldConfig.length) (hnodup : newConfig.Nodup)
    (hrange : ∀ nc ∈ newConfig, (c.machineUsage.get? nc).isSome) :
    ∃ c', c.updateConfig id newConfig = .ok c' := by
  have hcell := Grid.get?_of_row (g := c.placement.configs) hrow
  obtain ⟨t, hloop⟩ := updateLoop_ok hc.placed (.inl hid) (entries_isSome hrow hlen) hrange
  obtain ⟨σ, hσ⟩ := updateLoop_effect hc.placed (.inl hid) hloop
  have hmoved := updateLoop_moved hc.placed hid hnodup hloop
  have hrow' : t.configs[id]? = some newConfig := by
    refine Grid.row_eq_of_get? ?_ fun m => ?_
    · have := (List.getElem?_eq_some_iff.mp hrow).1
      rw [hσ.length_eq]
      exact this
    · cases hm : newConfig[m]? with
      | some nc => simpa using hmoved m nc hm
      | none =>
          have hnone : oldConfig[m]? = none := by
            rw [List.getElem?_eq_none_iff] at hm ⊢
            omega
          rw [← Option.not_isSome_iff_eq_none, hσ.isSome_eq, hcell, hnone]
          simp
  have hloop' : updateLoop id 0 newConfig ⟨c.machineUsage, c.idToConfig⟩ = .ok t := hloop
  refine ⟨{ c with machineUsage := t.usage, idToConfig := t.configs }, ?_⟩
  simp [updateConfig, fetch, hrow, hlen, hloop', hrow', ensure, bind_of_ok rfl]

end Poncos.Controller
