import Poncos.Controller.Consistency

/-!
Runs of the base controller: any interleaving of jobs being started on free
slots, running jobs completing, and running jobs being moved.
-/

namespace Poncos.Controller

open Poncos.Library
open Poncos.Library.Execution
open Poncos.Library.Transition

theorem create_consistent (machines : List String) (systemConfig : SystemConfig) :
    (create machines systemConfig).Consistent := by
  refine ⟨rfl, rfl, rfl, rfl, ?_, ?_⟩
  · intro p j
    have hnone : ∀ x, (create machines systemConfig).placement.usage.get? p = some x →
        x = none := by
      intro x hx
      obtain ⟨row, hrow, hcell⟩ := Grid.get?_eq_some_iff.mp hx
      have hmem := List.mem_of_getElem? hrow
      simp only [placement, create, List.mem_replicate] at hmem
      have := List.mem_of_getElem? hcell
      simpa [hmem.2] using this
    constructor
    · intro h
      simpa using hnone _ h
    · rintro ⟨⟨worker, hmem, _⟩, _⟩
      simp [create] at hmem
  · rintro j i k p ⟨worker, hmem, _⟩
    simp [create] at hmem

inductive TableAction where
  | execute (job : Job) (config : ExecuteConfig)
  | complete (id : Nat)
  | updateConfig (id : Nat) (newConfig : ExecuteConfig)

def CanExecute (c : Controller) (config : ExecuteConfig) : Prop :=
  config ≠ [] ∧ config.Nodup ∧ ∀ p ∈ config, c.machineUsage.get? p = some none

instance (c : Controller) (config : ExecuteConfig) : Decidable (c.CanExecute config) :=
  inferInstanceAs (Decidable (_ ∧ _ ∧ _))

def CanUpdate (c : Controller) (id : Nat) (newConfig : ExecuteConfig) : Prop :=
  c.Running id ∧ newConfig.Nodup ∧
    (∀ p ∈ newConfig, (c.machineUsage.get? p).isSome) ∧
    c.idToConfig[id]?.map List.length = some newConfig.length

instance (c : Controller) (id : Nat) (newConfig : ExecuteConfig) :
    Decidable (c.CanUpdate id newConfig) :=
  inferInstanceAs (Decidable (_ ∧ _ ∧ _ ∧ _))

def tableSystem (generateCommand : CommandGenerator) : System Controller TableAction where
  Init c := ∃ machines systemConfig, c = create machines systemConfig
  step c
    | .execute job config => do
        require (c.CanExecute config)
        let (c', _) ← c.execute generateCommand job config
        .ok c'
    | .complete id => do
        require (c.Running id)
        c.executeCommandInternal id
    | .updateConfig id newConfig => do
        require (c.CanUpdate id newConfig)
        c.updateConfig id newConfig

theorem tableSystem_consistent {generateCommand : CommandGenerator} {c : Controller}
    (hc : (tableSystem generateCommand).Reachable c) : c.Consistent := by
  refine hc.invariant ?_ ?_
  · rintro c ⟨machines, systemConfig, rfl⟩
    exact create_consistent machines systemConfig
  · intro c action c' _ hc _ hstep
    cases action with
    | execute job config =>
        simp only [tableSystem, bind_eq_ok, require_eq_ok, Except.ok.injEq] at hstep
        obtain ⟨_, _, ⟨c₁, id⟩, hexecute, rfl⟩ := hstep
        exact (execute_effect hexecute).consistent hc
    | complete id =>
        simp only [tableSystem, bind_eq_ok, require_eq_ok] at hstep
        obtain ⟨_, hid, hcomplete⟩ := hstep
        obtain ⟨config, heffect⟩ := executeCommandInternal_effect hcomplete
        exact heffect.consistent hc hid
    | updateConfig id newConfig =>
        simp only [tableSystem, bind_eq_ok, require_eq_ok] at hstep
        obtain ⟨_, hcan, hupdate⟩ := hstep
        obtain ⟨σ, heffect⟩ := updateConfig_effect hc (.inl hcan.1) hupdate
        exact heffect.consistent hc

/-- Where `update_config` leaves the tables: the moved job at its new slots, the
slots it took from another running job replaced by slots the moved job gave up,
and everything else as it was. -/
structure Moved (c c' : Controller) (id : Nat) (newConfig : ExecuteConfig) : Prop where
  moved : c'.idToConfig[id]? = some newConfig
  displaced : ∀ j config, j ≠ id → c.Running j → c.idToConfig[j]? = some config →
    ∃ config', c'.idToConfig[j]? = some config' ∧ config'.length = config.length ∧
      config'.Nodup ∧
      ∀ (i : Nat) (p p' : Cell), config[i]? = some p → config'[i]? = some p' →
        if p ∈ newConfig then
          p' ∉ newConfig ∧ ∃ oldConfig, c.idToConfig[id]? = some oldConfig ∧ p' ∈ oldConfig
        else p' = p
  completed : ∀ j, ¬ c.Running j → c'.idToConfig[j]? = c.idToConfig[j]?
  running : ∀ j, c'.Running j ↔ c.Running j

theorem UpdateEffect.displaced {c c' : Controller} {id : Nat}
    {newConfig : ExecuteConfig} {σ : Equiv.Perm Cell}
    (h : UpdateEffect c c' id newConfig σ) (hc : c.Consistent) (hid : c.Running id)
    {j i : Nat} {p : Cell} (hj : c.Running j) (hne : j ≠ id)
    (hp : c.placement.configs.get? (j, i) = some p) :
    (p ∉ newConfig → σ p = p) ∧
      (p ∈ newConfig → σ p ∉ newConfig ∧
        ∃ m, c.placement.configs.get? (id, m) = some (σ p)) := by
  have hnotOld : ∀ m, 0 ≤ m → c.placement.configs.get? (id, m) ≠ some p :=
    fun m _ hm => hne (hc.placed.cell_unique hj hid hp hm).1
  refine ⟨fun hnew => h.loop.support p hnew hnotOld, fun hnew => ?_⟩
  have hnotNew : σ p ∉ newConfig := by
    intro hmem
    obtain ⟨m, hm⟩ := List.mem_iff_getElem?.mp hmem
    have hentry : c'.placement.configs.get? (id, m) = some (σ p) :=
      (Grid.get?_of_row (g := c'.placement.configs) h.moved m).trans hm
    have hentry' : c'.placement.configs.get? (j, i) = some (σ p) := by
      rw [h.loop.configs j i hj, hp]
      rfl
    exact hne ((h.consistent hc).placed.cell_unique ((h.running_iff j).mpr hj)
      ((h.running_iff id).mpr hid) hentry' hentry).1
  refine ⟨hnotNew, ?_⟩
  -- a slot outside the old config is fixed by `σ`, so it is `p` itself
  by_contra hold
  push Not at hold
  have hfix := h.loop.support (σ p) hnotNew fun m _ => hold m
  rw [σ.injective hfix] at hnotNew
  exact hnotNew hnew

theorem UpdateEffect.to_moved {c c' : Controller} {id : Nat}
    {newConfig : ExecuteConfig} {σ : Equiv.Perm Cell}
    (h : UpdateEffect c c' id newConfig σ) (hc : c.Consistent) (hid : c.Running id) :
    Moved c c' id newConfig := by
  refine ⟨h.moved, ?_, ?_, h.running_iff⟩
  · intro j config hne hj hrow
    have hcell := Grid.get?_of_row (g := c.placement.configs) hrow
    have hrow' := h.row_map hj hrow
    refine ⟨config.map σ, hrow', by simp, ?_, ?_⟩
    · exact (hc.nodup hj hrow).map σ.injective
    · intro i p p' hp hp'
      rw [List.getElem?_map, hp, Option.map_some, Option.some_inj] at hp'
      subst hp'
      obtain ⟨hstay, hgo⟩ := h.displaced hc hid hj hne ((hcell i).trans hp)
      split
      · rename_i hnew
        obtain ⟨hnot, m, hm⟩ := hgo hnew
        obtain ⟨oldConfig, hold, hentry⟩ := Grid.get?_eq_some_iff.mp hm
        exact ⟨hnot, oldConfig, hold, List.mem_of_getElem? hentry⟩
      · rename_i hnew
        exact hstay hnew
  · intro j hj
    exact h.loop.others j hj fun heq => hj (heq ▸ hid)

/-- What holds of the tables in every state: the occupancy shows exactly the
slots of the running jobs, the per-job tables have one entry for every job ever
started, and no operation stops at a failed assertion or an access out of
range. -/
structure TablesInStep (generateCommand : CommandGenerator) (c : Controller) : Prop where
  owner_iff : ∀ p j, c.machineUsage.get? p = some (some j) ↔
    c.Running j ∧ ∃ config, c.idToConfig[j]? = some config ∧ p ∈ config
  nodup : ∀ j config, c.Running j → c.idToConfig[j]? = some config → config.Nodup
  idToConfig_length : c.idToConfig.length = c.cmdCounter
  idToJob_length : c.idToJob.length = c.cmdCounter
  idToTpool_length : c.idToTpool.length = c.cmdCounter
  idToTpool_eq : ∀ i, i < c.cmdCounter → c.idToTpool[i]? = some i
  update : ∀ id newConfig, c.CanUpdate id newConfig →
    ∃ c', c.updateConfig id newConfig = .ok c' ∧ Moved c c' id newConfig
  complete : ∀ id, c.Running id → ∃ c', c.executeCommandInternal id = .ok c'
  execute : ∀ job config, c.CanExecute config → ∀ fault,
    c.execute generateCommand job config = .error fault →
      ∃ c', generateCommand c' job c.cmdCounter config = .error fault

/-- The tables stay in step in every run of the controller. -/
theorem tables_in_step (generateCommand : CommandGenerator) {c : Controller}
    (hreach : (tableSystem generateCommand).Reachable c) :
    TablesInStep generateCommand c := by
  have hc := tableSystem_consistent hreach
  refine ⟨hc.owner_iff, fun j config => hc.nodup, hc.configs_length, hc.jobs_length,
    by rw [hc.tpool, List.length_range], ?_, ?_, fun id => executeCommandInternal_ok hc,
    fun job config hcan fault => execute_fault hcan.1 hcan.2.1 hcan.2.2⟩
  · intro i hi
    rw [hc.tpool, List.getElem?_range hi]
  · rintro id newConfig ⟨hid, hnodup, hrange, hlen⟩
    obtain ⟨oldConfig, hrow⟩ := hc.exists_config hid
    rw [hrow, Option.map_some, Option.some_inj] at hlen
    obtain ⟨c', hupdate⟩ := updateConfig_ok hc hid hrow hlen.symm hnodup hrange
    obtain ⟨σ, heffect⟩ := updateConfig_effect hc (.inl hid) hupdate
    exact ⟨c', hupdate, heffect.to_moved hc hid⟩

def movedOverOwnSlots : Controller where
  machines := ["a", "b"]
  systemConfig := ⟨[⟨[0], []⟩, ⟨[1], []⟩]⟩
  machineUsage := [[some 1, some 0], [some 0, none]]
  idToConfig := [[(0, 1), (1, 0)], [(0, 0)]]
  idToJob := [⟨2, 1, "", false⟩, ⟨1, 1, "", false⟩]
  idToTpool := [0, 1]
  threadPool := [⟨"", 0, .executing⟩, ⟨"", 1, .executing⟩]
  cmdCounter := 2

theorem tables_in_step_movedOverOwnSlots :
    TablesInStep (fun _ _ _ _ => .ok "") movedOverOwnSlots := by
  have hrun : (tableSystem fun _ _ _ _ => .ok "").run
      (create ["a", "b"] ⟨[⟨[0], []⟩, ⟨[1], []⟩]⟩)
      [.execute ⟨2, 1, "", false⟩ [(0, 0), (0, 1)],
       .execute ⟨1, 1, "", false⟩ [(1, 0)],
       .updateConfig 0 [(0, 1), (1, 0)]] = .ok movedOverOwnSlots := by
    rfl
  exact tables_in_step _
    (System.run_reachable (fun _ _ => trivial) (.init ⟨_, _, rfl⟩) hrun)

end Poncos.Controller
