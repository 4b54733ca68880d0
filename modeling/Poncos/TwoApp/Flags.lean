import Poncos.TwoApp.Transitions

/-!
The flags of the two-app scheduler against the slots in use.  The scheduler sets a
flag under the index of a slot and the callback clears it under the counter of a
job, so the flags follow the slots exactly as long as the two agree.
-/

namespace Poncos.Controller

open Poncos.Library
open Poncos.Library.Execution

theorem exists_free_of_allocatedSlots {usage : SlotAllocation} {slots : List Nat}
    (h : allocatedSlots 1 usage slots 0 = .ok 1) : ∃ s ∈ slots, usage[s]? = some none := by
  induction slots with
  | nil => cases h
  | cons s rest ih =>
      simp only [allocatedSlots, bind_eq_ok, fetch_eq_ok] at h
      obtain ⟨owner, howner, h⟩ := h
      split at h
      · rename_i hfree
        exact ⟨s, List.mem_cons_self, hfree ▸ howner⟩
      · obtain ⟨t, ht, hfree⟩ := ih h
        exact ⟨t, List.mem_cons_of_mem s ht, hfree⟩

/-- The cpus counted are at most those of one slot per machine, and only as many
where every machine has a free slot. -/
theorem freeCpus_spec {systemConfig : SystemConfig} {usage : MachineUsage}
    {counter k : Nat} (h : freeCpus systemConfig 1 usage counter = .ok k) :
    k ≤ counter + usage.length * systemConfig.slotSize ∧
      (0 < systemConfig.slotSize →
        counter + usage.length * systemConfig.slotSize ≤ k →
        ∀ row ∈ usage, ∃ s < systemConfig.slots.length, row[s]? = some none) := by
  induction usage generalizing counter with
  | nil =>
      cases h
      simp
  | cons row rest ih =>
      simp only [freeCpus, bind_eq_ok] at h
      obtain ⟨allocated, hallocated, h⟩ := h
      have hlen : (rest.length + 1) * systemConfig.slotSize =
          rest.length * systemConfig.slotSize + systemConfig.slotSize := Nat.succ_mul _ _
      rw [List.length_cons, hlen]
      split at h
      · rename_i hone
        obtain ⟨hle, hrows⟩ := ih h
        refine ⟨by omega, fun hsize hk row' hrow' => ?_⟩
        rcases List.mem_cons.mp hrow' with rfl | hrow'
        · subst hone
          obtain ⟨s, hs, hfree⟩ := exists_free_of_allocatedSlots hallocated
          exact ⟨s, List.mem_range.mp hs, hfree⟩
        · exact hrows hsize (by omega) row' hrow'
      · obtain ⟨hle, _⟩ := ih h
        refine ⟨by omega, fun hsize hk => ?_⟩
        omega

end Poncos.Controller

namespace Poncos.TwoApp

open Poncos.Library
open Poncos.Library.Execution
open Poncos.Library.Transition
open Poncos.Controller

/-- A flag is set exactly while its slot is occupied by running jobs on every
machine, and clear exactly while it is free on every machine. -/
def FlagsInStep (s : State) : Prop :=
  ∀ slot < s.controller.systemConfig.slots.length,
    (s.coConfigInUse[slot]? = some true ↔ ∀ m < s.controller.machines.length,
      ∃ j, s.controller.Running j ∧
        s.controller.machineUsage.get? (m, slot) = some (some j)) ∧
    (s.coConfigInUse[slot]? = some false ↔ ∀ m < s.controller.machines.length,
      s.controller.machineUsage.get? (m, slot) = some none)

/-- What a step relies on: the search finds a slot that is free on every machine,
and a completing job passes a slot index to `command_done` and leaves the flags in
step. -/
def StepOk (s : State) : Action → Prop
  | .schedule _ => ∀ job, s.pc = .select job → ∃ newSlot,
      searchSlot s.coConfigInUse (List.range s.controller.systemConfig.slots.length) =
        .ok (some newSlot) ∧
      ∀ p ∈ fullConfig s.controller.machines.length newSlot,
        s.controller.machineUsage.get? p = some none
  | .complete id => s.LockFree → InPhase s.controller id .ended →
      id < s.controller.systemConfig.slots.length ∧
        ∃ s', completeStep id s = .ok s' ∧ FlagsInStep s'
  | _ => True

/-- The flags are in step, and so is every step taken next. -/
def FlagLaw (s : State) : Prop := FlagsInStep s ∧ ∀ action, StepOk s action

/-- The condition on a step.  A completing job has the index of its slot for an id,
and a slot is only searched where slots have cpus or a flag is clear. -/
def SlotIsCounter (s : State) : Action → Prop
  | .schedule _ => ∀ job, s.pc = .select job →
      0 < s.controller.systemConfig.slotSize ∨ false ∈ s.coConfigInUse
  | .complete id => s.LockFree → InPhase s.controller id .ended →
      ∀ config, s.controller.idToConfig[id]? = some config → ∀ p ∈ config, p.2 = id
  | _ => True

/-- A slot is held by one running job on all machines with its flag set, or is free
with its flag clear. -/
def SlotCases (s : State) : Prop :=
  ∀ slot < 2,
    (s.coConfigInUse[slot]? = some true ∧ ∃ j, s.controller.Running j ∧
      s.controller.idToConfig[j]? =
        some (fullConfig s.controller.machines.length slot)) ∨
    (s.coConfigInUse[slot]? = some false ∧ ∀ m < s.controller.machines.length,
      s.controller.machineUsage.get? (m, slot) = some none)

structure Roomy (s : State) : Prop where
  reqCpus : ∀ job, s.pc = .waitRessource job ∨ s.pc = .asleep (.ressource job) →
    job.reqCpus = s.controller.machines.length * s.controller.systemConfig.slotSize
  room : ∀ job, s.pc = .select job → 0 < s.controller.systemConfig.slotSize →
    ∀ row ∈ s.controller.machineUsage, ∃ slot < 2, row[slot]? = some none

variable {σ : Settings} {s s' : State}

theorem Roomy.of_pc {c : Controller} {pc : Pc}
    (hwait : ∀ job, pc ≠ .waitRessource job ∧ pc ≠ .asleep (.ressource job))
    (hselect : ∀ job, pc ≠ .select job) (s : State) :
    Roomy { s with controller := c, pc := pc } := by
  refine ⟨?_, fun job hpc => absurd hpc (hselect job)⟩
  rintro job (hpc | hpc)
  · exact absurd hpc (hwait job).1
  · exact absurd hpc (hwait job).2

theorem Roomy.trans {action : Action} (h : Roomy s) (hwf : WellFormed s)
    (ht : Trans σ s action s') : Roomy s' := by
  cases ht with
  | nextJob _ _ hcpus =>
      refine ⟨?_, by rintro _ ⟨⟩⟩
      rintro _ (hpc | hpc) <;> cases hpc
      exact hcpus
  | @ressource r job hpc havailable =>
      refine ⟨by (rintro _ (hpc' | hpc') <;> cases hpc'), ?_⟩
      rintro _ ⟨⟩ hsize
      simp only [ressourceAvailable, bind_eq_ok] at havailable
      obtain ⟨k, hk, havailable⟩ := havailable
      have hle : job.reqCpus ≤ k := by simpa using havailable
      rw [h.reqCpus job (.inl hpc)] at hle
      have hspec := (freeCpus_spec hk).2 hsize
      rw [hwf.usage.1, hwf.slots, Nat.zero_add] at hspec
      exact hspec hle
  | noRessource hpc =>
      refine ⟨?_, by rintro _ ⟨⟩⟩
      rintro _ (hpc' | hpc') <;> cases hpc'
      exact h.reqCpus _ (.inl hpc)
  | @wake wait hpc =>
      cases wait with
      | ressource job =>
          refine ⟨?_, by rintro _ ⟨⟩⟩
          rintro _ (hpc' | hpc') <;> cases hpc'
          exact h.reqCpus job (.inr hpc)
      | frozen job id newSlot => exact .of_pc (by simp [Wait.resume]) (by simp [Wait.resume]) s
      | done => exact .of_pc (by simp [Wait.resume]) (by simp [Wait.resume]) s
  | processEnd => exact ⟨h.reqCpus, h.room⟩
  | notifyAll => exact ⟨h.reqCpus, h.room⟩
  | complete hpc _ heffect =>
      refine ⟨?_, fun job hpc' => by cases hpc.symm.trans hpc'⟩
      rw [heffect.machines, heffect.systemConfig]
      exact h.reqCpus
  | _ => exact ⟨by (rintro _ (hpc | hpc) <;> cases hpc), by rintro _ ⟨⟩⟩

theorem WellFormed.config_eq (hwf : WellFormed s)
    (hmachines : 0 < s.controller.machines.length)
    {id : Nat} {config : ExecuteConfig}
    (hrow : s.controller.idToConfig[id]? = some config) (hslot : ∀ p ∈ config, p.2 = id) :
    config = fullConfig s.controller.machines.length id := by
  obtain ⟨newSlot, _, rfl⟩ := hwf.rows config (List.mem_of_getElem? hrow)
  obtain rfl := hslot (0, newSlot) (mem_fullConfig.mpr ⟨hmachines, rfl⟩)
  rfl

namespace SlotCases

theorem setPhase (h : SlotCases s) {id : Nat} {phase : Phase}
    (hrunning : ∀ j, (s.controller.setPhase id phase).Running j ↔
      s.controller.Running j) :
    SlotCases { s with controller := s.controller.setPhase id phase } := by
  intro slot hslot
  refine (h slot hslot).imp_left ?_
  rintro ⟨hflag, j, hj, hrow⟩
  exact ⟨hflag, j, (hrunning j).mpr hj, hrow⟩

variable (hwf : WellFormed s)

include hwf

theorem flagsInStep (hmachines : 0 < s.controller.machines.length) (h : SlotCases s) :
    FlagsInStep s := by
  intro slot hslot
  rw [hwf.slots] at hslot
  rcases h slot hslot with ⟨hflag, j, hj, hrow⟩ | ⟨hflag, hfree⟩
  · have howner : ∀ m < s.controller.machines.length,
        s.controller.machineUsage.get? (m, slot) = some (some j) := fun m hm =>
      (hwf.consistent.owner_iff _ _).mpr ⟨hj, _, hrow, mem_fullConfig.mpr ⟨hm, rfl⟩⟩
    constructor
    · exact ⟨fun _ m hm => ⟨j, hj, howner m hm⟩, fun _ => hflag⟩
    · refine ⟨fun hclear => ?_, fun hfree => ?_⟩
      · cases hflag.symm.trans hclear
      · cases (howner 0 hmachines).symm.trans (hfree 0 hmachines)
  · constructor
    · refine ⟨fun hset => ?_, fun hused => ?_⟩
      · cases hflag.symm.trans hset
      · obtain ⟨j, _, howner⟩ := hused 0 hmachines
        cases howner.symm.trans (hfree 0 hmachines)
    · exact ⟨fun _ => hfree, fun _ => hflag⟩

theorem search (h : SlotCases s) (hclear : false ∈ s.coConfigInUse) :
    ∃ newSlot, searchSlot s.coConfigInUse (List.range 2) = .ok (some newSlot) ∧
      ∀ p ∈ fullConfig s.controller.machines.length newSlot,
        s.controller.machineUsage.get? p = some none := by
  have hfree : ∀ slot < 2, s.coConfigInUse[slot]? = some false →
      ∀ p ∈ fullConfig s.controller.machines.length slot,
        s.controller.machineUsage.get? p = some none := by
    intro slot hslot hflag p hp
    rcases h slot hslot with ⟨hset, _⟩ | ⟨_, hfree⟩
    · cases hflag.symm.trans hset
    · obtain ⟨hlt, rfl⟩ := mem_fullConfig.mp hp
      exact hfree p.1 hlt
  obtain ⟨first, second, hflags⟩ := List.length_eq_two.mp hwf.inUse
  rw [hflags] at hclear hfree
  cases first with
  | false => exact ⟨0, by rw [hflags]; rfl, hfree 0 (by omega) rfl⟩
  | true =>
      cases second with
      | false => exact ⟨1, by rw [hflags]; rfl, hfree 1 (by omega) rfl⟩
      | true => simp at hclear

theorem clear_of_room (hmachines : 0 < s.controller.machines.length) (h : SlotCases s)
    (hroom : ∀ row ∈ s.controller.machineUsage, ∃ slot < 2, row[slot]? = some none) :
    false ∈ s.coConfigInUse := by
  have hrow : 0 < s.controller.machineUsage.length := by rw [hwf.usage.1]; exact hmachines
  obtain ⟨slot, hslot, hfree⟩ := hroom _ (List.getElem_mem hrow)
  have hcell : s.controller.machineUsage.get? (0, slot) = some none := by
    rw [Grid.get?_of_row (List.getElem?_eq_getElem hrow)]
    exact hfree
  rcases h slot hslot with ⟨_, j, hj, hconfig⟩ | ⟨hclear, _⟩
  · have howner := (hwf.consistent.owner_iff (0, slot) j).mpr
      ⟨hj, _, hconfig, mem_fullConfig.mpr ⟨hmachines, rfl⟩⟩
    cases howner.symm.trans hcell
  · exact List.mem_of_getElem? hclear

theorem select (h : SlotCases s) {job : Job} {newSlot : Nat} {c : Controller} {id : Nat}
    (heffect : ExecuteEffect s.controller c job
      (fullConfig s.controller.machines.length newSlot) id) :
    SlotCases { s with
      controller := c
      coConfigInUse := s.coConfigInUse.set newSlot true
      pc := .freezeOpposing job id newSlot } := by
  have hid : c.Running id := (heffect.running_iff id).mpr (.inr rfl)
  obtain ⟨command, hpool⟩ := heffect.threadPool
  intro slot hslot
  rcases eq_or_ne newSlot slot with rfl | hne
  · refine .inl ⟨?_, id, hid, ?_⟩
    · exact List.getElem?_set_self (by rw [hwf.inUse]; exact hslot)
    · rw [heffect.idToConfig, heffect.machines, heffect.id_eq,
        ← hwf.consistent.configs_length]
      simp
  · have hflag : (s.coConfigInUse.set newSlot true)[slot]? = s.coConfigInUse[slot]? :=
      List.getElem?_set_ne hne
    rw [hflag]
    rcases h slot hslot with ⟨hset, j, ⟨worker, hmem, hj⟩, hrow⟩ | ⟨hclear, hall⟩
    · refine .inl ⟨hset, j, ⟨worker, ?_, hj⟩, ?_⟩
      · rw [hpool]
        exact List.mem_append_left _ hmem
      · rw [heffect.machines, heffect.idToConfig]
        exact (List.getElem?_append_left (List.getElem?_eq_some_iff.mp hrow).1).trans hrow
    · refine .inr ⟨hclear, fun m hm => ?_⟩
      rw [heffect.machines] at hm
      rw [heffect.usage, if_neg]
      · exact hall m hm
      · exact fun hp => hne (mem_fullConfig.mp hp).2.symm

theorem complete (h : SlotCases s) {id : Nat} {c : Controller} {config : ExecuteConfig}
    (hmachines : 0 < s.controller.machines.length)
    (heffect : CompleteEffect s.controller c id config)
    (hconfig : config = fullConfig s.controller.machines.length id) :
    SlotCases { s with
      controller := c
      coConfigInUse := s.coConfigInUse.set id false
      coConfigDistgend := s.coConfigDistgend.set id 0 } := by
  subst hconfig
  intro slot hslot
  rcases eq_or_ne id slot with rfl | hne
  · refine .inr ⟨List.getElem?_set_self (by rw [hwf.inUse]; exact hslot), fun m hm => ?_⟩
    rw [heffect.machines] at hm
    rw [heffect.usage, if_pos (mem_fullConfig (p := (m, id)).mpr ⟨hm, rfl⟩)]
  · have hflag : (s.coConfigInUse.set id false)[slot]? = s.coConfigInUse[slot]? :=
      List.getElem?_set_ne hne
    rw [hflag]
    rcases h slot hslot with ⟨hset, j, hj, hrow⟩ | ⟨hclear, hall⟩
    · refine .inl ⟨hset, j, (heffect.running_iff j).mpr ⟨hj, ?_⟩, ?_⟩
      · rintro rfl
        have heq := Option.some_inj.mp (heffect.row.symm.trans hrow)
        exact hne (fullConfig_injective hmachines heq)
      · rw [heffect.machines, heffect.idToConfig]
        exact hrow
    · refine .inr ⟨hclear, fun m hm => ?_⟩
      rw [heffect.machines] at hm
      rw [heffect.usage, if_neg]
      · exact hall m hm
      · exact fun hp => hne (mem_fullConfig.mp hp).2.symm

end SlotCases

theorem Roomy.start {machines : List String} {systemConfig : SystemConfig}
    {vmLocations : Vm.VmLocations} {queue : List Job} :
    Roomy (start machines systemConfig vmLocations queue) := by
  refine ⟨?_, by rintro _ ⟨⟩⟩
  rintro _ (hpc | hpc) <;> cases hpc

theorem SlotCases.start {machines : List String} {systemConfig : SystemConfig}
    {vmLocations : Vm.VmLocations} {queue : List Job}
    (hslots : systemConfig.slots.length = 2) :
    SlotCases (start machines systemConfig vmLocations queue) := by
  intro slot hslot
  refine .inr ⟨?_, fun m hm => ?_⟩
  · change (List.replicate systemConfig.slots.length false)[slot]? = some false
    rw [hslots]
    exact List.getElem?_replicate_of_lt hslot
  · have hrow : (List.replicate machines.length ([none, none] : SlotAllocation))[m]? =
        some [none, none] := List.getElem?_replicate_of_lt hm
    change Grid.get? (List.replicate machines.length [none, none]) (m, slot) = some none
    rw [Grid.get?_of_row hrow]
    exact List.getElem?_replicate_of_lt (n := 2) hslot

theorem Trans.machines_eq {action : Action} (ht : Trans σ s action s') :
    s'.controller.machines = s.controller.machines := by
  cases ht with
  | select _ _ heffect => exact heffect.machines
  | complete _ _ heffect => exact heffect.machines
  | _ => rfl

theorem SlotCases.trans {action : Action} (h : SlotCases s) (hwf : WellFormed s)
    (hmachines : 0 < s.controller.machines.length) (hguard : SlotIsCounter s action)
    (ht : Trans σ s action s') : SlotCases s' := by
  cases ht with
  | select _ _ heffect => exact h.select hwf heffect
  | processEnd hphase => exact h.setPhase (running_setPhase_ended hphase)
  | notifyAll hphase =>
      exact h.setPhase (running_setPhase_finished hwf.consistent hphase)
  | complete hpc hphase heffect =>
      have hslot := hguard ⟨_, hpc⟩ hphase _ heffect.row
      exact h.complete hwf hmachines heffect (hwf.config_eq hmachines heffect.row hslot)
  | _ => exact h

/-- A completion that passes a slot index and leaves the flags in step is one of a
job whose slot has its counter for an index. -/
theorem SlotCases.slot_eq (h : SlotCases s) (hwf : WellFormed s)
    (hmachines : 0 < s.controller.machines.length) {id : Nat}
    (hid : s.controller.Running id) (hcomplete : completeStep id s = .ok s')
    (hflags : FlagsInStep s') {config : ExecuteConfig}
    (hrow : s.controller.idToConfig[id]? = some config) :
    ∀ p ∈ config, p.2 = id := by
  obtain ⟨newSlot, hlt, rfl⟩ := hwf.rows config (List.mem_of_getElem? hrow)
  intro p hp
  obtain ⟨_, rfl⟩ := mem_fullConfig.mp hp
  rcases eq_or_ne id p.2 with rfl | hne
  · rfl
  · simp only [completeStep, commandDone, bind_eq_ok, require_eq_ok, store_eq_ok] at hcomplete
    obtain ⟨_, _, c, hcompleted, _, ⟨_, rfl⟩, _, _, hcomplete⟩ := hcomplete
    cases hcomplete
    obtain ⟨config', heffect⟩ := executeCommandInternal_effect hcompleted
    cases hrow.symm.trans heffect.row
    -- the slot is freed on every machine, and its flag is not touched
    have hclear := ((hflags p.2 (by rw [heffect.systemConfig, hwf.slots]; exact hlt)).2).mpr
      fun m hm => by
        rw [heffect.machines] at hm
        rw [heffect.usage, if_pos (mem_fullConfig (p := (m, p.2)).mpr ⟨hm, rfl⟩)]
    have hclear : (s.coConfigInUse.set id false)[p.2]? = some false := hclear
    rw [List.getElem?_set_ne hne] at hclear
    rcases h p.2 hlt with ⟨hset, _⟩ | ⟨_, hfree⟩
    · cases hset.symm.trans hclear
    · have howner := (hwf.consistent.owner_iff (0, p.2) id).mpr
        ⟨hid, _, hrow, mem_fullConfig.mpr ⟨hmachines, rfl⟩⟩
      cases howner.symm.trans (hfree 0 hmachines)

theorem SlotCases.stepOk_iff (h : SlotCases s) (hwf : WellFormed s) (hroomy : Roomy s)
    (hmachines : 0 < s.controller.machines.length) (action : Action) :
    StepOk s action ↔ SlotIsCounter s action := by
  cases action with
  | schedule r =>
      rw [StepOk, SlotIsCounter, hwf.slots]
      refine forall₂_congr fun job hpc => ?_
      constructor
      · rintro ⟨newSlot, hsearch, _⟩
        exact .inr (List.mem_of_getElem? (searchSlot_spec hsearch).2)
      · rintro (hsize | hclear)
        · exact h.search hwf (h.clear_of_room hwf hmachines (hroomy.room job hpc hsize))
        · exact h.search hwf hclear
  | complete id =>
      refine forall₂_congr fun hfree hphase => ?_
      have hid := running_of_inPhase hphase (.inr rfl)
      constructor
      · rintro ⟨_, s', hcomplete, hflags⟩ config hrow
        exact h.slot_eq hwf hmachines hid hcomplete hflags hrow
      · intro hguard
        obtain ⟨config, hrow⟩ := hwf.consistent.exists_config hid
        have hconfig := hwf.config_eq hmachines hrow (hguard config hrow)
        obtain ⟨newSlot, hlt, hslot⟩ := hwf.rows config (List.mem_of_getElem? hrow)
        have heq := fullConfig_injective hmachines (hslot.symm.trans hconfig)
        subst heq
        obtain ⟨c, hcompleted⟩ := executeCommandInternal_ok hwf.consistent hid
        obtain ⟨config', heffect⟩ := executeCommandInternal_effect hcompleted
        have hstep : completeStep newSlot s = .ok { s with
            controller := c
            coConfigInUse := s.coConfigInUse.set newSlot false
            coConfigDistgend := s.coConfigDistgend.set newSlot 0 } := by
          simp [completeStep, commandDone, require, store, hphase, hcompleted,
            hwf.inUse, hwf.distgend, hlt, bind_of_ok rfl]
        refine ⟨by rw [hwf.slots]; exact hlt, _, hstep, ?_⟩
        cases hrow.symm.trans heffect.row
        have hcases := h.complete hwf hmachines heffect hconfig
        refine hcases.flagsInStep (hwf.complete hphase heffect) ?_
        rw [heffect.machines]
        exact hmachines
  | _ => exact Iff.rfl

/-- Along runs in which the condition holds of every step the flags are in step,
and a next step is in order exactly when the condition holds of it. -/
theorem flags_in_step_iff (σ : Settings) {s : State}
    (hs : (system σ).ReachableVia SlotIsCounter s) (hmachines : s.controller.machines ≠ []) :
    FlagsInStep s ∧ ∀ action, StepOk s action ↔ SlotIsCounter s action := by
  have hinv : Roomy s ∧ (0 < s.controller.machines.length → SlotCases s) := by
    refine hs.invariant
      (P := fun s => Roomy s ∧ (0 < s.controller.machines.length → SlotCases s)) ?_ ?_
    · rintro s ⟨machines, systemConfig, vmLocations, queue, hslots, _, rfl⟩
      exact ⟨.start, fun _ => .start hslots⟩
    · intro s action s' hs h hguard hstep
      have hwf := reachable_wellFormed hs
      have ht := step_trans hstep
      refine ⟨h.1.trans hwf ht, fun hmachines => ?_⟩
      rw [ht.machines_eq] at hmachines
      exact (h.2 hmachines).trans hwf hmachines hguard ht
  have hwf := reachable_wellFormed hs
  have hpos := List.length_pos_of_ne_nil hmachines
  have hcases := hinv.2 hpos
  exact ⟨hcases.flagsInStep hwf hpos, hcases.stepOk_iff hwf hinv.1 hpos⟩

/-- A test that implies the condition. -/
def slotTest (s : State) : Action → Bool
  | .schedule _ =>
      match s.pc with
      | .select _ => decide (false ∈ s.coConfigInUse)
      | _ => true
  | .complete id =>
      match s.controller.idToConfig[id]? with
      | some config => config.all fun p => p.2 = id
      | none => true
  | _ => true

theorem slotIsCounter_of_test (s : State) (action : Action)
    (h : slotTest s action = true) : SlotIsCounter s action := by
  cases action with
  | schedule r =>
      intro job hpc
      exact .inr (by simpa [slotTest, hpc] using h)
  | complete id =>
      intro _ _ config hrow p hp
      simp only [slotTest, hrow, List.all_eq_true, decide_eq_true_eq] at h
      exact h p hp
  | _ => exact trivial

def freezeSecond : List Action :=
  placeJob [4 / 10, 4 / 10] ++ placeJob [4 / 10, 4 / 10] ++ [.schedule [], .schedule []]

def releaseFirst : List Action :=
  freezeSecond ++ [.processEnd 0, .complete 0, .wake, .schedule [], .schedule []]

/-- The first job clears the flag of its slot. -/
theorem flags_in_step_releaseFirst : ∃ s, s.coConfigInUse = [false, true] ∧
    FlagsInStep s ∧ ∀ action, StepOk s action ↔ SlotIsCounter s action := by
  have hrun : ((system (plainSettings .cgroup)).runVia slotTest
      (twoMachines .cgroup [⟨2, 1, "", true⟩, ⟨2, 1, "", true⟩]) releaseFirst).map
        (fun s => (s.coConfigInUse, s.controller.machines)) =
      .ok ([false, true], ["a", "b"]) := by
    decide +kernel
  obtain ⟨s, hrun, hs⟩ := map_eq_ok.mp hrun
  obtain ⟨hflags, hmachines⟩ := Prod.mk.inj hs
  refine ⟨s, hflags, flags_in_step_iff (plainSettings .cgroup)
    (System.runVia_reachable slotIsCounter_of_test (.init (twoMachines_init _ _)) hrun) ?_⟩
  rw [hmachines]
  exact List.cons_ne_nil _ _

/-- The third job passes its counter, which is no slot index, to `command_done`. -/
theorem not_flagLaw_thirdJob : ∃ s,
    (system (plainSettings .cgroup)).Reachable s ∧ ¬ FlagLaw s := by
  have hrun : ((system (plainSettings .cgroup)).run
      (twoMachines .cgroup [⟨2, 1, "", true⟩, ⟨2, 1, "", true⟩, ⟨2, 1, "", true⟩])
      (releaseFirst ++ placeJob [4 / 10, 4 / 10] ++
        [.schedule [], .schedule [], .processEnd 2])).map
        (fun s => decide (s.LockFree ∧ InPhase s.controller 2 .ended ∧
          s.controller.systemConfig.slots.length = 2)) = .ok true := by
    decide +kernel
  obtain ⟨s, hrun, hs⟩ := map_eq_ok.mp hrun
  obtain ⟨hfree, hphase, hslots⟩ := of_decide_eq_true hs
  refine ⟨s, System.run_reachable (fun _ _ => trivial) (.init (twoMachines_init _ _)) hrun,
    fun hlaw => ?_⟩
  obtain ⟨hlt, _⟩ := hlaw.2 (.complete 2) hfree hphase
  rw [hslots] at hlt
  exact absurd hlt (by decide)

end Poncos.TwoApp
