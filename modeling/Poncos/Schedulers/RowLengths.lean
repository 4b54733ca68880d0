import Poncos.Schedulers.Admission

/-!
The length of the rows.  The constructor gives every machine two entries, whatever
number of slots is configured, while the predicates that wait, the placement loop and
the commands go over the configured ones.
-/

namespace Poncos

open Poncos.Library
open Poncos.Library.Execution
open Poncos.Library.Transition
open Poncos.Controller

section Predicates

variable {systemConfig : SystemConfig} {usage : MachineUsage} {row : SlotAllocation}
  {slots : List Nat}

theorem allocatedSlots_ok (hslots : ∀ s ∈ slots, s < row.length) (slotsPerHost allocated : Nat) :
    ∃ k, allocatedSlots slotsPerHost row slots allocated = .ok k := by
  induction slots generalizing allocated with
  | nil => exact ⟨allocated, rfl⟩
  | cons s rest ih =>
      have hget := List.getElem?_eq_getElem (hslots s List.mem_cons_self)
      have hrest := ih fun t ht => hslots t (List.mem_cons_of_mem s ht)
      rw [allocatedSlots, bind_of_ok (fetch_eq_ok.mpr hget)]
      split
      · split
        · exact ⟨allocated + 1, rfl⟩
        · exact hrest (allocated + 1)
      · exact hrest allocated

theorem freeCpus_ok (hrows : ∀ row ∈ usage, row.length = systemConfig.slots.length)
    (slotsPerHost counter : Nat) :
    ∃ k, freeCpus systemConfig slotsPerHost usage counter = .ok k := by
  induction usage generalizing counter with
  | nil => exact ⟨counter, rfl⟩
  | cons row rest ih =>
      have hrest := ih fun row hrow => hrows row (List.mem_cons_of_mem _ hrow)
      obtain ⟨allocated, hallocated⟩ := @allocatedSlots_ok row
        (List.range systemConfig.slots.length) (fun s hs => by
          rw [hrows row List.mem_cons_self]
          exact List.mem_range.mp hs) slotsPerHost 0
      rw [freeCpus, bind_of_ok hallocated]
      split
      · exact hrest _
      · exact hrest counter

theorem rowFree_ok (hslots : ∀ s ∈ slots, s < row.length) :
    ∃ free, rowFree row slots = .ok free := by
  induction slots with
  | nil => exact ⟨true, rfl⟩
  | cons s rest ih =>
      have hget := List.getElem?_eq_getElem (hslots s List.mem_cons_self)
      rw [rowFree, bind_of_ok (fetch_eq_ok.mpr hget)]
      split
      · exact ih fun t ht => hslots t (List.mem_cons_of_mem s ht)
      · exact ⟨false, rfl⟩

theorem allFree_ok (hrows : ∀ row ∈ usage, row.length = systemConfig.slots.length) :
    ∃ free, allFree systemConfig usage = .ok free := by
  induction usage with
  | nil => exact ⟨true, rfl⟩
  | cons row rest ih =>
      obtain ⟨free, hfree⟩ := @rowFree_ok row (List.range systemConfig.slots.length)
        fun s hs => by
          rw [hrows row List.mem_cons_self]
          exact List.mem_range.mp hs
      rw [allFree, bind_of_ok hfree]
      split
      · exact ih fun row hrow => hrows row (List.mem_cons_of_mem _ hrow)
      · exact ⟨false, rfl⟩

end Predicates

/-- A command for slots that exist is made up, or one of its checks fails. -/
theorem Cgroup.generateCommand_inRange {c : Controller} {job : Job} {counter : Nat}
    {config : ExecuteConfig}
    (hrange : ∀ p ∈ config, p.1 < c.machines.length ∧ p.2 < c.systemConfig.slots.length) :
    Cgroup.generateCommand c job counter config ≠ .error .outOfRange := by
  obtain ⟨lists, hgroup, _⟩ := Cgroup.groupHosts_emptyLists hrange
  refine bind_ne_error ?_ fun _ _ => by rintro ⟨⟩
  refine bind_ne_error (ne_error_of_ok ⟨lists, hgroup⟩) fun _ _ => ?_
  refine bind_ne_error ensure_inRange fun _ _ => ?_
  refine bind_ne_error ensure_inRange fun _ _ => ?_
  refine bind_ne_error ensure_inRange fun _ _ => ?_
  rintro ⟨⟩

theorem execute_inRange {c : Controller} {job : Job} {config : ExecuteConfig} {columns : Nat}
    (husage : c.machineUsage.Rectangular c.machines.length columns)
    (hslots : c.systemConfig.slots.length = columns) (hnodup : config.Nodup)
    (hfree : ∀ p ∈ config, c.machineUsage.get? p = some none) :
    c.execute Cgroup.generateCommand job config ≠ .error .outOfRange := by
  have hrange : ∀ p ∈ config, p.1 < c.machines.length ∧ p.2 < c.systemConfig.slots.length := by
    intro p hp
    rw [hslots, ← husage.isSome_iff, hfree p hp]
    rfl
  refine bind_ne_error ensure_inRange fun _ _ => ?_
  refine bind_ne_error (ne_error_of_ok (occupy_ok hnodup hfree)) fun _ _ => ?_
  refine bind_ne_error (Cgroup.generateCommand_inRange hrange) fun _ _ => ?_
  rintro ⟨⟩

namespace MultiAppConsec

/-- What keeps the accesses to the table in range: one entry in every row for every
configured slot, no step that leaves a sequence, and a placement that the comparison of
the first two entries does not stop. -/
structure InBounds (s : State) : Prop where
  rows : ∀ row ∈ s.controller.machineUsage,
    row.length = s.controller.systemConfig.slots.length
  accesses : ∀ action, step cgroupSettings s action ≠ .error .outOfRange
  compared : ∀ job, s.pc = .select job →
    selectNodes s.controller.systemConfig.slots.length s.controller.systemConfig.slotSize
      job.reqCpus 0 s.controller.machineUsage [] ≠ .error .assertion

/-- The machines of a placement are free, so that their slots are too. -/
theorem Collected.free_nodes {usage : MachineUsage} {m : Nat} {machines : List Nat}
    (h : Collected usage m machines) : ∀ p ∈ nodes machines, usage.get? p = some none := by
  rintro ⟨m, s⟩ hp
  obtain ⟨hm, hs⟩ := mem_nodes.mp hp
  rw [Grid.get?_of_row (h.free m hm)]
  rcases (show s = 0 ∨ s = 1 by simp only at hs; omega) with rfl | rfl <;> rfl

section Steps

variable {s : State}

/-- The threads of the jobs free slots that exist. -/
theorem thread_inRange (hconsistent : s.controller.Consistent) {action : Action}
    (haction : action ≠ .schedule) : step cgroupSettings s action ≠ .error .outOfRange := by
  cases action with
  | schedule => exact absurd rfl haction
  | wake =>
      simp only [step, wakeStep]
      split <;> rintro ⟨⟩
  | processEnd id => exact bind_ne_error require_inRange fun _ _ => by rintro ⟨⟩
  | complete id =>
      refine bind_ne_error require_inRange fun _ _ => ?_
      refine bind_ne_error require_inRange fun _ hphase => ?_
      have hid := running_of_inPhase (require_eq_ok.mp hphase) (.inr rfl)
      refine bind_ne_error (ne_error_of_ok (executeCommandInternal_ok hconsistent hid))
        fun _ _ => ?_
      rintro ⟨⟩
  | notifyAll id => exact bind_ne_error require_inRange fun _ _ => by rintro ⟨⟩

/-- Where the rows match the configured slots, only the placement is left to look at. -/
theorem inBounds_of_rows (hconsistent : s.controller.Consistent)
    (hrows : ∀ row ∈ s.controller.machineUsage,
      row.length = s.controller.systemConfig.slots.length)
    (hselect : ∀ job, s.pc = .select job → ∃ config,
      selectNodes s.controller.systemConfig.slots.length s.controller.systemConfig.slotSize
        job.reqCpus 0 s.controller.machineUsage [] = .ok config ∧
      s.controller.execute Cgroup.generateCommand job config ≠ .error .outOfRange) :
    InBounds s := by
  refine ⟨hrows, fun action => ?_, fun job hpc => ?_⟩
  · rcases eq_or_ne action .schedule with rfl | haction
    · change scheduleStep cgroupSettings s ≠ _
      cases hpc : s.pc with
      | nextJob =>
          simp only [scheduleStep, hpc]
          split
          · rintro ⟨⟩
          · exact bind_ne_error ensure_inRange fun _ _ => by rintro ⟨⟩
      | waitRessource job =>
          simp only [scheduleStep, hpc]
          refine bind_ne_error ?_ fun _ _ => by rintro ⟨⟩
          refine bind_ne_error (ne_error_of_ok (freeCpus_ok hrows _ 0)) fun _ _ => ?_
          rintro ⟨⟩
      | select job =>
          simp only [scheduleStep, hpc]
          obtain ⟨config, hconfig, hexecute⟩ := hselect job hpc
          rw [bind_of_ok hconfig]
          refine bind_ne_error ensure_inRange fun _ _ => ?_
          refine bind_ne_error hexecute fun _ _ => ?_
          rintro ⟨⟩
      | done =>
          simp only [scheduleStep, hpc]
          refine bind_ne_error (ne_error_of_ok (allFree_ok hrows)) fun _ _ => ?_
          rintro ⟨⟩
      | asleep wait =>
          simp only [scheduleStep, hpc]
          rintro ⟨⟩
      | finished =>
          simp only [scheduleStep, hpc]
          rintro ⟨⟩
    · exact thread_inRange hconsistent haction
  · obtain ⟨config, hconfig, _⟩ := hselect job hpc
    exact ne_error_of_ok ⟨config, hconfig⟩

/-- Two slots: a free machine is taken whole, and both its entries exist. -/
theorem inBounds_of_wholeNodes (hwf : WellFormed s) (hnodes : WholeNodes s) : InBounds s := by
  have hrows : ∀ row ∈ s.controller.machineUsage,
      row.length = s.controller.systemConfig.slots.length := by
    rw [hwf.slots]
    exact hwf.usage.row_length
  refine inBounds_of_rows hwf.consistent hrows fun job _ => ?_
  obtain ⟨m, machines, hselect, hcollected⟩ := @selectNodes_total _ _
    s.controller.systemConfig.slotSize job.reqCpus (hnodes.uniform hwf) 0 List.drop_zero []
    Collected.nil
  rw [hwf.slots]
  exact ⟨nodes machines, hselect, execute_inRange hwf.usage hwf.slots
    (nodup_nodes hcollected.nodup) hcollected.free_nodes⟩

/-- The tables stay as the constructor left them while no job can be started. -/
theorem create_trans {σ : Settings} {s' : State} {action : Action} {machines : List String}
    {systemConfig : SystemConfig} (hcreate : s.controller = Controller.create machines systemConfig)
    (hselect : ∀ job config c id, s.pc = .select job →
      ¬ ExecuteEffect s.controller c job config id)
    (ht : Trans σ s action s') : s'.controller = Controller.create machines systemConfig := by
  have hthreads : ∀ id phase, ¬ InPhase s.controller id phase := by
    rw [hcreate]
    rintro id phase ⟨worker, hworker, _⟩
    cases hworker
  cases ht with
  | select hpc _ heffect => exact absurd heffect (hselect _ _ _ _ hpc)
  | processEnd hphase => exact absurd hphase (hthreads _ _)
  | complete _ hphase => exact absurd hphase (hthreads _ _)
  | notifyAll hphase => exact absurd hphase (hthreads _ _)
  | _ => exact hcreate

end Steps

section Runs

variable {machines : List String} {systemConfig : SystemConfig} {queue : List Job} {s : State}

theorem reachable_wholeNodes {σ : Settings} (hs : (system σ).Reachable s) : WholeNodes s := by
  refine hs.invariant ?_ ?_
  · rintro s ⟨machines, systemConfig, vmLocations, queue, _, _, rfl⟩
    exact wholeNodes_start ..
  · intro s action s' hs h _ hstep
    exact h.trans (reachable_wellFormed hs) (step_trans hstep)

theorem reachable_noMachines
    (hs : ((system cgroupSettings).startingAt (start [] systemConfig [] queue)).Reachable s) :
    s.controller = Controller.create [] systemConfig := by
  refine hs.invariant (P := fun s => s.controller = Controller.create [] systemConfig) ?_ ?_
  · rintro s rfl
    rfl
  · intro s action s' _ h _ hstep
    refine create_trans h (fun job config c id _ heffect => ?_) (step_trans hstep)
    obtain ⟨p, hp⟩ := List.exists_mem_of_ne_nil config heffect.nonempty
    have hfree := heffect.free p hp
    rw [h] at hfree
    cases hfree

theorem inBounds_noMachines (h : s.controller = Controller.create [] systemConfig) :
    InBounds s := by
  have hconsistent : s.controller.Consistent := by
    rw [h]
    exact create_consistent [] systemConfig
  refine inBounds_of_rows hconsistent ?_ fun job _ => ?_
  · rw [h]
    rintro row ⟨⟩
  · rw [h]
    exact ⟨[], rfl, by rintro ⟨⟩⟩

theorem range_of_two_lt {slots : Nat} (hslots : 2 < slots) :
    ∃ rest, List.range slots = 0 :: 1 :: 2 :: rest := by
  obtain ⟨k, rfl⟩ := Nat.exists_eq_add_of_lt hslots
  rw [show 2 + k + 1 = k + 3 by omega, List.range_succ_eq_map, List.range_succ_eq_map,
    List.range_succ_eq_map]
  exact ⟨_, rfl⟩

/-- A row of two entries is read beyond its end where more slots are configured. -/
theorem allocatedSlots_beyond {slots : Nat} (hslots : 2 < slots) :
    allocatedSlots slots [none, none] (List.range slots) 0 = .error .outOfRange := by
  have hone : 0 + 1 ≠ slots := by omega
  have htwo : 0 + 1 + 1 ≠ slots := by omega
  obtain ⟨rest, hrange⟩ := range_of_two_lt hslots
  rw [hrange, allocatedSlots, bind_of_ok (fetch_eq_ok.mpr rfl), if_pos rfl, if_neg hone,
    allocatedSlots, bind_of_ok (fetch_eq_ok.mpr rfl), if_pos rfl, if_neg htwo]
  rfl

theorem rowFree_beyond {slots : Nat} (hslots : 2 < slots) :
    rowFree [none, none] (List.range slots) = .error .outOfRange := by
  obtain ⟨rest, hrange⟩ := range_of_two_lt hslots
  rw [hrange]
  rfl

theorem wait_outOfRange (hslots : 2 < systemConfig.slots.length) {name : String}
    {rest : List String} (hcreate : s.controller = Controller.create (name :: rest) systemConfig)
    (hpc : s.pc = .done ∨ ∃ job, s.pc = .waitRessource job) :
    step cgroupSettings s .schedule = .error .outOfRange := by
  rcases hpc with hpc | ⟨job, hpc⟩
  · simp [step, scheduleStep, hpc, hcreate, Controller.create, List.replicate_succ, allFree,
      rowFree_beyond hslots, bind, Except.bind]
  · simp [step, scheduleStep, hpc, hcreate, Controller.create, List.replicate_succ,
      ressourceAvailable, freeCpus, allocatedSlots_beyond hslots, bind, Except.bind]

/-- With more than two slots no run gets past its first wait. -/
theorem manySlots_outOfRange (hslots : 2 < systemConfig.slots.length) {name : String}
    {rest : List String} (hs : ((system cgroupSettings).startingAt
      (start (name :: rest) systemConfig [] queue)).Reachable s) :
    s.pc = .nextJob ∨ step cgroupSettings s .schedule = .error .outOfRange := by
  have hinv : s.controller = Controller.create (name :: rest) systemConfig ∧
      (s.pc = .nextJob ∨ s.pc = .done ∨ ∃ job, s.pc = .waitRessource job) := by
    refine hs.invariant (P := fun s =>
      s.controller = Controller.create (name :: rest) systemConfig ∧
        (s.pc = .nextJob ∨ s.pc = .done ∨ ∃ job, s.pc = .waitRessource job)) ?_ ?_
    · rintro s rfl
      exact ⟨rfl, .inl rfl⟩
    · rintro s action s' _ ⟨hcreate, hpc⟩ _ hstep
      have ht := step_trans hstep
      refine ⟨create_trans hcreate ?_ ht, ?_⟩
      · intro job config c id hpc' _
        simp [hpc'] at hpc
      · cases ht with
        | nextJob => exact .inr (.inr ⟨_, rfl⟩)
        | lastJob => exact .inr (.inl rfl)
        | ressource hpc' | noRessource hpc' =>
            cases (wait_outOfRange hslots hcreate (.inr ⟨_, hpc'⟩)).symm.trans hstep
        | allDone hpc' | notDone hpc' =>
            cases (wait_outOfRange hslots hcreate (.inl hpc')).symm.trans hstep
        | select hpc' | wake hpc' | complete hpc' => simp [hpc'] at hpc
        | processEnd | notifyAll => exact hpc
  exact hinv.2.imp_right (wait_outOfRange hslots hinv.1)

end Runs

/-- The table fits the configuration along every run exactly for two slots, or where
there is no machine. -/
theorem inBounds_iff (machines : List String) (systemConfig : SystemConfig) (queue : List Job) :
    (∀ s, ((system cgroupSettings).startingAt
        (start machines systemConfig [] queue)).Reachable s → InBounds s) ↔
      machines = [] ∨ systemConfig.slots.length = 2 := by
  constructor
  · intro h
    have hrows := (h _ (.init rfl)).rows
    cases machines with
    | nil => exact .inl rfl
    | cons name rest => exact .inr (hrows [none, none] List.mem_cons_self).symm
  · rintro (rfl | hslots) s hs
    · exact inBounds_noMachines (reachable_noMachines hs)
    · have hinit : (system cgroupSettings).Init (start machines systemConfig [] queue) :=
        ⟨machines, systemConfig, [], queue, hslots, rfl, rfl⟩
      have hreach := System.ReachableVia.append (.init hinit) hs
      exact inBounds_of_wholeNodes (reachable_wellFormed hreach) (reachable_wholeNodes hreach)

/-- Three slots on one machine: the first wait reads a third entry.  One slot on each of
two machines: the second entry of the taken machine stays free, and the comparison stops
the next placement. -/
theorem not_inBounds_otherSlots :
    (∃ s, ((system cgroupSettings).startingAt
        (start ["a"] ⟨[⟨[0], []⟩, ⟨[1], []⟩, ⟨[2], []⟩]⟩ [] [⟨1, 1, "x", false⟩])).Reachable s ∧
      s.pc = .waitRessource ⟨1, 1, "x", false⟩ ∧
      step cgroupSettings s .schedule = .error .outOfRange ∧ ¬ InBounds s) ∧
    ∃ s, ((system cgroupSettings).startingAt (start ["a", "b"] ⟨[⟨[0], []⟩]⟩ []
        [⟨1, 1, "x", false⟩, ⟨1, 1, "y", false⟩])).Reachable s ∧
      s.pc = .select ⟨1, 1, "y", false⟩ ∧
      s.controller.machineUsage = [[some 0, none], [none, none]] ∧
      step cgroupSettings s .schedule = .error .assertion ∧ ¬ InBounds s := by
  constructor
  · refine ⟨_, @System.run_reachable _ _ _ _ (fun _ _ => trivial) _ _ [.schedule] (.init rfl) rfl,
      rfl, rfl, fun h => ?_⟩
    exact h.accesses .schedule rfl
  · refine ⟨_, @System.run_reachable _ _ _ _ (fun _ _ => trivial) _ _
      [.schedule, .schedule, .schedule, .schedule, .schedule] (.init rfl) rfl,
      rfl, rfl, rfl, fun h => ?_⟩
    exact h.compared _ rfl rfl

end MultiAppConsec

end Poncos
