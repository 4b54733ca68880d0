import Poncos.Schedulers.RowLengths

/-!
What lets a run go on: the completion threads have a rank, `execute` and the requests
of a freeze or a thaw return where the tables are sound, and nothing is left to wait for
once no job runs.
-/

namespace Poncos

open Poncos.Library
open Poncos.Library.Execution
open Poncos.Library.Transition
open Poncos.Controller

/-- The steps of a completion thread and those its notification makes others take:
the scheduler goes through its wait once more, and so does every waiter. -/
def Phase.rank (waiters : Nat) : Phase → Nat
  | .executing => waiters + 6
  | .ended => waiters + 5
  | .notifying => waiters + 4
  | .finished => 0

namespace Controller

def threadRank (waiters : Nat) (c : Controller) : Nat :=
  (c.threadPool.map fun worker => worker.phase.rank waiters).sum

theorem sum_map_replace {α : Type} {rank : α → Nat} {key : α → Nat} {f : α → α} {xs : List α}
    {x : α} (hx : x ∈ xs) (hnodup : (xs.map key).Nodup) :
    ((xs.map fun y => if key y = key x then f y else y).map rank).sum + rank x =
      (xs.map rank).sum + rank (f x) := by
  induction xs with
  | nil => cases hx
  | cons y ys ih =>
      simp only [List.map_cons, List.nodup_cons, List.mem_map, not_exists, not_and] at hnodup
      obtain ⟨hhead, hnodup⟩ := hnodup
      simp only [List.map_cons, List.sum_cons]
      rcases List.mem_cons.mp hx with rfl | hx
      · have hrest : (ys.map fun y => if key y = key x then f y else y) = ys := by
          refine (List.map_congr_left fun y hy => if_neg (hhead y hy)).trans (List.map_id' ys)
        rw [hrest, if_pos rfl]
        omega
      · rw [if_neg fun heq => hhead x hx heq.symm]
        have := ih hx hnodup
        omega

theorem threadRank_setPhase (waiters : Nat) {c : Controller} (hc : c.Consistent) {id : Nat}
    {phase phase' : Phase} (h : InPhase c id phase) :
    (c.setPhase id phase').threadRank waiters + phase.rank waiters =
      c.threadRank waiters + phase'.rank waiters := by
  obtain ⟨worker, hworker, rfl, rfl⟩ := h
  have hnodup : (c.threadPool.map Worker.counter).Nodup := by
    rw [hc.counters]
    exact List.nodup_range
  exact @sum_map_replace _ (fun worker => worker.phase.rank waiters) Worker.counter
    (fun worker => { worker with phase := phase' }) _ worker hworker hnodup

theorem ExecuteEffect.threadRank {c c' : Controller} {job : Job} {config : ExecuteConfig}
    {id : Nat} (h : ExecuteEffect c c' job config id) (waiters : Nat) :
    c'.threadRank waiters = c.threadRank waiters + (waiters + 6) := by
  obtain ⟨command, hpool⟩ := h.threadPool
  rw [Controller.threadRank, hpool, List.map_append, List.sum_append]
  rfl

theorem CompleteEffect.threadRank {c c' : Controller} {id : Nat} {config : ExecuteConfig}
    (h : CompleteEffect c c' id config) (waiters : Nat) :
    c'.threadRank waiters = (c.setPhase id .notifying).threadRank waiters := by
  rw [Controller.threadRank, h.threadPool]
  rfl

end Controller

/-- `execute` returns on free slots for which a command can be made up. -/
theorem execute_ok {generateCommand : CommandGenerator} {c : Controller} {job : Job}
    {config : ExecuteConfig} (hne : config ≠ []) (hnodup : config.Nodup)
    (hfree : ∀ p ∈ config, c.machineUsage.get? p = some none)
    (hcommand : ∀ c' : Controller, c'.machines = c.machines → c'.systemConfig = c.systemConfig →
      ∃ command, generateCommand c' job c.cmdCounter config = .ok command) :
    ∃ c' id, c.execute generateCommand job config = .ok (c', id) := by
  obtain ⟨usage, hoccupy⟩ := @occupy_ok c.cmdCounter _ _ hnodup hfree
  obtain ⟨command, hcommand⟩ := hcommand
    { c with
      idToTpool := c.idToTpool ++ [c.threadPool.length]
      idToConfig := c.idToConfig ++ [config]
      idToJob := c.idToJob ++ [job]
      machineUsage := usage } rfl rfl
  rw [Controller.execute, ensure_of hne, bind_of_ok rfl, bind_of_ok hoccupy,
    bind_of_ok hcommand]
  exact ⟨_, _, rfl⟩

section Idle

variable {systemConfig : SystemConfig} {usage : MachineUsage}

theorem rowFree_of_free {row : SlotAllocation} {slots : List Nat}
    (h : ∀ s ∈ slots, row[s]? = some none) : rowFree row slots = .ok true := by
  induction slots with
  | nil => rfl
  | cons s rest ih =>
      rw [rowFree, bind_of_ok (fetch_eq_ok.mpr (h s List.mem_cons_self)), if_pos rfl]
      exact ih fun t ht => h t (List.mem_cons_of_mem s ht)

theorem allFree_of_free (h : ∀ row ∈ usage, ∀ s < systemConfig.slots.length,
    row[s]? = some none) : allFree systemConfig usage = .ok true := by
  induction usage with
  | nil => rfl
  | cons row rest ih =>
      have hrow : rowFree row (List.range systemConfig.slots.length) = .ok true :=
        rowFree_of_free fun s hs => h row List.mem_cons_self s (List.mem_range.mp hs)
      rw [allFree, bind_of_ok hrow, if_pos rfl]
      exact ih fun row' hrow' => h row' (List.mem_cons_of_mem row hrow')

theorem allocatedSlots_of_free {row : SlotAllocation} {slots : List Nat}
    (hslots : ∀ slot ∈ slots, slot < row.length)
    (hfree : ∃ slot ∈ slots, row[slot]? = some none) :
    allocatedSlots 1 row slots 0 = .ok 1 := by
  induction slots with
  | nil => simp at hfree
  | cons slot rest ih =>
      have hget := List.getElem?_eq_getElem (hslots slot List.mem_cons_self)
      rw [allocatedSlots, bind_of_ok (fetch_eq_ok.mpr hget)]
      split
      · rfl
      · rename_i howner
        refine ih (fun t ht => hslots t (List.mem_cons_of_mem slot ht)) ?_
        obtain ⟨t, ht, hnone⟩ := hfree
        rcases List.mem_cons.mp ht with rfl | ht
        · exact absurd (Option.some_inj.mp (hget.symm.trans hnone)) howner
        · exact ⟨t, ht, hnone⟩

theorem freeCpus_of_room {systemConfig : SystemConfig} {usage : MachineUsage}
    (hrows : ∀ row ∈ usage, row.length = systemConfig.slots.length)
    (hroom : ∀ row ∈ usage, ∃ slot < systemConfig.slots.length, row[slot]? = some none)
    (counter : Nat) : freeCpus systemConfig 1 usage counter =
      .ok (counter + usage.length * systemConfig.slotSize) := by
  induction usage generalizing counter with
  | nil => simp [freeCpus]
  | cons row rest ih =>
      obtain ⟨slot, hslot, hfree⟩ := hroom row List.mem_cons_self
      have hallocated := @allocatedSlots_of_free row (List.range systemConfig.slots.length)
        (fun t ht => by rw [hrows row List.mem_cons_self]; exact List.mem_range.mp ht)
        ⟨slot, List.mem_range.mpr hslot, hfree⟩
      rw [freeCpus, bind_of_ok hallocated, if_pos rfl,
        ih (fun row hrow => hrows row (List.mem_cons_of_mem _ hrow))
          fun row hrow => hroom row (List.mem_cons_of_mem _ hrow)]
      rw [List.length_cons, Nat.succ_mul]
      congr 1
      omega

/-- Where no job runs, the table is as the constructor left it. -/
theorem Controller.Consistent.usage_of_idle {c : Controller} (hc : c.Consistent) {rows : Nat}
    (husage : c.machineUsage.Rectangular rows 2) (hidle : ∀ id, ¬ c.Running id) :
    c.machineUsage = List.replicate rows [none, none] := by
  refine List.eq_replicate_iff.mpr ⟨husage.length_eq, fun row hrow => ?_⟩
  obtain ⟨m, hm⟩ := List.mem_iff_getElem?.mp hrow
  obtain ⟨first, second, rfl⟩ := List.length_eq_two.mp (husage.row_length row hrow)
  have hnone : ∀ s owner, c.machineUsage.get? (m, s) = some owner → owner = none := by
    intro s owner howner
    cases owner with
    | none => rfl
    | some id => exact absurd ((hc.owner_iff _ id).mp howner).1 (hidle id)
  have hfirst := hnone 0 first (by rw [Grid.get?_of_row hm]; rfl)
  have hsecond := hnone 1 second (by rw [Grid.get?_of_row hm]; rfl)
  rw [hfirst, hsecond]

end Idle

namespace Controller

/-- The domain a job has at a slot is not suspended. -/
def Goes (backend : Backend) (vmLocations : Vm.VmLocations) (log : List Message) (id : Nat)
    (p : ExecuteConfigElem) : Bool :=
  match domainNameFromConfigElem backend vmLocations p id with
  | .ok d => !suspended log d
  | .error _ => true

/-- No domain of a job is suspended, so that its process can come to an end. -/
def mayEnd (backend : Backend) (c : Controller) (vmLocations : Vm.VmLocations)
    (log : List Message) (id : Nat) : Bool :=
  (c.idToConfig.getD id []).all (Goes backend vmLocations log id)

theorem Consistent.stopped {backend : Backend} {c : Controller} {vmLocations : Vm.VmLocations}
    {log : List Message} {id : Nat} (hc : c.Consistent) (hid : c.Running id)
    (h : c.mayEnd backend vmLocations log id = false) :
    ∃ p d, c.machineUsage.get? p = some (some id) ∧
      domainNameFromConfigElem backend vmLocations p id = .ok d ∧ suspended log d = true := by
  obtain ⟨config, hrow⟩ := hc.exists_config hid
  rw [mayEnd, List.getD_eq_getElem?_getD, hrow, Option.getD_some, List.all_eq_false] at h
  obtain ⟨p, hp, hgoes⟩ := h
  have howner := (hc.owner_iff p id).mpr ⟨hid, config, hrow, hp⟩
  rw [Goes] at hgoes
  split at hgoes
  · rename_i d hdomain
    exact ⟨p, d, howner, hdomain, by simpa using hgoes⟩
  · exact absurd rfl hgoes

end Controller

/-- None of the completion threads goes on: those behind `system` need the lock, and the
processes of the others do not end. -/
structure Controller.ThreadsStopped (c : Controller) (lockFree : Prop) (ends : Nat → Bool) :
    Prop where
  ended : ∀ id, InPhase c id .ended → ¬ lockFree
  notifying : ∀ id, ¬ InPhase c id .notifying
  executing : ∀ id, InPhase c id .executing → ends id = false

namespace Controller.ThreadsStopped

variable {c : Controller} {lockFree : Prop} {ends : Nat → Bool}
  (h : ThreadsStopped c lockFree ends)

include h

theorem of_running (hfree : lockFree) {id : Nat} (hid : c.Running id) : ends id = false := by
  obtain ⟨worker, hworker, hcounter, hactive⟩ := hid
  rcases hactive with hexecuting | hended
  · exact h.executing id ⟨worker, hworker, hcounter, hexecuting⟩
  · exact absurd hfree (h.ended id ⟨worker, hworker, hcounter, hended⟩)

/-- Where no job runs, all of them have returned. -/
theorem finished (hidle : ∀ id, ¬ c.Running id) :
    ∀ worker ∈ c.threadPool, worker.phase = .finished := by
  intro worker hworker
  cases hphase : worker.phase with
  | finished => rfl
  | notifying => exact absurd ⟨worker, hworker, rfl, hphase⟩ (h.notifying worker.counter)
  | executing => exact absurd ⟨worker, hworker, rfl, .inl hphase⟩ (hidle worker.counter)
  | ended => exact absurd ⟨worker, hworker, rfl, .inr hphase⟩ (hidle worker.counter)

end Controller.ThreadsStopped

/-- How the controllers make up the command line of a job. -/
def Backend.generateCommand : Backend → Vm.VmLocations → CommandGenerator
  | .cgroup => fun _ => Cgroup.generateCommand
  | .vm => Vm.generateCommand

section Backend

variable {backend : Backend} {vmLocations : Vm.VmLocations} {c : Controller}
  {config : ExecuteConfig} (hvms : VmsStarted c.machines backend vmLocations)

include hvms

theorem Backend.command_ok {job : Job} {counter : Nat}
    (hslots : c.systemConfig.slots.length = 2)
    (hrange : ∀ p ∈ config, p.1 < c.machines.length ∧ p.2 < 2)
    (hgranted : job.reqCpus ≤ config.length * c.systemConfig.slotSize)
    (hthreads : backend = .cgroup →
      job.threadsPerProc ≠ 0 ∧ c.systemConfig.slotSize % job.threadsPerProc = 0) :
    ∃ command, backend.generateCommand vmLocations c job counter config = .ok command := by
  cases backend with
  | cgroup =>
      obtain ⟨hthreads, hdivides⟩ := hthreads rfl
      rw [← hslots] at hrange
      exact generateCommand_ok hrange hgranted hthreads hdivides
  | vm =>
      have hread : config.mapM vmLocations.read =
          .ok (config.map fun p => (vmLocations.get? p).getD "") := by
        refine mapM_eq_ok_map fun p hp => ?_
        rw [Grid.read_eq_ok]
        obtain ⟨name, hname⟩ := Option.isSome_iff_exists.mp
          ((hvms.1.isSome_iff p).mpr (hrange p hp))
        rw [hname]
        rfl
      have hlaunched : ∃ launched, Vm.launch vmLocations job config = .ok launched :=
        ⟨_, bind_of_ok hread⟩
      obtain ⟨launched, hlaunched⟩ := hlaunched
      exact ⟨launched.text job, bind_of_ok hlaunched⟩

/-- Every occupied slot of a config has a domain that can be addressed. -/
theorem suspendResumeConfig_ok (op : Domain → Task)
    (husage : c.machineUsage.Rectangular c.machines.length 2)
    (hrange : ∀ p ∈ config, p.1 < c.machines.length ∧ p.2 < 2) :
    ∃ messages, suspendResumeConfig backend c vmLocations op config = .ok messages := by
  induction config with
  | nil => exact ⟨[], rfl⟩
  | cons p rest ih =>
      obtain ⟨messages, hrest⟩ := ih fun q hq => hrange q (List.mem_cons_of_mem p hq)
      have hp := hrange p List.mem_cons_self
      obtain ⟨owner, howner⟩ := Option.isSome_iff_exists.mp ((husage.isSome_iff p).mpr hp)
      rw [suspendResumeConfig, bind_of_ok (Grid.read_eq_ok.mpr howner)]
      cases owner with
      | none => exact ⟨messages, hrest⟩
      | some owner =>
          have hdomain : ∃ domain, domainNameFromConfigElem backend vmLocations p owner =
              .ok domain := by
            cases backend with
            | cgroup => exact ⟨_, rfl⟩
            | vm =>
                obtain ⟨name, hname⟩ := Option.isSome_iff_exists.mp
                  ((hvms.1.isSome_iff p).mpr hp)
                exact ⟨.vm name, bind_of_ok (Grid.read_eq_ok.mpr hname)⟩
          obtain ⟨domain, hdomain⟩ := hdomain
          have hhost := List.getElem?_eq_getElem hp.1
          refine ⟨⟨c.machines[p.1], op domain⟩ :: messages, ?_⟩
          change (fetch c.machines p.1 >>= _) = _
          rw [bind_of_ok (fetch_eq_ok.mpr hhost), bind_of_ok hdomain, bind_of_ok hrest]

section Requests

variable (husage : c.machineUsage.Rectangular c.machines.length 2) {id : Nat}
  (hrow : c.idToConfig[id]? = some config)
  (hrange : ∀ p ∈ config, p.1 < c.machines.length ∧ p.2 < 2)

include husage hrow hrange

theorem freeze_ok : ∃ messages, freeze backend c vmLocations id = .ok messages := by
  obtain ⟨messages, hmessages⟩ := suspendResumeConfig_ok hvms .suspend husage hrange
  refine ⟨messages, ?_⟩
  rw [freeze, ensure_of (List.getElem?_eq_some_iff.mp hrow).1, bind_of_ok rfl,
    bind_of_ok (fetch_eq_ok.mpr hrow), hmessages]

theorem thaw_ok : ∃ messages, thaw backend c vmLocations id = .ok messages := by
  obtain ⟨messages, hmessages⟩ := suspendResumeConfig_ok hvms .resume husage hrange
  refine ⟨messages, ?_⟩
  rw [thaw, ensure_of (List.getElem?_eq_some_iff.mp hrow).1, bind_of_ok rfl,
    bind_of_ok (fetch_eq_ok.mpr hrow), hmessages]

variable (hslots : c.systemConfig.slots.length = 2)

include hslots

theorem suspendResume_opposing_ok (op : Domain → Task) :
    ∃ opposingConfig messages, c.generateOpposingConfig id = .ok opposingConfig ∧
      suspendResumeConfig backend c vmLocations op opposingConfig = .ok messages := by
  obtain ⟨messages, hmessages⟩ := @suspendResumeConfig_ok _ _ _ (config.map opposing) hvms op
    husage fun q hq => by
      obtain ⟨p, hp, rfl⟩ := List.mem_map.mp hq
      exact ⟨(hrange p hp).1, Nat.mod_lt _ (by omega)⟩
  exact ⟨_, messages, generateOpposingConfig_ok hrow hslots, hmessages⟩

theorem freezeOpposing_ok :
    ∃ messages, freezeOpposing backend c vmLocations id = .ok messages := by
  obtain ⟨_, messages, hopposing, hmessages⟩ :=
    suspendResume_opposing_ok hvms husage hrow hrange hslots .suspend
  exact ⟨messages, by rw [freezeOpposing, bind_of_ok hopposing, hmessages]⟩

theorem thawOpposing_ok : ∃ messages, thawOpposing backend c vmLocations id = .ok messages := by
  obtain ⟨_, messages, hopposing, hmessages⟩ :=
    suspendResume_opposing_ok hvms husage hrow hrange hslots .resume
  exact ⟨messages, by rw [thawOpposing, bind_of_ok hopposing, hmessages]⟩

end Requests

end Backend

end Poncos
