import Poncos.Library.Restriction
import Poncos.Schedulers.Progress
import Poncos.Schedulers.WakeUps
import Poncos.TwoApp.HandOut
import Poncos.TwoApp.SideBySide
import Poncos.Vm.TablesMove

/-!
How far the two-app scheduler gets.  Up to two jobs are run to their end, even if a
suspended process never ends by itself, and no check fails.  From the third job on no run
comes to an end: the callback of that job clears a flag that does not exist.
-/

namespace Poncos

/-- A job that asks for one slot of every machine and whose threads divide it. -/
structure Job.FillsSlots (job : Job) (machines : List String) (systemConfig : SystemConfig)
    (backend : Backend) : Prop where
  positive : 0 < job.reqCpus
  fits : job.reqCpus = machines.length * systemConfig.slotSize
  threads : backend = .cgroup →
    job.threadsPerProc ≠ 0 ∧ systemConfig.slotSize % job.threadsPerProc = 0

namespace TwoApp

open Poncos.Library
open Poncos.Library.Execution
open Poncos.Library.Transition
open Poncos.Library.Transition.System
open Poncos.Controller

/-- The scheduler under one of the two controllers. -/
def controllerSettings (backend : Backend) : Settings := ⟨backend, backend.generateCommand⟩

/-- The process of a job does not end while a domain of the job is suspended. -/
def notStopped (backend : Backend) (s : State) : Action → Bool
  | .processEnd id => s.controller.mayEnd backend s.vmLocations s.log id
  | _ => true

/-- The runs in which a wait returns only after it was notified, and a suspended job
does not end. -/
def launch (backend : Backend) (machines : List String) (systemConfig : SystemConfig)
    (vmLocations : Vm.VmLocations) (jobs : List Job) : System (State × Bool) Action :=
  (((system (controllerSettings backend)).restrict (notStopped backend)).notified
    sleeper).startingAt (start machines systemConfig vmLocations jobs, false)

/-- What a run starts from: two slots on every machine, VMs where they are needed, and
jobs that take one slot of every machine. -/
structure Launchable (backend : Backend) (machines : List String) (systemConfig : SystemConfig)
    (vmLocations : Vm.VmLocations) (jobs : List Job) : Prop where
  slots : systemConfig.slots.length = 2
  vms : VmsStarted machines backend vmLocations
  fits : ∀ job ∈ jobs, job.FillsSlots machines systemConfig backend

/-- A run that is over: `schedule` has returned, so have all completion threads, and
every job was executed once and completed once. -/
structure Ended (jobs : List Job) (s : State × Bool) : Prop where
  scheduler : s.1.pc = .finished
  threads : ∀ worker ∈ s.1.controller.threadPool, worker.phase = .finished
  jobsDone : ∃ completed, JobQueue.JobsDone jobs s.1.controller completed

section Rank

def Pc.rank : Pc → Nat
  | .nextJob => 3
  | .waitRessource _ => 17
  | .select _ => 16
  | .asleep (.ressource _) => 15
  | .freezeOpposing _ _ _ => 9
  | .runDistgen _ _ _ => 8
  | .thawOpposing _ _ _ => 7
  | .estimate _ _ _ => 6
  | .waitFrozen _ _ _ => 5
  | .thaw _ _ => 4
  | .asleep (.frozen _ _ _) => 3
  | .done => 2
  | .asleep .done => 0
  | .finished => 0

def State.rank (s : State) : Nat :=
  s.controller.threadRank 0 + 15 * s.queue.length + s.pc.rank

/-- Every step but a wake-up lowers the rank, and a notification pays for the wake-up
that it may cause. -/
theorem Trans.rank {σ : Settings} {s s' : State} {action : Action} (ht : Trans σ s action s')
    (hc : s.controller.Consistent) :
    s'.rank + (if sleeper.notifies action then 4 else 1) ≤
      s.rank + if sleeper.wakes action then 3 else 0 := by
  cases ht with
  | nextJob hpc hqueue =>
      simp [State.rank, Pc.rank, sleeper, hpc, hqueue]
      omega
  | select hpc _ heffect =>
      simp [State.rank, Pc.rank, sleeper, hpc, heffect.threadRank]
      omega
  | @wake wait hpc =>
      cases wait <;> simp [State.rank, Pc.rank, Wait.resume, sleeper, hpc]
  | processEnd hphase =>
      have := @threadRank_setPhase 0 _ hc _ _ .ended hphase
      simp [State.rank, sleeper, Phase.rank] at this ⊢
      omega
  | complete _ hphase heffect =>
      have := @threadRank_setPhase 0 _ hc _ _ .notifying hphase
      simp [State.rank, sleeper, heffect.threadRank, Phase.rank] at this ⊢
      omega
  | notifyAll hphase =>
      have := @threadRank_setPhase 0 _ hc _ _ .finished hphase
      simp [State.rank, sleeper, Phase.rank] at this ⊢
      omega
  | lastJob hpc | ressource hpc | noRessource hpc | freezeOpposing hpc | alone hpc
  | runDistgen hpc | thawOpposing hpc | stillAlone hpc | fits hpc | freeze hpc
  | available hpc | notAvailable hpc | thaw hpc | allDone hpc | notDone hpc =>
      simp [State.rank, Pc.rank, sleeper, hpc]

/-- A bound on the steps that are left. -/
def rank (s : State × Bool) : Nat := s.1.rank + if s.2 then 3 else 0

theorem notified_lowers (σ : Settings) (test : State → Action → Bool) :
    (((system σ).restrict test).notified sleeper).Lowers rank := by
  intro s action s' hs hstep
  have hreach := restrict_reachable (notified_reachable hs)
  have hc := (reachable_wellFormed hreach).consistent
  have hnotifies : sleeper.wakes action = true → sleeper.notifies action = false := by
    cases action <;> simp [sleeper]
  exact @notified_rank_lt _ _ _ _ _ _ _ State.rank 3 hnotifies
    (fun t ht => (step_trans (restrict_step.mp ht).2).rank hc) hstep

end Rank

section Underway

variable {σ : Settings} {s s' : State} {machines : List String} {systemConfig : SystemConfig}
  {vmLocations : Vm.VmLocations} {jobs : List Job}

/-- What a run leaves as it was, and where the jobs are. -/
structure Underway (machines : List String) (systemConfig : SystemConfig)
    (vmLocations : Vm.VmLocations) (jobs : List Job) (s : State) : Prop where
  machines : s.controller.machines = machines
  systemConfig : s.controller.systemConfig = systemConfig
  vmLocations : s.vmLocations = vmLocations
  jobs : s.controller.idToJob ++ (s.pc.pending ++ s.queue) = jobs
  drained : s.pc.Drained → s.queue = []

theorem Underway.trans {action : Action}
    (h : Underway machines systemConfig vmLocations jobs s) (ht : Trans σ s action s') :
    Underway machines systemConfig vmLocations jobs s' := by
  have hdrained := drained_trans h.drained ht
  obtain ⟨hmachines, hconfig, hvms, hjobs, _⟩ := h
  cases ht with
  | nextJob hpc hqueue =>
      exact ⟨hmachines, hconfig, hvms, by simpa [hpc, hqueue, Pc.pending] using hjobs, hdrained⟩
  | select hpc _ heffect =>
      refine ⟨heffect.machines.trans hmachines, heffect.systemConfig.trans hconfig, hvms, ?_,
        hdrained⟩
      simpa [hpc, heffect.idToJob, Pc.pending] using hjobs
  | complete hpc _ heffect =>
      refine ⟨heffect.machines.trans hmachines, heffect.systemConfig.trans hconfig, hvms, ?_,
        hdrained⟩
      rw [heffect.idToJob]
      exact hjobs
  | @wake wait hpc =>
      refine ⟨hmachines, hconfig, hvms, ?_, hdrained⟩
      cases wait <;> simpa [hpc, Wait.resume, Pc.pending] using hjobs
  | processEnd | notifyAll => exact ⟨hmachines, hconfig, hvms, hjobs, hdrained⟩
  | lastJob hpc | ressource hpc | noRessource hpc | freezeOpposing hpc | alone hpc
  | runDistgen hpc | thawOpposing hpc | stillAlone hpc | fits hpc | freeze hpc
  | available hpc | notAvailable hpc | thaw hpc | allDone hpc | notDone hpc =>
      exact ⟨hmachines, hconfig, hvms, by simpa [hpc, Pc.pending] using hjobs, hdrained⟩

theorem Underway.counter (h : Underway machines systemConfig vmLocations jobs s)
    (hwf : WellFormed s) :
    s.controller.cmdCounter + s.pc.pending.length + s.queue.length = jobs.length := by
  rw [← h.jobs, ← hwf.consistent.jobs_length]
  simp [Nat.add_assoc]

end Underway

section Beginning

variable {σ : Settings} {s s' : State}

/-- Before the second job is placed: no message was sent, the second flag is clear, and a
clear first flag means that no job runs. -/
structure Calm (s : State) : Prop where
  log : s.log = []
  second : s.coConfigInUse[1]? = some false
  first : s.coConfigInUse[0]? = some false → ∀ id, ¬ s.controller.Running id
  beside : ∀ job id newSlot, s.pc ≠ .estimate job id newSlot
  frozen : s.pc.frozen = none
  thawed : ∀ id newSlot, s.pc ≠ .thaw id newSlot

namespace Calm

theorem not_bothInUse (h : Calm s) : bothInUse s ≠ .ok true := by
  intro hboth
  cases (bothInUse_eq_true hboth).2.symm.trans h.second

theorem of_pc (h : Calm s) {pc : Pc} {queue : List Job} {distgend : List ℚ}
    (hbeside : ∀ job id newSlot, pc ≠ .estimate job id newSlot) (hfrozen : pc.frozen = none)
    (hthawed : ∀ id newSlot, pc ≠ .thaw id newSlot) :
    Calm { s with pc := pc, queue := queue, coConfigDistgend := distgend } :=
  ⟨h.log, h.second, h.first, hbeside, hfrozen, hthawed⟩

theorem setPhase (h : Calm s) {id : Nat} {phase : Phase}
    (hrunning : ∀ j, (s.controller.setPhase id phase).Running j ↔
      s.controller.Running j) :
    Calm { s with controller := s.controller.setPhase id phase } :=
  ⟨h.log, h.second, fun hflag j hj => h.first hflag j ((hrunning j).mp hj), h.beside, h.frozen,
    h.thawed⟩

theorem complete (h : Calm s) (hwf : WellFormed s) {id : Nat} {c : Controller}
    {config : ExecuteConfig} (hcounter : s.controller.cmdCounter < 2)
    (hphase : InPhase s.controller id .ended)
    (heffect : CompleteEffect s.controller c id config) :
    Calm { s with
      controller := c
      coConfigInUse := s.coConfigInUse.set id false
      coConfigDistgend := s.coConfigDistgend.set id 0 } := by
  have hid := hwf.consistent.running_lt (running_of_inPhase hphase (.inr rfl))
  refine ⟨h.log, ?_, fun _ j hj => ?_, h.beside, h.frozen, h.thawed⟩
  · exact (List.getElem?_set_ne (by omega)).trans h.second
  · obtain ⟨hj, hne⟩ := (heffect.running_iff j).mp hj
    have hlt := hwf.consistent.running_lt hj
    omega

theorem trans {action : Action} (h : Calm s) (hwf : WellFormed s) (hcover : FlagsCover s)
    (hcounter : s'.controller.cmdCounter < 2) (hstep : step σ s action = .ok s') :
    Calm s' := by
  cases step_trans hstep with
  | select hpc _ heffect =>
      have hlt : s.controller.cmdCounter + 1 < 2 := by
        rw [← heffect.cmdCounter]
        exact hcounter
      have hzero : s.controller.cmdCounter = 0 := by omega
      have hfresh := hcover.fresh hzero
      rcases step_select hwf hpc rfl hstep with ⟨rfl, _⟩ | ⟨_, hset⟩
      · refine ⟨h.log, ?_, fun hclear => ?_, by rintro _ _ _ ⟨⟩, rfl, by rintro _ _ ⟨⟩⟩
        · exact (List.getElem?_set_ne (by omega)).trans h.second
        · have hset := List.getElem?_set_self (a := true) (List.getElem?_eq_some_iff.mp hfresh).1
          cases hclear.symm.trans hset
      · cases hfresh.symm.trans hset
  | freezeOpposing _ hboth => exact absurd hboth h.not_bothInUse
  | thawOpposing _ hboth => exact absurd hboth h.not_bothInUse
  | fits hpc | freeze hpc => exact absurd hpc (h.beside _ _ _)
  | available hpc | notAvailable hpc =>
      have hfrozen := h.frozen
      rw [hpc] at hfrozen
      cases hfrozen
  | thaw hpc => exact absurd hpc (h.thawed _ _)
  | complete _ hphase heffect =>
      have hcounter : s.controller.cmdCounter < 2 := by
        rw [← heffect.cmdCounter]
        exact hcounter
      exact h.complete hwf hcounter hphase heffect
  | processEnd hphase => exact h.setPhase (running_setPhase_ended hphase)
  | notifyAll hphase => exact h.setPhase (running_setPhase_finished hwf.consistent hphase)
  | @wake wait hpc =>
      cases wait with
      | ressource | done => exact h.of_pc (by rintro _ _ _ ⟨⟩) rfl (by rintro _ _ ⟨⟩)
      | frozen =>
          have hfrozen := h.frozen
          rw [hpc] at hfrozen
          cases hfrozen
  | _ => exact h.of_pc (by rintro _ _ _ ⟨⟩) rfl (by rintro _ _ ⟨⟩)

theorem start {machines : List String} {systemConfig : SystemConfig}
    {vmLocations : Vm.VmLocations} {queue : List Job}
    (hslots : systemConfig.slots.length = 2) :
    Calm (start machines systemConfig vmLocations queue) := by
  refine ⟨rfl, ?_, fun _ => not_running_start, by rintro _ _ _ ⟨⟩, rfl, by rintro _ _ ⟨⟩⟩
  rw [TwoApp.start, hslots]
  rfl

/-- The search finds a slot that no job holds. -/
theorem search (h : Calm s) (hwf : WellFormed s) (hcover : FlagsCover s)
    (hcounter : s.controller.cmdCounter < 2) :
    ∃ newSlot < 2, searchSlot s.coConfigInUse (List.range 2) = .ok (some newSlot) ∧
      ∀ p ∈ fullConfig s.controller.machines.length newSlot,
        s.controller.machineUsage.get? p = some none := by
  have hcell : ∀ slot < 2, (∀ j, s.controller.Running j → s.controller.idToConfig[j]? ≠
      some (fullConfig s.controller.machines.length slot)) →
      ∀ p ∈ fullConfig s.controller.machines.length slot,
        s.controller.machineUsage.get? p = some none := by
    intro slot hslot hfree p hp
    obtain ⟨hlt, rfl⟩ := mem_fullConfig.mp hp
    obtain ⟨owner, howner⟩ := Option.isSome_iff_exists.mp
      ((hwf.usage.isSome_iff p).mpr ⟨hlt, hslot⟩)
    cases owner with
    | none => exact howner
    | some j =>
        obtain ⟨hj, config, hrow, hmem⟩ := (hwf.consistent.owner_iff p j).mp howner
        obtain ⟨slot', _, rfl⟩ := hwf.rows config (List.mem_of_getElem? hrow)
        rw [(mem_fullConfig.mp hmem).2] at hfree
        exact absurd hrow (hfree j hj)
  have hsecond := h.second
  have hfirst := h.first
  obtain ⟨first, second, hflags⟩ := List.length_eq_two.mp hwf.inUse
  rw [hflags] at hsecond hfirst ⊢
  cases hsecond
  cases first with
  | false => exact ⟨0, by omega, rfl, hcell 0 (by omega) fun j hj => absurd hj (hfirst rfl j)⟩
  | true =>
      refine ⟨1, by omega, rfl, fun p hp => hcell 1 (by omega) (fun j hj hrow => ?_) p hp⟩
      have hlt := hwf.consistent.running_lt hj
      obtain rfl : j = 0 := by omega
      have hslots := fullConfig_injective (Nat.zero_lt_of_lt (mem_fullConfig.mp hp).1)
        (hcover.firstJob _ hrow)
      omega

end Calm

/-- The callback of a later job never returns. -/
def Late (s : State) : Prop := ∀ id, 2 ≤ id → id < s.controller.cmdCounter → s.controller.Running id

theorem Late.trans {action : Action} (h : Late s) (hwf : WellFormed s)
    (ht : Trans σ s action s') : Late s' := by
  cases ht with
  | select _ _ heffect =>
      intro id hle hlt
      have hid := heffect.id_eq
      have hcounter := heffect.cmdCounter
      change id < Controller.cmdCounter _ at hlt
      rcases Nat.lt_succ_iff_lt_or_eq.mp (hcounter ▸ hlt) with hlt | heq
      · exact (heffect.running_iff id).mpr (.inl (h id hle hlt))
      · exact (heffect.running_iff id).mpr (.inr (heq.trans hid.symm))
  | complete _ _ heffect hid =>
      intro id hle hlt
      rw [hwf.inUse] at hid
      change id < Controller.cmdCounter _ at hlt
      rw [heffect.cmdCounter] at hlt
      exact (heffect.running_iff id).mpr ⟨h id hle hlt, by omega⟩
  | processEnd hphase =>
      exact fun id hle hlt => (running_setPhase_ended hphase id).mpr (h id hle hlt)
  | notifyAll hphase =>
      exact fun id hle hlt =>
        (running_setPhase_finished hwf.consistent hphase id).mpr (h id hle hlt)
  | _ => exact h

theorem reachable_late (hs : (system σ).Reachable s) : Late s := by
  refine hs.invariant ?_ ?_
  · rintro s ⟨_, _, _, _, _, _, rfl⟩ id _ hlt
    cases hlt
  · intro s action s' hs h _ hstep
    exact h.trans (reachable_wellFormed hs) (step_trans hstep)

end Beginning

section Suspended

variable {backend : Backend} {σ : Settings} {s s' : State}

/-- The suspended domains are those the scheduler has frozen now. -/
def FrozenOnly (backend : Backend) (s : State) : Prop :=
  ∀ p, SlotSuspended backend s.controller s.vmLocations s.log p → p ∈ s.frozenSlots

/-- Two slots have different domains. -/
theorem WellFormed.eq_of_domainAt (hwf : WellFormed s)
    (hvms : VmsStarted s.controller.machines backend s.vmLocations) {p q : Cell} {d : Domain}
    (hp : DomainAt backend s.controller s.vmLocations p d)
    (hq : DomainAt backend s.controller s.vmLocations q d) : p = q := by
  obtain ⟨owner, howner, hdomain⟩ := hp
  obtain ⟨owner', howner', hdomain'⟩ := hq
  cases backend with
  | cgroup =>
      obtain ⟨hmachine, rfl⟩ := Domain.cgroup.inj
        (Except.ok.inj (hdomain.trans hdomain'.symm))
      obtain ⟨_, config, hrow, hmem⟩ := (hwf.consistent.owner_iff p owner).mp howner
      obtain ⟨_, config', hrow', hmem'⟩ := (hwf.consistent.owner_iff q owner).mp howner'
      obtain ⟨slot, _, rfl⟩ := hwf.rows config (List.mem_of_getElem? hrow)
      obtain rfl := Option.some_inj.mp (hrow.symm.trans hrow')
      exact Prod.ext hmachine ((mem_fullConfig.mp hmem).2.trans (mem_fullConfig.mp hmem').2.symm)
  | vm =>
      simp only [domainNameFromConfigElem, bind_eq_ok, Grid.read_eq_ok] at hdomain hdomain'
      obtain ⟨name, hname, hdomain⟩ := hdomain
      obtain ⟨name', hname', hdomain'⟩ := hdomain'
      obtain rfl := Domain.vm.inj (Except.ok.inj (hdomain.trans hdomain'.symm))
      exact Vm.cell_eq_of_name hvms.2 hname hname'

namespace FrozenOnly

theorem of_slots (h : FrozenOnly backend s) {pc : Pc} {queue : List Job}
    {distgend : List ℚ}
    (hslots : ({ s with pc := pc, queue := queue, coConfigDistgend := distgend } : State
      ).frozenSlots = s.frozenSlots) :
    FrozenOnly backend
      { s with pc := pc, queue := queue, coConfigDistgend := distgend } := by
  intro p hp
  rw [hslots]
  exact h p hp

theorem suspend (h : FrozenOnly backend s) (hnone : s.frozenSlots = []) (hwf : WellFormed s)
    (hvms : VmsStarted s.controller.machines backend s.vmLocations) {config : ExecuteConfig}
    {messages : List Message} {domains : List Domain}
    (hsend : SendTo .suspend backend s.controller s.vmLocations config domains messages)
    {pc : Pc} (hslots : ({ s with log := s.log ++ messages, pc := pc } : State).frozenSlots =
      config) :
    FrozenOnly backend { s with log := s.log ++ messages, pc := pc } := by
  rintro p ⟨d, hat, hd⟩
  rw [hslots]
  rcases (suspended_append_suspend hsend d).mp hd with hd | ⟨q, hq, hat'⟩
  · have hp := h p ⟨d, hat, hd⟩
    rw [hnone] at hp
    cases hp
  · rwa [hwf.eq_of_domainAt hvms hat hat']

theorem resume (h : FrozenOnly backend s) {config : ExecuteConfig}
    (hconfig : s.frozenSlots = config) {messages : List Message} {domains : List Domain}
    (hsend : SendTo .resume backend s.controller s.vmLocations config domains messages)
    {pc : Pc} : FrozenOnly backend { s with log := s.log ++ messages, pc := pc } := by
  rintro p ⟨d, hat, hd⟩
  obtain ⟨hd, hnone⟩ := (suspended_append_resume hsend d).mp hd
  exact absurd hat (hnone p (hconfig ▸ h p ⟨d, hat, hd⟩))

theorem complete (h : FrozenOnly backend s) {id : Nat} {wait : Wait} {c : Controller}
    {config : ExecuteConfig} (hpc : s.pc = .asleep wait)
    (heffect : CompleteEffect s.controller c id config) {inUse : List Bool}
    {distgend : List ℚ} :
    FrozenOnly backend { s with
      controller := c
      coConfigInUse := inUse
      coConfigDistgend := distgend } := by
  rintro p ⟨d, ⟨owner, howner, hdomain⟩, hd⟩
  have hp := h p ⟨d, ⟨owner, (heffect.owner_before howner).2, hdomain⟩, hd⟩
  rw [State.frozenSlots, hpc] at hp ⊢
  rw [heffect.machines]
  cases wait with
  | ressource | frozen | done => exact hp

theorem trans {action : Action} (h : FrozenOnly σ.backend s) (hwf : WellFormed s)
    (hvms : VmsStarted s.controller.machines σ.backend s.vmLocations)
    (hlog : ∀ job, s.pc = .select job → s.log = []) (ht : Trans σ s action s') :
    FrozenOnly σ.backend s' := by
  cases ht with
  | select hpc =>
      rintro p ⟨d, _, hd⟩
      rw [hlog _ hpc] at hd
      cases hd
  | @freezeOpposing r job id newSlot messages hpc hboth hfreeze =>
      obtain ⟨_, hsend⟩ := freezeOpposing_sendTo (hwf.current id newSlot (by rw [hpc]; rfl)) hfreeze
      exact h.suspend (by rw [State.frozenSlots, hpc]) hwf hvms hsend (if_pos hboth)
  | alone hpc hboth =>
      have hempty : ¬ bothInUse s = .ok true := by rw [hboth]; rintro ⟨⟩
      exact h.of_slots (by rw [State.frozenSlots, State.frozenSlots, hpc]; exact if_neg hempty)
  | runDistgen hpc => exact h.of_slots (by rw [State.frozenSlots, State.frozenSlots, hpc]; rfl)
  | @thawOpposing r job id newSlot messages hpc hboth hthaw =>
      obtain ⟨_, hsend⟩ := thawOpposing_sendTo (hwf.current id newSlot (by rw [hpc]; rfl)) hthaw
      exact h.resume (by rw [State.frozenSlots, hpc]; exact if_pos hboth) hsend
  | stillAlone hpc hboth =>
      have hempty : ¬ bothInUse s = .ok true := by rw [hboth]; rintro ⟨⟩
      exact h.of_slots (by
        rw [State.frozenSlots, State.frozenSlots, hpc]
        exact (if_neg hempty).symm)
  | @freeze r job id newSlot messages hpc hfreeze =>
      obtain ⟨config, _, hrow, hsend⟩ := freeze_sendTo hfreeze
      cases (hwf.current id newSlot (by rw [hpc]; rfl)).symm.trans hrow
      exact h.suspend (by rw [State.frozenSlots, hpc]) hwf hvms hsend rfl
  | @thaw r id newSlot messages hpc hthaw =>
      obtain ⟨config, _, hrow, hsend⟩ := thaw_sendTo hthaw
      cases (hwf.current id newSlot (by rw [hpc]; rfl)).symm.trans hrow
      exact h.resume (by rw [State.frozenSlots, hpc]) hsend
  | @wake wait hpc =>
      cases wait with
      | ressource | frozen | done =>
          exact h.of_slots (by rw [State.frozenSlots, State.frozenSlots, hpc]; rfl)
  | complete hpc _ heffect => exact h.complete hpc heffect
  | processEnd | notifyAll => exact h
  | nextJob hpc | lastJob hpc | ressource hpc | noRessource hpc | fits hpc | available hpc
  | notAvailable hpc | allDone hpc | notDone hpc =>
      exact h.of_slots (by rw [State.frozenSlots, State.frozenSlots, hpc])

end FrozenOnly

end Suspended

theorem maxElement_ok {results : List ℚ} (h : results ≠ []) :
    ∃ result, maxElement results = .ok result := by
  cases results with
  | nil => exact absurd rfl h
  | cons r rest => exact ⟨_, rfl⟩

theorem WellFormed.bothInUse_ok {s : State} (hwf : WellFormed s) :
    ∃ both, bothInUse s = .ok both := by
  obtain ⟨first, second, hflags⟩ := List.length_eq_two.mp hwf.inUse
  rw [bothInUse, hflags]
  cases first with
  | true => exact ⟨second, rfl⟩
  | false => exact ⟨false, rfl⟩

theorem fullConfig_nodup (machines newSlot : Nat) : (fullConfig machines newSlot).Nodup := by
  refine List.Nodup.map ?_ List.nodup_range
  intro m m' h
  exact congrArg Prod.fst h

/-- One answer arrives for every machine. -/
def Answered (s : State) (distgenRes : List ℚ) : Prop :=
  ∀ job id newSlot, s.pc = .runDistgen job id newSlot →
    distgenRes.length = s.controller.machines.length

/-- The measurement returns if every agent answers. -/
theorem runDistgen_ok {σ : Settings} {s : State} (hwf : WellFormed s) (hlaunched : Launched s)
    (hjudged : Judged s) {job : Job} {id newSlot : Nat}
    (hpc : s.pc = .runDistgen job id newSlot) {r : List ℚ}
    (hr : r.length = s.controller.machines.length) :
    ∃ s', scheduleStep σ r s = .ok s' := by
  have hrow := hwf.current id newSlot (by rw [hpc]; rfl)
  have hlt := (hjudged.beside id newSlot (by rw [hpc]; rfl)).1.lt
  have hlength : ((fullConfig s.controller.machines.length newSlot).map opposing).length =
      s.controller.machines.length := by simp [fullConfig]
  have hpos := hlaunched.machines_pos hrow
  have hne : (fullConfig s.controller.machines.length newSlot).map opposing ≠ [] := by
    intro hnil
    rw [hnil] at hlength
    exact absurd hpos (by rw [← hlength]; exact Nat.lt_irrefl 0)
  obtain ⟨result, hresult⟩ := @maxElement_ok r (by
    rintro rfl
    exact absurd hpos (by rw [← hr]; exact Nat.lt_irrefl 0))
  have hstore : store s.coConfigDistgend newSlot result =
      .ok (s.coConfigDistgend.set newSlot result) :=
    store_eq_ok.mpr ⟨hwf.distgend ▸ hlt, rfl⟩
  refine ⟨{ s with
    coConfigDistgend := s.coConfigDistgend.set newSlot result
    pc := .thawOpposing job id newSlot }, ?_⟩
  rw [scheduleStep, hpc]
  simp only
  rw [generateOpposingConfig_ok hrow hwf.slots, bind_of_ok rfl, ensure_of hne, bind_of_ok rfl,
    require_of (hr.trans hlength.symm), bind_of_ok rfl, bind_of_ok hresult, bind_of_ok hstore]

section Progress

variable {backend : Backend} {machines : List String} {systemConfig : SystemConfig}
  {vmLocations : Vm.VmLocations} {jobs : List Job} {s : State}
  (hlaunch : Launchable backend machines systemConfig vmLocations jobs)
  (hrun : Underway machines systemConfig vmLocations jobs s)

include hlaunch hrun

theorem vmsStarted : VmsStarted s.controller.machines backend s.vmLocations := by
  rw [hrun.machines, hrun.vmLocations]
  exact hlaunch.vms

theorem fills (job : Job) (hjob : job ∈ s.pc.pending ++ s.queue) :
    job.FillsSlots s.controller.machines s.controller.systemConfig backend := by
  rw [hrun.machines, hrun.systemConfig]
  refine hlaunch.fits job ?_
  rw [← hrun.jobs]
  exact List.mem_append_right _ hjob

/-- The second job finds its slot, and its command is made up. -/
theorem select_ok (hwf : WellFormed s) (hcover : FlagsCover s) (hcalm : Calm s)
    (hcounter : s.controller.cmdCounter < 2) {job : Job} (hpc : s.pc = .select job)
    (r : List ℚ) : ∃ s', scheduleStep (controllerSettings backend) r s = .ok s' := by
  have hjob := fills hlaunch hrun job (by rw [hpc]; exact List.mem_cons_self)
  obtain ⟨newSlot, hlt, hsearch, hfree⟩ := hcalm.search hwf hcover hcounter
  have hpos : 0 < s.controller.machines.length := by
    have hreq := hjob.positive
    rw [hjob.fits] at hreq
    exact Nat.pos_of_mul_pos_right hreq
  have hlength : (fullConfig s.controller.machines.length newSlot).length =
      s.controller.machines.length := by simp [fullConfig]
  have hne : fullConfig s.controller.machines.length newSlot ≠ [] := by
    intro hnil
    rw [hnil] at hlength
    exact absurd hpos (by rw [← hlength]; exact Nat.lt_irrefl 0)
  obtain ⟨c, id, hexecute⟩ := @execute_ok
    ((controllerSettings backend).generateCommand s.vmLocations) s.controller job _ hne
    (fullConfig_nodup _ _) hfree fun c hmachines hconfig => by
      refine backend.command_ok ?_ (hconfig ▸ hwf.slots) (fun p hp => ?_) ?_ ?_
      · rw [hmachines]
        exact vmsStarted hlaunch hrun
      · obtain ⟨hm, rfl⟩ := mem_fullConfig.mp hp
        exact ⟨hmachines ▸ hm, hlt⟩
      · rw [hlength, hconfig, hjob.fits]
      · rw [hconfig]
        exact hjob.threads
  have hstore : store s.coConfigInUse newSlot true =
      .ok (s.coConfigInUse.set newSlot true) := store_eq_ok.mpr ⟨hwf.inUse ▸ hlt, rfl⟩
  refine ⟨{ s with
    controller := c
    coConfigInUse := s.coConfigInUse.set newSlot true
    pc := .freezeOpposing job id newSlot }, ?_⟩
  rw [scheduleStep, hpc]
  simp only [hwf.slots, hsearch, hstore, hexecute, bind_of_ok rfl]

/-- The scheduler goes on wherever it does not sleep. -/
theorem scheduleStep_ok (hwf : WellFormed s) (hlaunched : Launched s) (hjudged : Judged s)
    (hcalm : s.controller.cmdCounter < 2 → Calm s) (htwo : jobs.length ≤ 2)
    (hawake : ¬ s.LockFree) (hmore : s.pc ≠ .finished) {r : List ℚ} (hr : Answered s r) :
    ∃ s', scheduleStep (controllerSettings backend) r s = .ok s' := by
  have hrows : ∀ row ∈ s.controller.machineUsage,
      row.length = s.controller.systemConfig.slots.length := by
    rw [hwf.slots]
    exact hwf.usage.row_length
  have hvms := vmsStarted hlaunch hrun
  have hrange : ∀ slot < 2, ∀ p ∈ fullConfig s.controller.machines.length slot,
      p.1 < s.controller.machines.length ∧ p.2 < 2 := by
    intro slot hslot p hp
    obtain ⟨hm, rfl⟩ := mem_fullConfig.mp hp
    exact ⟨hm, hslot⟩
  have hslot : ∀ id slot, s.pc.current = some (id, slot) →
      ∀ p ∈ fullConfig s.controller.machines.length slot,
        p.1 < s.controller.machines.length ∧ p.2 < 2 := by
    intro id slot hcurrent
    have hrow := hwf.current id slot hcurrent
    obtain ⟨slot', hlt, heq⟩ := hwf.rows _ (List.mem_of_getElem? hrow)
    rw [heq]
    exact hrange slot' hlt
  obtain ⟨both, hboth⟩ := hwf.bothInUse_ok
  obtain ⟨first, second, hdistgend⟩ := List.length_eq_two.mp hwf.distgend
  cases hpc : s.pc with
  | nextJob =>
      cases hqueue : s.queue with
      | nil =>
          refine ⟨{ s with pc := .done }, ?_⟩
          simp only [scheduleStep, hpc, hqueue]
      | cons job rest =>
          have hjob := fills hlaunch hrun job (by rw [hqueue]; simp)
          refine ⟨{ s with queue := rest, pc := .waitRessource job }, ?_⟩
          simp only [scheduleStep, hpc, hqueue, ensure_of hjob.fits]
          rfl
  | waitRessource job | waitFrozen job id newSlot =>
      obtain ⟨k, hk⟩ := freeCpus_ok hrows 1 0
      have havailable := bind_of_ok (f := fun counter => Except.ok
        (decide (job.reqCpus ≤ counter))) hk
      exact ⟨_, by rw [scheduleStep, hpc]; exact bind_of_ok havailable⟩
  | select job =>
      have hcounter : s.controller.cmdCounter < 2 := by
        have hcount := hrun.counter hwf
        rw [hpc, Pc.pending, List.length_singleton] at hcount
        omega
      exact select_ok hlaunch hrun hwf hjudged.cover (hcalm hcounter) hcounter hpc r
  | freezeOpposing job id newSlot =>
      have hcurrent : s.pc.current = some (id, newSlot) := by rw [hpc]; rfl
      obtain ⟨messages, hmessages⟩ := freezeOpposing_ok hvms hwf.usage
        (hwf.current id newSlot hcurrent) (hslot id newSlot hcurrent) hwf.slots
      rw [scheduleStep, hpc]
      simp only [hboth, bind_of_ok rfl]
      cases both with
      | true => exact ⟨_, bind_of_ok hmessages⟩
      | false => exact ⟨_, rfl⟩
  | runDistgen job id newSlot => exact runDistgen_ok hwf hlaunched hjudged hpc (hr _ _ _ hpc)
  | thawOpposing job id newSlot =>
      have hcurrent : s.pc.current = some (id, newSlot) := by rw [hpc]; rfl
      obtain ⟨messages, hmessages⟩ := thawOpposing_ok hvms hwf.usage
        (hwf.current id newSlot hcurrent) (hslot id newSlot hcurrent) hwf.slots
      rw [scheduleStep, hpc]
      simp only [hboth, bind_of_ok rfl]
      cases both with
      | true => exact ⟨_, bind_of_ok hmessages⟩
      | false => exact ⟨_, rfl⟩
  | estimate job id newSlot =>
      have hcurrent : s.pc.current = some (id, newSlot) := by rw [hpc]; rfl
      obtain ⟨messages, hmessages⟩ := freeze_ok hvms hwf.usage
        (hwf.current id newSlot hcurrent) (hslot id newSlot hcurrent)
      have hfirst : fetch s.coConfigDistgend 0 = .ok first := by rw [hdistgend]; rfl
      have hsecond : fetch s.coConfigDistgend 1 = .ok second := by rw [hdistgend]; rfl
      rw [scheduleStep, hpc]
      simp only [hfirst, hsecond, bind_of_ok rfl]
      split
      · exact ⟨_, bind_of_ok hmessages⟩
      · exact ⟨_, rfl⟩
  | thaw id newSlot =>
      have hcurrent : s.pc.current = some (id, newSlot) := by rw [hpc]; rfl
      obtain ⟨messages, hmessages⟩ := thaw_ok hvms hwf.usage
        (hwf.current id newSlot hcurrent) (hslot id newSlot hcurrent)
      exact ⟨_, by rw [scheduleStep, hpc]; exact bind_of_ok hmessages⟩
  | done =>
      obtain ⟨free, hfree⟩ := allFree_ok hrows
      exact ⟨_, by rw [scheduleStep, hpc]; exact bind_of_ok hfree⟩
  | asleep wait => exact absurd ⟨wait, hpc⟩ hawake
  | finished => exact absurd hpc hmore

end Progress

section Waiting

variable {s : State}

/-- One job at most leaves room for another one. -/
theorem WellFormed.room (hwf : WellFormed s)
    (hone : ∀ j k, s.controller.Running j → s.controller.Running k → j = k) :
    ∀ row ∈ s.controller.machineUsage,
      ∃ slot < s.controller.systemConfig.slots.length, row[slot]? = some none := by
  intro row hrow
  rw [hwf.slots]
  obtain ⟨m, hm⟩ := List.mem_iff_getElem?.mp hrow
  obtain ⟨first, second, rfl⟩ := List.length_eq_two.mp (hwf.usage.row_length row hrow)
  cases first with
  | none => exact ⟨0, by omega, rfl⟩
  | some j =>
      cases second with
      | none => exact ⟨1, by omega, rfl⟩
      | some k =>
          have hj := (hwf.consistent.owner_iff (m, 0) j).mp (by rw [Grid.get?_of_row hm]; rfl)
          have hk := (hwf.consistent.owner_iff (m, 1) k).mp (by rw [Grid.get?_of_row hm]; rfl)
          obtain ⟨hj, config, hconfig, hmem⟩ := hj
          obtain ⟨hk, config', hconfig', hmem'⟩ := hk
          obtain rfl := hone j k hj hk
          obtain rfl := Option.some_inj.mp (hconfig.symm.trans hconfig')
          obtain ⟨slot, _, rfl⟩ := hwf.rows config (List.mem_of_getElem? hconfig)
          have hzero := (mem_fullConfig.mp hmem).2
          have hone := (mem_fullConfig.mp hmem').2
          omega

theorem WellFormed.available (hwf : WellFormed s) (hfull : FullMachines s)
    (hone : ∀ j k, s.controller.Running j → s.controller.Running k → j = k) {job : Job}
    (hjob : s.pc.job = some job) : s.controller.ressourceAvailable job.reqCpus 1 = .ok true := by
  have hcount := freeCpus_of_room (by rw [hwf.slots]; exact hwf.usage.row_length)
    (hwf.room hone) 0
  rw [ressourceAvailable, bind_of_ok hcount, hfull job hjob, hwf.usage.1, Nat.zero_add,
    decide_eq_true le_rfl]

end Waiting

section Launch

variable {backend : Backend} {machines : List String} {systemConfig : SystemConfig}
  {vmLocations : Vm.VmLocations} {jobs : List Job} {s : State × Bool}

theorem launch_runs
    (hs : (launch backend machines systemConfig vmLocations jobs).Reachable s) :
    ((system (controllerSettings backend)).startingAt
      (start machines systemConfig vmLocations jobs)).Reachable s.1 :=
  @restrict_reachable _ _ _ (notStopped backend) _ (notified_startingAt hs)

theorem launch_underway
    (hs : (launch backend machines systemConfig vmLocations jobs).Reachable s) :
    Underway machines systemConfig vmLocations jobs s.1 := by
  refine (launch_runs hs).invariant (P := Underway machines systemConfig vmLocations jobs) ?_ ?_
  · rintro t rfl
    exact ⟨rfl, rfl, rfl, rfl, by rintro ⟨⟩⟩
  · intro t action t' _ h _ hstep
    exact h.trans (step_trans hstep)

theorem launch_jobsDone
    (hs : (launch backend machines systemConfig vmLocations jobs).Reachable s)
    (hreturned : s.1.pc = .finished) :
    ∃ completed, JobQueue.JobsDone jobs s.1.controller completed := by
  obtain ⟨completed, hcompleted⟩ :=
    @ReachableVia.exists_history _ _ _ _ [] completions _ _ (launch_runs hs)
  have hclient := (jobRuns_refines (controllerSettings backend) machines systemConfig
    vmLocations jobs).reachable hcompleted
  exact ⟨completed, (JobQueue.reachable_accounted hclient).jobsDone (decide_eq_true hreturned)⟩

theorem step_of_stuck (hstuck : (launch backend machines systemConfig vmLocations jobs).Stuck s)
    {action : Action} {t : State} (hstep : step (controllerSettings backend) s.1 action = .ok t)
    (hgoes : notStopped backend s.1 action = true) :
    sleeper.wakes action = true ∧ s.2 = false :=
  notified_step_none (hstuck action) (restrict_step.mpr ⟨hgoes, hstep⟩)

variable (hlaunch : Launchable backend machines systemConfig vmLocations jobs)
  (hs : (launch backend machines systemConfig vmLocations jobs).Reachable s)

include hlaunch hs

theorem launch_notified : (((system (controllerSettings backend)).restrict
    (notStopped backend)).notified sleeper).Reachable s := by
  have hinit : (((system (controllerSettings backend)).restrict
      (notStopped backend)).notified sleeper).Init
      (start machines systemConfig vmLocations jobs, false) :=
    ⟨⟨machines, systemConfig, vmLocations, jobs, hlaunch.slots, hlaunch.vms, rfl⟩, rfl⟩
  exact ReachableVia.append (.init hinit) hs

theorem launch_reachable : (system (controllerSettings backend)).Reachable s.1 :=
  restrict_reachable (notified_reachable (launch_notified hlaunch hs))

theorem launch_wellFormed : WellFormed s.1 := reachable_wellFormed (launch_reachable hlaunch hs)

theorem launch_calm (hcounter : s.1.controller.cmdCounter < 2) : Calm s.1 := by
  refine (launch_runs hs).invariant
    (P := fun s => s.controller.cmdCounter < 2 → Calm s) ?_ ?_ hcounter
  · rintro t rfl _
    exact .start hlaunch.slots
  · intro t action t' ht h _ hstep hcounter
    have hreach : (system (controllerSettings backend)).Reachable t :=
      ReachableVia.append (.init ⟨machines, systemConfig, vmLocations, jobs, hlaunch.slots,
        hlaunch.vms, rfl⟩) ht
    have hle := (step_trans hstep).cmdCounter_le
    exact (h (by omega)).trans (reachable_wellFormed hreach) (reachable_judged hreach).cover
      hcounter hstep

theorem launch_frozenOnly (htwo : jobs.length ≤ 2) : FrozenOnly backend s.1 := by
  refine hs.invariant (P := fun s => FrozenOnly backend s.1) ?_ ?_
  · rintro t rfl p ⟨d, _, hd⟩
    cases hd
  · intro t action t' ht h _ hstep
    have hwf := launch_wellFormed hlaunch ht
    have hrun := launch_underway ht
    have hstep := (restrict_step.mp (notified_step hstep).2.1).2
    refine @FrozenOnly.trans (controllerSettings backend) t.1 t'.1 action h hwf
      (vmsStarted hlaunch hrun) (fun job hpc => ?_) (step_trans hstep)
    have hcount := hrun.counter hwf
    rw [hpc, Pc.pending, List.length_singleton] at hcount
    exact (launch_calm hlaunch ht (by omega)).log

/-- The scheduler goes on, and a measurement waits for one answer from every machine. -/
theorem launch_schedules (htwo : jobs.length ≤ 2) (hawake : ¬ s.1.LockFree)
    (hmore : s.1.pc ≠ .finished) {r : List ℚ} (hr : Answered s.1 r) :
    ∃ s', scheduleStep (controllerSettings backend) r s.1 = .ok s' :=
  have hreach := launch_reachable hlaunch hs
  scheduleStep_ok hlaunch (launch_underway hs) (launch_wellFormed hlaunch hs)
    (reachable_launched hreach) (reachable_judged hreach) (launch_calm hlaunch hs) htwo hawake
    hmore hr

/-- The callbacks of the first two jobs clear flags that exist. -/
theorem launch_completes (htwo : jobs.length ≤ 2) (hfree : s.1.LockFree) {id : Nat}
    (hphase : InPhase s.1.controller id .ended) :
    ∃ s', step (controllerSettings backend) s.1 (.complete id) = .ok s' := by
  have hwf := launch_wellFormed hlaunch hs
  have hid := running_of_inPhase hphase (.inr rfl)
  have hlt : id < 2 := by
    have hcount := (launch_underway hs).counter hwf
    have := hwf.consistent.running_lt hid
    omega
  obtain ⟨c, hcomplete⟩ := executeCommandInternal_ok hwf.consistent hid
  have hflag : store s.1.coConfigInUse id false = .ok (s.1.coConfigInUse.set id false) :=
    store_eq_ok.mpr ⟨hwf.inUse ▸ hlt, rfl⟩
  have hdistgend : store s.1.coConfigDistgend id 0 = .ok (s.1.coConfigDistgend.set id 0) :=
    store_eq_ok.mpr ⟨hwf.distgend ▸ hlt, rfl⟩
  refine ⟨{ s.1 with
    controller := c
    coConfigInUse := s.1.coConfigInUse.set id false
    coConfigDistgend := s.1.coConfigDistgend.set id 0 }, ?_⟩
  rw [step, require_of hfree, bind_of_ok rfl, completeStep, require_of hphase, bind_of_ok rfl,
    bind_of_ok hcomplete, commandDone, bind_of_ok hflag, bind_of_ok hdistgend]

/-- Only steps that are not enabled fail. -/
theorem launch_fault (htwo : jobs.length ≤ 2) {action : Action} {fault : Fault}
    (h : step (controllerSettings backend) s.1 action = .error fault) : fault = .disabled := by
  have hrequire : ∀ {p : Prop} [Decidable p] {f : Fault}, require p = .error f →
      f = .disabled := by
    intro p _ f h
    rw [require] at h
    split at h <;> cases h
    rfl
  cases action with
  | schedule r =>
      rcases Classical.em s.1.LockFree with ⟨wait, hwait⟩ | hawake
      · simp only [step, scheduleStep, hwait] at h
        cases h
        rfl
      · rcases eq_or_ne s.1.pc .finished with hpc | hpc
        · simp only [step, scheduleStep, hpc] at h
          cases h
          rfl
        · rcases Classical.em (Answered s.1 r) with hr | hr
          · obtain ⟨s', hs'⟩ := launch_schedules hlaunch hs htwo hawake hpc hr
            cases hs'.symm.trans h
          · simp only [Answered, not_forall] at hr
            obtain ⟨job, id, newSlot, hrun, hlength⟩ := hr
            have hwf := launch_wellFormed hlaunch hs
            have hrow := hwf.current id newSlot (by rw [hrun]; rfl)
            have hconfig : ((fullConfig s.1.controller.machines.length newSlot).map
                opposing).length = s.1.controller.machines.length := by simp [fullConfig]
            have hne : (fullConfig s.1.controller.machines.length newSlot).map opposing ≠ [] := by
              have hnonempty := reachable_launched (launch_reachable hlaunch hs) _
                (List.mem_of_getElem? hrow)
              simpa using hnonempty
            rw [step, scheduleStep, hrun] at h
            simp only at h
            rw [generateOpposingConfig_ok hrow hwf.slots, bind_of_ok rfl, ensure_of hne,
              bind_of_ok rfl] at h
            rcases bind_eq_error.mp h with h | ⟨_, hlength', _⟩
            · exact hrequire h
            · exact absurd ((require_eq_ok.mp hlength').trans hconfig) hlength
  | wake =>
      simp only [step, wakeStep] at h
      split at h <;> cases h
      rfl
  | processEnd id | notifyAll id =>
      rcases bind_eq_error.mp h with h | ⟨_, _, h⟩
      · exact hrequire h
      · cases h
  | complete id =>
      rcases Classical.em (s.1.LockFree ∧ InPhase s.1.controller id .ended) with
        ⟨hfree, hphase⟩ | hnot
      · obtain ⟨s', hs'⟩ := launch_completes hlaunch hs htwo hfree hphase
        cases hs'.symm.trans h
      · rcases bind_eq_error.mp h with h | ⟨_, hfree, h⟩
        · exact hrequire h
        · rcases bind_eq_error.mp h with h | ⟨_, hphase, h⟩
          · exact hrequire h
          · exact absurd ⟨require_eq_ok.mp hfree, require_eq_ok.mp hphase⟩ hnot

/-- A job that cannot end holds a slot that is frozen. -/
theorem frozen_of_stopped (htwo : jobs.length ≤ 2) {id : Nat} (hid : s.1.controller.Running id)
    (hstopped : notStopped backend s.1 (.processEnd id) = false) :
    ∃ config p, s.1.controller.idToConfig[id]? = some config ∧ p ∈ config ∧
      p ∈ s.1.frozenSlots := by
  have hwf := launch_wellFormed hlaunch hs
  obtain ⟨p, d, howner, hdomain, hd⟩ := hwf.consistent.stopped hid hstopped
  obtain ⟨_, config, hrow, hp⟩ := (hwf.consistent.owner_iff p id).mp howner
  exact ⟨config, p, hrow, hp,
    launch_frozenOnly hlaunch hs htwo p ⟨d, ⟨id, howner, hdomain⟩, hd⟩⟩

/-- Where only suspended jobs run, nothing is left to wait for. -/
theorem waitOver_of_stopped (htwo : jobs.length ≤ 2) (hasleep : s.1.LockFree)
    (hstopped : ∀ id, s.1.controller.Running id →
      notStopped backend s.1 (.processEnd id) = false) : WaitOver s.1 := by
  have hwf := launch_wellFormed hlaunch hs
  have hreach := launch_reachable hlaunch hs
  have hfull := reachable_fullMachines hreach
  obtain ⟨wait, hwait⟩ := hasleep
  refine ⟨wait, hwait, ?_⟩
  have hidle : s.1.frozenSlots = [] → ∀ id, ¬ s.1.controller.Running id := by
    intro hnone id hid
    obtain ⟨_, p, _, _, hp⟩ := frozen_of_stopped hlaunch hs htwo hid (hstopped id hid)
    rw [hnone] at hp
    cases hp
  cases wait with
  | ressource job =>
      have hnone := hidle (by rw [State.frozenSlots, hwait])
      exact hwf.available hfull (fun j _ hj => absurd hj (hnone j)) (by rw [hwait]; rfl)
  | frozen job id newSlot =>
      -- all running jobs hold the frozen slot
      refine hwf.available hfull (fun j k hj hk => ?_) (by rw [hwait]; rfl)
      have hslot : ∀ i, s.1.controller.Running i → s.1.controller.idToConfig[i]? =
          some (fullConfig s.1.controller.machines.length newSlot) := by
        intro i hi
        obtain ⟨config, p, hrow, hp, hfrozen⟩ :=
          frozen_of_stopped hlaunch hs htwo hi (hstopped i hi)
        rw [State.frozenSlots, hwait] at hfrozen
        obtain ⟨slot, _, rfl⟩ := hwf.rows config (List.mem_of_getElem? hrow)
        rw [hrow, ← (mem_fullConfig.mp hp).2, (mem_fullConfig.mp hfrozen).2]
      exact (reachable_launched hreach).eq_of_slot hwf hj hk (hslot j hj) (hslot k hk)
  | done =>
      have hnone := hidle (by rw [State.frozenSlots, hwait])
      have husage := hwf.consistent.usage_of_idle hwf.usage hnone
      refine allFree_of_free fun row hrow slot hslot => ?_
      rw [husage] at hrow
      rw [hwf.slots] at hslot
      rw [(List.mem_replicate.mp hrow).2]
      rcases (show slot = 0 ∨ slot = 1 by omega) with rfl | rfl <;> rfl

theorem threads_of_stuck (htwo : jobs.length ≤ 2)
    (hstuck : (launch backend machines systemConfig vmLocations jobs).Stuck s) :
    ThreadsStopped s.1.controller s.1.LockFree
      fun id => notStopped backend s.1 (.processEnd id) := by
  refine ⟨fun id hid hfree => ?_, fun id hid => ?_, fun id hid => ?_⟩
  · obtain ⟨t, ht⟩ := launch_completes hlaunch hs htwo hfree hid
    cases (step_of_stuck hstuck ht rfl).1
  · have hstep : step (controllerSettings backend) s.1 (.notifyAll id) =
        .ok { s.1 with controller := s.1.controller.setPhase id .finished } := by
      rw [step, require_of hid, bind_of_ok rfl]
    cases (step_of_stuck hstuck hstep rfl).1
  · have hstep : step (controllerSettings backend) s.1 (.processEnd id) =
        .ok { s.1 with controller := s.1.controller.setPhase id .ended } := by
      rw [step, require_of hid, bind_of_ok rfl]
    by_contra hgoes
    cases (step_of_stuck hstuck hstep (by simpa using hgoes)).1

/-- Only a run that is over is stuck. -/
theorem launch_ended (htwo : jobs.length ≤ 2)
    (hstuck : (launch backend machines systemConfig vmLocations jobs).Stuck s) :
    Ended jobs s := by
  have hthreads := threads_of_stuck hlaunch hs htwo hstuck
  have hreturned : s.1.pc = .finished := by
    by_contra hmore
    have hasleep : s.1.LockFree := by
      by_contra hawake
      obtain ⟨t, ht⟩ := launch_schedules hlaunch hs htwo hawake hmore
        (r := List.replicate s.1.controller.machines.length 0)
        fun _ _ _ _ => List.length_replicate
      have hstep : step (controllerSettings backend) s.1 (.schedule _) = .ok t := ht
      cases (step_of_stuck hstuck hstep rfl).1
    have hover := waitOver_of_stopped hlaunch hs htwo hasleep fun id hid =>
      hthreads.of_running hasleep hid
    rcases (sleeper_served.restrict).ready (launch_notified hlaunch hs) (decide_eq_true hasleep)
      hover with hflag | ⟨id, hnotifying⟩
    · obtain ⟨wait, hwait⟩ := hasleep
      have hwake : step (controllerSettings backend) s.1 .wake =
          .ok { s.1 with pc := wait.resume } := by
        simp only [step, wakeStep, hwait]
      rw [(step_of_stuck hstuck hwake rfl).2] at hflag
      cases hflag
    · exact hthreads.notifying id hnotifying
  obtain ⟨completed, hcompleted⟩ := launch_jobsDone hs hreturned
  exact ⟨hreturned, hthreads.finished hcompleted.ended, completed, hcompleted⟩

theorem launch_not_ended (hthree : 2 < jobs.length) : ¬ Ended jobs s := by
  rintro ⟨_, _, completed, hdone⟩
  have hwf := launch_wellFormed hlaunch hs
  have hcounter : s.1.controller.cmdCounter = jobs.length := by
    rw [← hwf.consistent.jobs_length, hdone.executed]
  exact hdone.ended 2 (reachable_late (launch_reachable hlaunch hs) 2 le_rfl (by omega))

end Launch

end TwoApp

open Poncos.Library.Execution
open Poncos.Library.Transition
open Poncos.Library.Transition.System

/-- Every run of the two-app scheduler stops after a number of steps that is linear in
the jobs, whatever the order in which the threads go on.  It has then done every job if
there were at most two of them, and then no check fails on the way; with three jobs or
more it never has. -/
theorem twoApp_terminates {backend : Backend} {machines : List String}
    {systemConfig : SystemConfig} {vmLocations : Vm.VmLocations} {jobs : List Job}
    (hlaunch : TwoApp.Launchable backend machines systemConfig vmLocations jobs) :
    (TwoApp.launch backend machines systemConfig vmLocations jobs).Terminates
      (15 * jobs.length + 3) (fun s => TwoApp.Ended jobs s ↔ jobs.length ≤ 2) ∧
    (jobs.length ≤ 2 → ∀ s action fault,
      (TwoApp.launch backend machines systemConfig vmLocations jobs).Reachable s →
      TwoApp.step (TwoApp.controllerSettings backend) s.1 action = .error fault →
        fault = .disabled) := by
  refine ⟨?_, fun htwo s action fault hs hfault => ?_⟩
  · refine @Lowers.terminates _ _ _ TwoApp.rank ?_ _ _ ?_ ?_
    · intro s action s' hs hstep
      exact TwoApp.notified_lowers _ _ s action s' (TwoApp.launch_notified hlaunch hs) hstep
    · rintro s rfl
      simp [TwoApp.rank, TwoApp.State.rank, TwoApp.start, TwoApp.Pc.rank,
        Controller.threadRank, Controller.create]
    · intro s hs hstuck
      refine ⟨fun hended => ?_, fun htwo => TwoApp.launch_ended hlaunch hs htwo hstuck⟩
      by_contra hmore
      exact TwoApp.launch_not_ended hlaunch hs (by omega) hended
  · exact TwoApp.launch_fault hlaunch hs htwo hfault

/-- The second of two jobs is frozen, and gets its turn. -/
theorem twoApp_terminates_frozenJob : ∃ s : TwoApp.State × Bool,
    s.1.pc = .asleep (.frozen ⟨1, 1, "y", false⟩ 1 1) ∧
    ∃ t, ((TwoApp.launch .cgroup ["a"] ⟨[⟨[0], []⟩, ⟨[1], []⟩]⟩ []
        [⟨1, 1, "x", false⟩, ⟨1, 1, "y", false⟩]).startingAt s).Reachable t ∧
      TwoApp.Ended [⟨1, 1, "x", false⟩, ⟨1, 1, "y", false⟩] t := by
  have hlaunch : TwoApp.Launchable .cgroup ["a"] ⟨[⟨[0], []⟩, ⟨[1], []⟩]⟩ []
      [⟨1, 1, "x", false⟩, ⟨1, 1, "y", false⟩] := by
    refine ⟨rfl, rfl, fun job hjob => ?_⟩
    rcases List.mem_pair.mp hjob with rfl | rfl
    · exact ⟨by decide, by decide, fun _ => by decide⟩
    · exact ⟨by decide, by decide, fun _ => by decide⟩
  have hrun : ((TwoApp.launch .cgroup ["a"] ⟨[⟨[0], []⟩, ⟨[1], []⟩]⟩ []
      [⟨1, 1, "x", false⟩, ⟨1, 1, "y", false⟩]).run
      (TwoApp.start ["a"] ⟨[⟨[0], []⟩, ⟨[1], []⟩]⟩ []
        [⟨1, 1, "x", false⟩, ⟨1, 1, "y", false⟩], false)
      (TwoApp.placeJob [1 / 10] ++ TwoApp.placeJob [1 / 10] ++
        [.schedule [], .schedule []])).map (fun s => s.1.pc) =
      .ok (.asleep (.frozen ⟨1, 1, "y", false⟩ 1 1)) := by
    decide +kernel
  obtain ⟨s, hrun, hpc⟩ := map_eq_ok.mp hrun
  have hs := System.run_reachable (fun _ _ => trivial) (.init rfl) hrun
  obtain ⟨t, ht, _, hended⟩ := (twoApp_terminates hlaunch).1.completes s hs
  exact ⟨s, hpc, t, ht, hended.mpr (by decide)⟩

end Poncos
