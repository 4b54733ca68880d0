import Poncos.Library.Termination
import Poncos.Schedulers.Progress
import Poncos.Schedulers.WakeUps

/-!
The consecutive scheduler comes to an end.  Every step of the scheduler or of a job
lowers a rank, and a notification pays for the one pass through the wait that it can
cause; no step fails, and only a run that is done is stuck.
-/

namespace Poncos

open Poncos.Library
open Poncos.Library.Execution
open Poncos.Library.Transition
open Poncos.Library.Transition.System
open Poncos.Controller

/-- A job that a slot can take and that fits the cluster, so that no check of the
scheduler and none of the command stops it. -/
structure Job.Fits (job : Job) (machines : List String) (systemConfig : SystemConfig)
    (backend : Backend) : Prop where
  positive : 0 < job.reqCpus
  fits : job.reqCpus ≤ machines.length * systemConfig.slotSize * 2
  threads : backend = .cgroup →
    job.threadsPerProc ≠ 0 ∧ systemConfig.slotSize % job.threadsPerProc = 0

theorem ressourceAvailable_of_idle {c : Controller} {rows requested : Nat}
    (hslots : c.systemConfig.slots.length = 2)
    (husage : c.machineUsage = List.replicate rows [none, none])
    (hfits : requested ≤ rows * (2 * c.systemConfig.slotSize)) :
    c.ressourceAvailable requested 2 = .ok true := by
  have hrows : ∀ row ∈ c.machineUsage, row.length = c.systemConfig.slots.length := by
    rw [husage, hslots]
    intro row hrow
    rw [(List.mem_replicate.mp hrow).2]
    rfl
  have huniform : MultiAppConsec.Uniform c.machineUsage := by
    rw [husage]
    exact fun row hrow => ⟨none, (List.mem_replicate.mp hrow).2⟩
  obtain ⟨k, hk⟩ := freeCpus_ok hrows 2 0
  have hnodes : MultiAppConsec.freeNodes c.machineUsage = rows := by
    rw [husage, MultiAppConsec.freeNodes, List.countP_replicate, if_pos (by decide)]
  have hcount := MultiAppConsec.freeCpus_uniform hslots huniform hk
  rw [hnodes, Nat.zero_add] at hcount
  rw [ressourceAvailable, bind_of_ok hk, hcount, decide_eq_true hfits]

namespace MultiAppConsec

/-- The scheduler under one of the two controllers. -/
def controllerSettings : Backend → Settings
  | .cgroup => cgroupSettings
  | .vm => ⟨.vm, Vm.generateCommand⟩

theorem controllerSettings_backend (backend : Backend) :
    (controllerSettings backend).backend = backend := by
  cases backend <;> rfl

theorem controllerSettings_generateCommand (backend : Backend) :
    (controllerSettings backend).generateCommand = backend.generateCommand := by
  cases backend <;> rfl

def Pc.rank : Pc → Nat
  | .nextJob => 3
  | .waitRessource _ => 12
  | .select _ => 11
  | .asleep (.ressource _) => 10
  | .done => 2
  | .asleep .done => 0
  | .finished => 0

def State.rank (s : State) : Nat :=
  s.controller.threadRank 0 + 10 * s.queue.length + s.pc.rank

/-- Every step but a wake-up lowers the rank, and a notification pays for the wake-up
that it may cause. -/
theorem Trans.rank {σ : Settings} {s s' : State} {action : Action} (ht : Trans σ s action s')
    (hc : s.controller.Consistent) :
    s'.rank + (if sleeper.notifies action then 4 else 1) ≤
      s.rank + if sleeper.wakes action then 3 else 0 := by
  cases ht with
  | nextJob hpc hqueue =>
      simp [State.rank, Pc.rank, sleeper, hpc, hqueue]
      omega
  | select hpc _ heffect =>
      simp [State.rank, Pc.rank, sleeper, hpc, heffect.threadRank]
      omega
  | @wake wait hpc =>
      cases wait <;> simp [State.rank, Pc.rank, Wait.resume, sleeper, hpc]
  | processEnd hphase =>
      have := @threadRank_setPhase 0 _ hc _ _ .ended hphase
      simp [State.rank, sleeper, Phase.rank] at this ⊢
      omega
  | complete _ hphase heffect =>
      have := @threadRank_setPhase 0 _ hc _ _ .notifying hphase
      simp [State.rank, sleeper, heffect.threadRank, Phase.rank] at this ⊢
      omega
  | notifyAll hphase =>
      have := @threadRank_setPhase 0 _ hc _ _ .finished hphase
      simp [State.rank, sleeper, Phase.rank] at this ⊢
      omega
  | lastJob hpc | ressource hpc | noRessource hpc | allDone hpc | notDone hpc =>
      simp [State.rank, Pc.rank, sleeper, hpc]

/-- A bound on the steps that are left. -/
def rank (s : State × Bool) : Nat := s.1.rank + if s.2 then 3 else 0

theorem notified_lowers (σ : Settings) : ((system σ).notified sleeper).Lowers rank := by
  intro s action s' hs hstep
  have hc := (reachable_wellFormed (notified_reachable hs)).consistent
  have hnotifies : sleeper.wakes action = true → sleeper.notifies action = false := by
    cases action <;> simp [sleeper]
  exact @notified_rank_lt _ _ _ _ _ _ _ State.rank 3 hnotifies
    (fun t ht => (step_trans ht).rank hc) hstep

/-- What a run starts from: two slots on every machine, VMs where they are needed, and
jobs that fit. -/
structure Launchable (backend : Backend) (machines : List String) (systemConfig : SystemConfig)
    (vmLocations : Vm.VmLocations) (jobs : List Job) : Prop where
  slots : systemConfig.slots.length = 2
  vms : VmsStarted machines backend vmLocations
  fits : ∀ job ∈ jobs, job.Fits machines systemConfig backend

/-- What a run leaves as it was. -/
structure Underway (machines : List String) (systemConfig : SystemConfig)
    (vmLocations : Vm.VmLocations) (jobs : List Job) (s : State) : Prop where
  machines : s.controller.machines = machines
  systemConfig : s.controller.systemConfig = systemConfig
  vmLocations : s.vmLocations = vmLocations
  pending : ∀ job ∈ s.pc.pending ++ s.queue, job ∈ jobs

theorem Underway.trans {σ : Settings} {machines : List String} {systemConfig : SystemConfig}
    {vmLocations : Vm.VmLocations} {jobs : List Job} {s s' : State} {action : Action}
    (h : Underway machines systemConfig vmLocations jobs s) (ht : Trans σ s action s') :
    Underway machines systemConfig vmLocations jobs s' := by
  obtain ⟨hmachines, hconfig, hvms, hpending⟩ := h
  cases ht with
  | nextJob hpc hqueue =>
      exact ⟨hmachines, hconfig, hvms, by simpa [hpc, hqueue, Pc.pending] using hpending⟩
  | select hpc _ heffect =>
      refine ⟨heffect.machines.trans hmachines, heffect.systemConfig.trans hconfig, hvms, ?_⟩
      exact fun job hjob =>
        hpending job (List.mem_append_right _ (by simpa [Pc.pending] using hjob))
  | complete hpc _ heffect =>
      exact ⟨heffect.machines.trans hmachines, heffect.systemConfig.trans hconfig, hvms, hpending⟩
  | @wake wait hpc =>
      refine ⟨hmachines, hconfig, hvms, ?_⟩
      cases wait <;> simpa [hpc, Wait.resume, Pc.pending] using hpending
  | processEnd | notifyAll => exact ⟨hmachines, hconfig, hvms, hpending⟩
  | lastJob hpc | ressource hpc | noRessource hpc | allDone hpc | notDone hpc =>
      exact ⟨hmachines, hconfig, hvms, by simpa [hpc, Pc.pending] using hpending⟩

theorem free_nodes {usage : MachineUsage} {taken : List Nat}
    (h : ∀ m ∈ taken, usage[m]? = some [none, none]) :
    ∀ p ∈ nodes taken, usage.get? p = some none := by
  rintro ⟨m, s⟩ hp
  obtain ⟨hm, hs⟩ := mem_nodes.mp hp
  rw [Grid.get?_of_row (h m hm)]
  rcases (show s = 0 ∨ s = 1 by simp only at hs; omega) with rfl | rfl <;> rfl

section Progress

variable {backend : Backend} {machines : List String} {systemConfig : SystemConfig}
  {vmLocations : Vm.VmLocations} {jobs : List Job} {s : State}
  (hlaunch : Launchable backend machines systemConfig vmLocations jobs)
  (hrun : Underway machines systemConfig vmLocations jobs s)

include hlaunch hrun

theorem command_ok {c : Controller} {job : Job} {counter : Nat} {config : ExecuteConfig}
    (hjob : job ∈ jobs) (hmachines : c.machines = machines)
    (hconfig : c.systemConfig = systemConfig)
    (hrange : ∀ p ∈ config, p.1 < machines.length ∧ p.2 < 2)
    (hgranted : job.reqCpus ≤ config.length * systemConfig.slotSize) :
    ∃ command, (controllerSettings backend).generateCommand s.vmLocations c job counter config =
      .ok command := by
  rw [controllerSettings_generateCommand, hrun.vmLocations]
  subst hmachines hconfig
  exact backend.command_ok hlaunch.vms hlaunch.slots hrange hgranted
    (hlaunch.fits job hjob).threads

/-- The scheduler goes on wherever it does not sleep. -/
theorem scheduleStep_ok (hwf : WellFormed s) (hnodes : ExclusiveNodes s)
    (hawake : ¬ s.LockFree) (hmore : s.pc ≠ .finished) :
    ∃ s', scheduleStep (controllerSettings backend) s = .ok s' := by
  have hrows : ∀ row ∈ s.controller.machineUsage,
      row.length = s.controller.systemConfig.slots.length := by
    rw [hwf.slots]
    exact hwf.usage.row_length
  cases hpc : s.pc with
  | nextJob =>
      cases hqueue : s.queue with
      | nil =>
          refine ⟨{ s with pc := .done }, ?_⟩
          simp only [scheduleStep, hpc, hqueue]
      | cons job rest =>
          have hjob := hrun.pending job (by rw [hqueue]; simp)
          have hfits := (hlaunch.fits job hjob).fits
          rw [← hrun.machines, ← hrun.systemConfig, ← hwf.slots] at hfits
          refine ⟨{ s with queue := rest, pc := .waitRessource job }, ?_⟩
          simp only [scheduleStep, hpc, hqueue, ensure_of hfits]
          rfl
  | waitRessource job =>
      obtain ⟨k, hk⟩ := freeCpus_ok hrows s.controller.systemConfig.slots.length 0
      have havailable := bind_of_ok (f := fun counter => Except.ok
        (decide (job.reqCpus ≤ counter))) hk
      exact ⟨_, by rw [scheduleStep, hpc]; exact bind_of_ok havailable⟩
  | select job =>
      obtain ⟨taken, hselect, hnodup, hfree, hgranted, _⟩ := hnodes.selection job hpc
      have hjob := hrun.pending job (by rw [hpc]; exact List.mem_cons_self)
      have hslots := free_nodes hfree
      have hne : nodes taken ≠ [] := by
        intro hnil
        rw [hnil, List.length_nil, Nat.zero_mul] at hgranted
        exact absurd (hlaunch.fits job hjob).positive (Nat.not_lt.mpr hgranted)
      obtain ⟨c, id, hexecute⟩ := @execute_ok
        ((controllerSettings backend).generateCommand s.vmLocations) s.controller job _ hne
        hnodup hslots fun c hmachines hconfig => by
          refine command_ok hlaunch hrun hjob (hmachines.trans hrun.machines)
            (hconfig.trans hrun.systemConfig) (fun p hp => ?_) (hrun.systemConfig ▸ hgranted)
          rw [← hrun.machines, ← hwf.usage.isSome_iff, hslots p hp]
          rfl
      refine ⟨{ s with controller := c, pc := .nextJob }, ?_⟩
      simp only [scheduleStep, hpc, hselect, ensure_of hgranted, hexecute, bind_of_ok rfl]
  | done =>
      obtain ⟨free, hfree⟩ := allFree_ok hrows
      exact ⟨_, by rw [scheduleStep, hpc]; exact bind_of_ok hfree⟩
  | asleep wait => exact absurd ⟨wait, hpc⟩ hawake
  | finished => exact absurd hpc hmore

end Progress

/-- Only steps that are not enabled fail. -/
theorem step_fault {σ : Settings} {s : State} {action : Action} {fault : Fault}
    (hc : s.controller.Consistent)
    (hok : ¬ s.LockFree → s.pc ≠ .finished → ∃ s', scheduleStep σ s = .ok s')
    (h : step σ s action = .error fault) : fault = .disabled := by
  have hrequire : ∀ {p : Prop} [Decidable p] {f : Fault}, require p = .error f →
      f = .disabled := by
    intro p _ f h
    rw [require] at h
    split at h <;> cases h
    rfl
  cases action with
  | schedule =>
      rcases Classical.em s.LockFree with ⟨wait, hwait⟩ | hawake
      · simp only [step, scheduleStep, hwait] at h
        cases h
        rfl
      · rcases eq_or_ne s.pc .finished with hpc | hpc
        · simp only [step, scheduleStep, hpc] at h
          cases h
          rfl
        · obtain ⟨s', hs'⟩ := hok hawake hpc
          cases hs'.symm.trans h
  | wake =>
      simp only [step, wakeStep] at h
      split at h <;> cases h
      rfl
  | processEnd id | notifyAll id =>
      rcases bind_eq_error.mp h with h | ⟨_, _, h⟩
      · exact hrequire h
      · cases h
  | complete id =>
      rcases bind_eq_error.mp h with h | ⟨_, _, h⟩
      · exact hrequire h
      · rcases bind_eq_error.mp h with h | ⟨_, hphase, h⟩
        · exact hrequire h
        · have hid := running_of_inPhase (require_eq_ok.mp hphase) (.inr rfl)
          obtain ⟨c, hcomplete⟩ := executeCommandInternal_ok hc hid
          rw [bind_of_ok hcomplete] at h
          cases h

/-- A thread that has not returned can go on, its locked block once the scheduler
sleeps. -/
theorem thread_step {σ : Settings} {s : State} {id : Nat} {phase : Phase}
    (hc : s.controller.Consistent) (h : InPhase s.controller id phase)
    (hphase : phase ≠ .finished) (hlock : Phase.Active phase → s.LockFree) :
    ∃ action s', sleeper.wakes action = false ∧ step σ s action = .ok s' := by
  cases phase with
  | executing =>
      exact ⟨.processEnd id, _, rfl, by rw [step, require_of h]; exact bind_of_ok rfl⟩
  | ended =>
      obtain ⟨c, hcomplete⟩ := executeCommandInternal_ok hc (running_of_inPhase h (.inr rfl))
      refine ⟨.complete id, { s with controller := c }, rfl, ?_⟩
      rw [step, require_of (hlock (.inr rfl)), bind_of_ok rfl, completeStep, require_of h,
        bind_of_ok rfl, bind_of_ok hcomplete]
  | notifying =>
      exact ⟨.notifyAll id, _, rfl, by rw [step, require_of h]; exact bind_of_ok rfl⟩
  | finished => exact absurd rfl hphase

/-- The runs in which a wait returns only after it was notified. -/
def launch (backend : Backend) (machines : List String) (systemConfig : SystemConfig)
    (vmLocations : Vm.VmLocations) (jobs : List Job) : System (State × Bool) Action :=
  ((system (controllerSettings backend)).notified sleeper).startingAt
    (start machines systemConfig vmLocations jobs, false)

/-- A run that is over: `schedule` has returned, so have all completion threads, and
every job was executed once and completed once. -/
structure Ended (jobs : List Job) (s : State × Bool) : Prop where
  scheduler : s.1.pc = .finished
  threads : ∀ worker ∈ s.1.controller.threadPool, worker.phase = .finished
  jobsDone : ∃ completed, JobQueue.JobsDone jobs s.1.controller completed

section Launch

variable {backend : Backend} {machines : List String} {systemConfig : SystemConfig}
  {vmLocations : Vm.VmLocations} {jobs : List Job} {s : State × Bool}

theorem launch_underway
    (hs : (launch backend machines systemConfig vmLocations jobs).Reachable s) :
    Underway machines systemConfig vmLocations jobs s.1 := by
  refine (notified_startingAt hs).invariant
    (P := Underway machines systemConfig vmLocations jobs) ?_ ?_
  · rintro t rfl
    exact ⟨rfl, rfl, rfl, fun job hjob => hjob⟩
  · intro t action t' _ h _ hstep
    exact h.trans (step_trans hstep)

theorem launch_jobsDone
    (hs : (launch backend machines systemConfig vmLocations jobs).Reachable s)
    (hreturned : s.1.pc = .finished) :
    ∃ completed, JobQueue.JobsDone jobs s.1.controller completed := by
  obtain ⟨completed, hcompleted⟩ :=
    @ReachableVia.exists_history _ _ _ _ [] completions _ _ (notified_startingAt hs)
  have hclient := (jobRuns_refines (controllerSettings backend) machines systemConfig
    vmLocations jobs).reachable hcompleted
  exact ⟨completed, (JobQueue.reachable_accounted hclient).jobsDone (decide_eq_true hreturned)⟩

variable (hlaunch : Launchable backend machines systemConfig vmLocations jobs)
  (hs : (launch backend machines systemConfig vmLocations jobs).Reachable s)

include hlaunch hs

theorem launch_notified :
    ((system (controllerSettings backend)).notified sleeper).Reachable s := by
  have hinit : ((system (controllerSettings backend)).notified sleeper).Init
      (start machines systemConfig vmLocations jobs, false) := by
    refine ⟨⟨machines, systemConfig, vmLocations, jobs, hlaunch.slots, ?_, rfl⟩, rfl⟩
    rw [controllerSettings_backend]
    exact hlaunch.vms
  exact ReachableVia.append (.init hinit) hs

theorem launch_wellFormed : WellFormed s.1 :=
  reachable_wellFormed (notified_reachable (launch_notified hlaunch hs))

theorem launch_exclusiveNodes : ExclusiveNodes s.1 := by
  have hwaited : Waited s.1 := by
    refine (notified_startingAt hs).invariant (P := Waited) ?_ ?_
    · rintro t rfl
      refine ⟨fun job hjob => (hlaunch.fits job hjob).positive, ?_, by rintro _ ⟨⟩⟩
      rintro _ (hpc | hpc) <;> cases hpc
    · intro t action t' _ h _ hstep
      exact h.trans (step_trans hstep)
  exact exclusiveNodes_of (launch_wellFormed hlaunch hs)
    (reachable_wholeNodes (notified_reachable (launch_notified hlaunch hs))) hwaited

theorem launch_schedules (hawake : ¬ s.1.LockFree) (hmore : s.1.pc ≠ .finished) :
    ∃ s', scheduleStep (controllerSettings backend) s.1 = .ok s' :=
  scheduleStep_ok hlaunch (launch_underway hs) (launch_wellFormed hlaunch hs)
    (launch_exclusiveNodes hlaunch hs) hawake hmore

/-- Where no job runs, nothing is left to wait for. -/
theorem waitOver_of_idle (hidle : ∀ id, ¬ s.1.controller.Running id)
    (hasleep : s.1.LockFree) : WaitOver s.1 := by
  have hwf := launch_wellFormed hlaunch hs
  have hrun := launch_underway hs
  have husage := hwf.consistent.usage_of_idle hwf.usage hidle
  obtain ⟨wait, hwait⟩ := hasleep
  refine ⟨wait, hwait, ?_⟩
  cases wait with
  | ressource job =>
      have hjob := hrun.pending job (by rw [hwait]; exact List.mem_cons_self)
      have hfits := (hlaunch.fits job hjob).fits
      rw [← hrun.machines, ← hrun.systemConfig, Nat.mul_assoc,
        Nat.mul_comm s.1.controller.systemConfig.slotSize] at hfits
      rw [Wait.Over, hwf.slots]
      exact ressourceAvailable_of_idle hwf.slots husage hfits
  | done =>
      refine allFree_of_free fun row hrow slot hslot => ?_
      rw [husage] at hrow
      rw [hwf.slots] at hslot
      rw [(List.mem_replicate.mp hrow).2]
      rcases (show slot = 0 ∨ slot = 1 by omega) with rfl | rfl <;> rfl

/-- Only a run that is over is stuck. -/
theorem launch_ended
    (hstuck : (launch backend machines systemConfig vmLocations jobs).Stuck s) :
    Ended jobs s := by
  have hwf := launch_wellFormed hlaunch hs
  have hreach := launch_notified hlaunch hs
  have hnone : ∀ action t, (system (controllerSettings backend)).step s.1 action = .ok t →
      sleeper.wakes action = true ∧ s.2 = false :=
    fun action t hstep => notified_step_none (hstuck action) hstep
  have hthreads : s.1.LockFree → ∀ worker ∈ s.1.controller.threadPool,
      worker.phase = .finished := by
    intro hfree worker hworker
    by_contra hmore
    obtain ⟨action, t, hwakes, hstep⟩ := thread_step hwf.consistent
      ⟨worker, hworker, rfl, rfl⟩ hmore fun _ => hfree
    rw [(hnone action t hstep).1] at hwakes
    cases hwakes
  have hreturned : s.1.pc = .finished := by
    by_contra hmore
    have hasleep : s.1.LockFree := by
      by_contra hawake
      obtain ⟨t, ht⟩ := launch_schedules hlaunch hs hawake hmore
      cases (hnone .schedule t ht).1
    -- all threads have returned, so there is nothing to wait for and a wake-up is due
    have hover := waitOver_of_idle hlaunch hs (fun id hid => by
      obtain ⟨worker, hworker, _, hactive⟩ := hid
      rw [hthreads hasleep worker hworker] at hactive
      rcases hactive with h | h <;> cases h) hasleep
    rcases sleeper_served.ready hreach (decide_eq_true hasleep) hover with hflag | hdue
    · obtain ⟨wait, hwait⟩ := hasleep
      have hwake : (system (controllerSettings backend)).step s.1 .wake =
          .ok { s.1 with pc := wait.resume } := by
        simp only [system, step, wakeStep, hwait]
      rw [(hnone .wake _ hwake).2] at hflag
      cases hflag
    · obtain ⟨id, worker, hworker, _, hphase⟩ := hdue
      rw [hthreads hasleep worker hworker] at hphase
      cases hphase
  obtain ⟨completed, hcompleted⟩ := launch_jobsDone hs hreturned
  refine ⟨hreturned, fun worker hworker => ?_, completed, hcompleted⟩
  by_contra hmore
  obtain ⟨action, t, hwakes, hstep⟩ := thread_step hwf.consistent
    ⟨worker, hworker, rfl, rfl⟩ hmore fun hactive =>
      absurd ⟨worker, hworker, rfl, hactive⟩ (hcompleted.ended worker.counter)
  rw [(hnone action t hstep).1] at hwakes
  cases hwakes

end Launch

end MultiAppConsec

/-- The consecutive scheduler runs every queue of jobs that fit to its end, in a number
of steps that is linear in the jobs, whatever the order in which the threads go on; no
check fails on the way. -/
theorem consecutive_terminates {backend : Backend} {machines : List String}
    {systemConfig : SystemConfig} {vmLocations : Vm.VmLocations} {jobs : List Job}
    (hlaunch : MultiAppConsec.Launchable backend machines systemConfig vmLocations jobs) :
    (MultiAppConsec.launch backend machines systemConfig vmLocations jobs).Terminates
      (10 * jobs.length + 3) (MultiAppConsec.Ended jobs) ∧
    ∀ s action fault,
      (MultiAppConsec.launch backend machines systemConfig vmLocations jobs).Reachable s →
      MultiAppConsec.step (MultiAppConsec.controllerSettings backend) s.1 action =
        .error fault → fault = .disabled := by
  refine ⟨?_, fun s action fault hs hfault => ?_⟩
  · refine @Lowers.terminates _ _ _ MultiAppConsec.rank ?_ _ _ ?_ ?_
    · intro s action s' hs hstep
      exact MultiAppConsec.notified_lowers _ s action s'
        (MultiAppConsec.launch_notified hlaunch hs) hstep
    · rintro s rfl
      simp [MultiAppConsec.rank, MultiAppConsec.State.rank, MultiAppConsec.start,
        MultiAppConsec.Pc.rank, Controller.threadRank, Controller.create]
    · intro s hs hstuck
      exact MultiAppConsec.launch_ended hlaunch hs hstuck
  · exact MultiAppConsec.step_fault (MultiAppConsec.launch_wellFormed hlaunch hs).consistent
      (MultiAppConsec.launch_schedules hlaunch hs) hfault

/-- Two jobs on one machine: the second one waits for the first, and gets its turn. -/
theorem consecutive_terminates_secondJob : ∃ s : MultiAppConsec.State × Bool,
    s.1.pc = .asleep (.ressource ⟨1, 1, "y", false⟩) ∧
    ∃ t, ((MultiAppConsec.launch .cgroup ["a"] ⟨[⟨[0], []⟩, ⟨[1], []⟩]⟩ []
        [⟨1, 1, "x", false⟩, ⟨1, 1, "y", false⟩]).startingAt s).Reachable t ∧
      MultiAppConsec.Ended [⟨1, 1, "x", false⟩, ⟨1, 1, "y", false⟩] t := by
  have hlaunch : MultiAppConsec.Launchable .cgroup ["a"] ⟨[⟨[0], []⟩, ⟨[1], []⟩]⟩ []
      [⟨1, 1, "x", false⟩, ⟨1, 1, "y", false⟩] := by
    refine ⟨rfl, rfl, fun job hjob => ?_⟩
    rcases List.mem_pair.mp hjob with rfl | rfl
    · exact ⟨by decide, by decide, fun _ => by decide⟩
    · exact ⟨by decide, by decide, fun _ => by decide⟩
  have hrun : ((MultiAppConsec.launch .cgroup ["a"] ⟨[⟨[0], []⟩, ⟨[1], []⟩]⟩ []
      [⟨1, 1, "x", false⟩, ⟨1, 1, "y", false⟩]).run
      (MultiAppConsec.start ["a"] ⟨[⟨[0], []⟩, ⟨[1], []⟩]⟩ []
        [⟨1, 1, "x", false⟩, ⟨1, 1, "y", false⟩], false)
      [.schedule, .schedule, .schedule, .schedule, .schedule]).map (fun s => s.1.pc) =
      .ok (.asleep (.ressource ⟨1, 1, "y", false⟩)) := by
    decide +kernel
  obtain ⟨s, hrun, hpc⟩ := map_eq_ok.mp hrun
  have hs := System.run_reachable (fun _ _ => trivial) (.init rfl) hrun
  obtain ⟨t, ht, _, hended⟩ := (consecutive_terminates hlaunch).1.completes s hs
  exact ⟨s, hpc, t, ht, hended⟩

end Poncos
