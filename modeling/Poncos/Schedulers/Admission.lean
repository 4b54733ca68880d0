import Poncos.Controller.Grouping
import Poncos.Schedulers.Processes

/-!
The arithmetic of an admitted job.  No scheduler looks at the factors of the cpus a job
asks for, so that a job can be admitted and given its slots although its command cannot
be made up.
-/

namespace Poncos

open Poncos.Library
open Poncos.Library.Execution
open Poncos.Library.Transition
open Poncos.Controller

/-- `execute` has entered the job into the slots of the config. -/
def Marked (c : Controller) (config : ExecuteConfig) : Prop :=
  config ≠ [] ∧ ∃ usage, occupy c.cmdCounter config c.machineUsage = .ok usage

/-- The product of the job did not wrap, the divisions by its threads are defined and
without a rest, and `execute` returns. -/
structure WellDefined (c : Controller) (job : Job) (config : ExecuteConfig) : Prop where
  product : job.reqCpus = job.nprocs * job.threadsPerProc
  threads : job.threadsPerProc ≠ 0
  divides : c.systemConfig.slotSize % job.threadsPerProc = 0
  executed : ∃ c' id, c.execute Cgroup.generateCommand job config = .ok (c', id)

theorem Job.reqCpus_eq_iff (job : Job) :
    job.reqCpus = job.nprocs * job.threadsPerProc ↔
      job.nprocs * job.threadsPerProc < 2 ^ 64 :=
  Nat.mod_eq_iff_lt (by decide)

theorem occupy_range {id rows columns : Nat} {config : ExecuteConfig} {usage usage' : MachineUsage}
    (husage : usage.Rectangular rows columns) (h : occupy id config usage = .ok usage') :
    ∀ p ∈ config, p.1 < rows ∧ p.2 < columns := by
  intro p hp
  rw [← husage.isSome_iff, (occupy_spec h).2.1 p hp]
  rfl

theorem generateCommand_ok {c : Controller} {job : Job} {counter : Nat} {config : ExecuteConfig}
    (hrange : ∀ p ∈ config, p.1 < c.machines.length ∧ p.2 < c.systemConfig.slots.length)
    (hgranted : job.reqCpus ≤ config.length * c.systemConfig.slotSize)
    (hthreads : job.threadsPerProc ≠ 0)
    (hdivides : c.systemConfig.slotSize % job.threadsPerProc = 0) :
    ∃ command, Cgroup.generateCommand c job counter config = .ok command := by
  obtain ⟨lists, hgroup, hcounted, _, _⟩ := Cgroup.groupHosts_emptyLists hrange
  obtain ⟨_, hsum⟩ := Cgroup.groupHosts_counted (Cgroup.emptyLists_counted _) hgroup
  have hroom : job.reqCpus ≤ lists.hostsPerSlot.sum * c.systemConfig.slotSize := by
    rw [hsum]
    simpa [Cgroup.emptyLists] using hgranted
  obtain ⟨_, hlaunch⟩ : ∃ launched, Cgroup.launch c job counter config = .ok launched :=
    ⟨_, (Cgroup.launch_eq_ok_iff hgroup hcounted).mpr ⟨⟨hroom, hthreads, hdivides⟩, rfl⟩⟩
  exact ⟨_, by rw [Cgroup.generateCommand, bind_of_ok hlaunch]⟩

section Selected

variable {c : Controller} {job : Job} {config : ExecuteConfig}
  (hslots : c.systemConfig.slots.length = 2)
  (husage : c.machineUsage.Rectangular c.machines.length 2) (hmarked : Marked c config)
  (hgranted : job.reqCpus ≤ config.length * c.systemConfig.slotSize)

include hslots husage hmarked hgranted

theorem execute_ok_of_divides (hthreads : job.threadsPerProc ≠ 0)
    (hdivides : c.systemConfig.slotSize % job.threadsPerProc = 0) :
    ∃ c' id, c.execute Cgroup.generateCommand job config = .ok (c', id) := by
  obtain ⟨hne, usage, hoccupy⟩ := hmarked
  have hrange := occupy_range husage hoccupy
  rw [← hslots] at hrange
  obtain ⟨command, hcommand⟩ := @generateCommand_ok
    { c with
      idToTpool := c.idToTpool ++ [c.threadPool.length]
      idToConfig := c.idToConfig ++ [config]
      idToJob := c.idToJob ++ [job]
      machineUsage := usage } job c.cmdCounter config hrange hgranted hthreads hdivides
  rw [Controller.execute, ensure_of hne, bind_of_ok rfl, bind_of_ok hoccupy,
    bind_of_ok hcommand]
  exact ⟨_, _, rfl⟩

theorem wellDefined_iff (hsize : 0 < c.systemConfig.slotSize) :
    WellDefined c job config ↔ job.threadsPerProc ∣ c.systemConfig.slotSize ∧
      job.nprocs * job.threadsPerProc < 2 ^ 64 := by
  rw [← Job.reqCpus_eq_iff]
  constructor
  · exact fun h => ⟨Nat.dvd_of_mod_eq_zero h.divides, h.product⟩
  · rintro ⟨hdivides, hproduct⟩
    have hthreads : job.threadsPerProc ≠ 0 := (Nat.pos_of_dvd_of_pos hdivides hsize).ne'
    have hmod := Nat.mod_eq_zero_of_dvd hdivides
    exact ⟨hproduct, hthreads, hmod,
      execute_ok_of_divides hslots husage hmarked hgranted hthreads hmod⟩

end Selected

/-- Under each scheduler, the arithmetic of an admitted job that was given its slots is
defined exactly if its threads divide a slot and its product does not wrap. -/
theorem arithmetic_defined_iff (job : Job) :
    (∀ s newSlot, (TwoApp.system TwoApp.cgroupSettings).Reachable s → s.pc = .select job →
      0 < s.controller.systemConfig.slotSize →
      TwoApp.searchSlot s.coConfigInUse (List.range s.controller.systemConfig.slots.length) =
        .ok (some newSlot) →
      Marked s.controller (TwoApp.fullConfig s.controller.machines.length newSlot) →
      (WellDefined s.controller job
          (TwoApp.fullConfig s.controller.machines.length newSlot) ↔
        job.threadsPerProc ∣ s.controller.systemConfig.slotSize ∧
          job.nprocs * job.threadsPerProc < 2 ^ 64)) ∧
    (∀ sorter s config, (MultiApp.system (MultiApp.cgroupSettings sorter)).Reachable s →
      s.pc = .select job → 0 < s.controller.systemConfig.slotSize →
      MultiApp.selectSlots s.controller.systemConfig.slots.length
        s.controller.systemConfig.slotSize job.reqCpus 0 s.controller.machineUsage [] =
          .ok config →
      config.length * s.controller.systemConfig.slotSize = job.reqCpus →
      Marked s.controller config →
      (WellDefined s.controller job config ↔
        job.threadsPerProc ∣ s.controller.systemConfig.slotSize ∧
          job.nprocs * job.threadsPerProc < 2 ^ 64)) ∧
    ∀ s config, (MultiAppConsec.system MultiAppConsec.cgroupSettings).Reachable s →
      s.pc = .select job → 0 < s.controller.systemConfig.slotSize →
      MultiAppConsec.selectNodes s.controller.systemConfig.slots.length
        s.controller.systemConfig.slotSize job.reqCpus 0 s.controller.machineUsage [] =
          .ok config →
      job.reqCpus ≤ config.length * s.controller.systemConfig.slotSize →
      Marked s.controller config →
      (WellDefined s.controller job config ↔
        job.threadsPerProc ∣ s.controller.systemConfig.slotSize ∧
          job.nprocs * job.threadsPerProc < 2 ^ 64) := by
  refine ⟨?_, ?_, ?_⟩
  · intro s newSlot hs hpc hsize _ hmarked
    have hwf := TwoApp.reachable_wellFormed hs
    have hcpus := TwoApp.pending_reqCpus hs job (by rw [hpc]; exact List.mem_singleton_self job)
    refine wellDefined_iff hwf.slots hwf.usage hmarked ?_ hsize
    rw [hcpus, TwoApp.fullConfig, List.length_map, List.length_range]
  · intro sorter s config hs _ hsize _ hgranted hmarked
    have hwf := MultiApp.reachable_wellFormed hs
    exact wellDefined_iff hwf.slots hwf.usage hmarked hgranted.ge hsize
  · intro s config hs _ hsize _ hgranted hmarked
    have hwf := MultiAppConsec.reachable_wellFormed hs
    exact wellDefined_iff hwf.slots hwf.usage hmarked hgranted hsize

/-- One process of two threads, on machines with slots of two cpus. -/
theorem arithmetic_defined_iff_oneSlot :
    WellDefined (MultiApp.start ["a"] ⟨[⟨[0, 1], []⟩, ⟨[2, 3], []⟩]⟩ [] []).controller
      ⟨1, 2, "x", false⟩ [(0, 0)] := by
  have hinit : (MultiApp.system (MultiApp.cgroupSettings StdSort.insertion)).Init
      (MultiApp.start ["a"] ⟨[⟨[0, 1], []⟩, ⟨[2, 3], []⟩]⟩ [] [⟨1, 2, "x", false⟩]) :=
    ⟨_, _, _, _, rfl, rfl, rfl⟩
  have hrun : (MultiApp.system (MultiApp.cgroupSettings StdSort.insertion)).run
      (MultiApp.start ["a"] ⟨[⟨[0, 1], []⟩, ⟨[2, 3], []⟩]⟩ [] [⟨1, 2, "x", false⟩])
      [.schedule [], .schedule []] =
      .ok { MultiApp.start ["a"] ⟨[⟨[0, 1], []⟩, ⟨[2, 3], []⟩]⟩ [] [] with
        pc := .select ⟨1, 2, "x", false⟩ } := by
    rfl
  have hs := System.run_reachable (fun _ _ => trivial) (.init hinit) hrun
  exact ((arithmetic_defined_iff ⟨1, 2, "x", false⟩).2.1 StdSort.insertion _ [(0, 0)] hs rfl
    (by decide) (by decide) (by decide) ⟨by decide, _, rfl⟩).mpr (by decide)

/-- One process of two threads on two machines with slots of one cpu: it asks for the two
cpus it is to get, and the command fails once it has got them. -/
theorem not_wellDefined_twoThreads : ∃ s,
    (TwoApp.system TwoApp.cgroupSettings).Reachable s ∧ s.pc = .select ⟨1, 2, "x", false⟩ ∧
      TwoApp.searchSlot s.coConfigInUse (List.range 2) = .ok (some 0) ∧
      Marked s.controller (TwoApp.fullConfig 2 0) ∧
      s.controller.execute Cgroup.generateCommand ⟨1, 2, "x", false⟩
        (TwoApp.fullConfig 2 0) = .error .assertion ∧
      ¬ WellDefined s.controller ⟨1, 2, "x", false⟩ (TwoApp.fullConfig 2 0) := by
  have hinit : (TwoApp.system TwoApp.cgroupSettings).Init
      (TwoApp.twoMachines .cgroup [⟨1, 2, "x", false⟩]) := TwoApp.twoMachines_init .cgroup _
  have hrun : (TwoApp.system TwoApp.cgroupSettings).run
      (TwoApp.twoMachines .cgroup [⟨1, 2, "x", false⟩]) [.schedule [], .schedule []] =
      .ok { TwoApp.twoMachines .cgroup [] with pc := .select ⟨1, 2, "x", false⟩ } := by
    rfl
  have hs := System.run_reachable (fun _ _ => trivial) (.init hinit) hrun
  refine ⟨_, hs, rfl, rfl, ⟨by decide, _, rfl⟩, rfl, fun h => ?_⟩
  exact absurd h.divides (by decide)

end Poncos
