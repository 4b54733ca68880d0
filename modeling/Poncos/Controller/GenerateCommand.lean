import Mathlib.Algebra.BigOperators.Ring.List
import Mathlib.Algebra.Ring.Nat
import Poncos.Controller.Suspension

/-!
The command lines the two controllers make up.  The control group controller writes
a file of hosts with their capacities and splits the processes over the slots; the
virtual machine controller leaves the distribution to `mpiexec`.  The sorted copy of
the config that the source makes is never read, and the file is taken to open.
-/

namespace Poncos

open Poncos.Library
open Poncos.Library.Execution

namespace Cgroup

/-- `host_lists` and `hosts_per_slot`: one entry for every slot, and a last one for
the machines of which both slots are used. -/
structure HostLists where
  hostLists : List (List String)
  hostsPerSlot : List Nat

def HostLists.enter (lists : HostLists) (slot : Nat) (hosts : List String) :
    Exec HostLists := do
  let entry ← fetch lists.hostLists slot
  let hostLists ← store lists.hostLists slot (entry ++ hosts)
  let count ← fetch lists.hostsPerSlot slot
  let hostsPerSlot ← store lists.hostsPerSlot slot (count + hosts.length)
  .ok ⟨hostLists, hostsPerSlot⟩

/-- The loop over the config; it skips the second of two slots of one machine. -/
def groupHosts (machines : List String) (slots : Nat) :
    ExecuteConfig → HostLists → Exec HostLists
  | [], lists => .ok lists
  | [elem], lists => do
      let host ← fetch machines elem.1
      lists.enter elem.2 [host]
  | elem :: next :: rest, lists => do
      let host ← fetch machines elem.1
      -- both slots of a system used?
      if elem.1 = next.1 then do
        let lists ← lists.enter slots [host, host]
        groupHosts machines slots rest lists
      else do
        let lists ← lists.enter elem.2 [host]
        groupHosts machines slots (next :: rest) lists

/-- The hosts file, a line for every slot, and the programs of the command, each
with the value of its `-np`. -/
structure Launch where
  hostsFile : List (String × Nat)
  programs : List (Nat × String)

def launch (c : Controller) (job : Job) (counter : Nat) (config : ExecuteConfig) :
    Exec Launch := do
  let slots := c.systemConfig.slots.length
  let slotSize := c.systemConfig.slotSize
  let lists ← groupHosts c.machines slots config
    ⟨List.replicate (slots + 1) [], List.replicate (slots + 1) 0⟩
  ensure (job.reqCpus ≤ lists.hostsPerSlot.sum * slotSize)
  -- the division stops the program on a job without threads
  ensure (job.threadsPerProc ≠ 0)
  let processPerSlot := slotSize / job.threadsPerProc
  ensure (slotSize % job.threadsPerProc = 0)
  let used := (lists.hostLists.zip lists.hostsPerSlot).filter fun entry => entry.2 ≠ 0
  .ok {
    hostsFile := used.flatMap fun entry => entry.1.map fun host => (host, processPerSlot)
    programs := used.map fun entry => (processPerSlot * entry.2,
      " ./cgroup_wrapper.sh " ++ cmdNameFromId counter ++ " " ++ job.command) }

def Launch.text (launch : Launch) (job : Job) (counter : Nat) : String :=
  "mpiexec -f " ++ cmdNameFromId counter ++ ".hosts" ++ " -genv OMP_NUM_THREADS " ++
    toString job.threadsPerProc ++ String.intercalate " : " (launch.programs.map fun program =>
      " -np " ++ toString program.1 ++ " " ++ program.2)

def generateCommand : CommandGenerator := fun c job counter config => do
  let launch ← launch c job counter config
  .ok (launch.text job counter)

/-- The processes `mpiexec` is told to start. -/
def Launch.processes (launch : Launch) : Nat := (launch.programs.map Prod.fst).sum

def Launch.capacities (launch : Launch) : Nat := (launch.hostsFile.map Prod.snd).sum

end Cgroup

namespace Vm

structure Launch where
  nprocs : Nat
  hostList : List String

def launch (vmLocations : VmLocations) (job : Job) (config : ExecuteConfig) :
    Exec Launch := do
  let hostList ← config.mapM vmLocations.read
  .ok ⟨job.nprocs, hostList⟩

def Launch.text (launch : Launch) (job : Job) : String :=
  "mpiexec -np " ++ toString launch.nprocs ++ " -genv OMP_NUM_THREADS " ++
    toString job.threadsPerProc ++ " -hosts " ++ String.intercalate "," launch.hostList ++
    " " ++ job.command

def generateCommand (vmLocations : VmLocations) : CommandGenerator :=
  fun _ job _ config => do
    let launch ← launch vmLocations job config
    .ok (launch.text job)

end Vm

namespace Cgroup

/-- Every list of hosts is as long as its counter says. -/
def HostLists.Counted (lists : HostLists) : Prop :=
  lists.hostsPerSlot = lists.hostLists.map List.length

theorem sum_set_add {counts : List Nat} {i count : Nat} (h : counts[i]? = some count)
    (k : Nat) : (counts.set i (count + k)).sum = counts.sum + k := by
  induction counts generalizing i with
  | nil => cases h
  | cons head rest ih =>
      cases i with
      | zero =>
          obtain rfl : head = count := by simpa using h
          simp only [List.set_cons_zero, List.sum_cons]
          omega
      | succ i =>
          have := ih (i := i) (by simpa using h)
          simp only [List.set_cons_succ, List.sum_cons, this]
          omega

theorem HostLists.enter_counted {lists lists' : HostLists} {slot : Nat} {hosts : List String}
    (h : lists.Counted) (henter : lists.enter slot hosts = .ok lists') :
    lists'.Counted ∧ lists'.hostsPerSlot.sum = lists.hostsPerSlot.sum + hosts.length := by
  simp only [HostLists.enter, bind_eq_ok, fetch_eq_ok, store_eq_ok] at henter
  obtain ⟨entry, hentry, _, ⟨_, rfl⟩, count, hcount, _, ⟨hslot, rfl⟩, henter⟩ := henter
  cases henter
  refine ⟨?_, sum_set_add hcount hosts.length⟩
  rw [h, List.getElem?_map, hentry] at hcount
  obtain rfl : entry.length = count := by simpa using hcount
  rw [HostLists.Counted, h, List.map_set, List.length_append]

/-- A host is entered and the rest of the loop follows. -/
theorem HostLists.entered_counted {lists lists' : HostLists} {slot count total : Nat}
    {hosts : List String} {loop : HostLists → Exec HostLists} (h : lists.Counted)
    (hloop : ∀ lists₁ : HostLists, lists₁.Counted → loop lists₁ = .ok lists' →
      lists'.Counted ∧ lists'.hostsPerSlot.sum = lists₁.hostsPerSlot.sum + count)
    (htotal : hosts.length + count = total)
    (hentered : lists.enter slot hosts >>= loop = .ok lists') :
    lists'.Counted ∧ lists'.hostsPerSlot.sum = lists.hostsPerSlot.sum + total := by
  obtain ⟨lists₁, henter, hrest⟩ := bind_eq_ok.mp hentered
  obtain ⟨h₁, hsum₁⟩ := HostLists.enter_counted h henter
  obtain ⟨h', hsum'⟩ := hloop lists₁ h₁ hrest
  exact ⟨h', by rw [hsum', hsum₁, Nat.add_assoc, htotal]⟩

theorem groupHosts_counted {machines : List String} {slots : Nat} {config : ExecuteConfig}
    {lists lists' : HostLists} (h : lists.Counted)
    (hgroup : groupHosts machines slots config lists = .ok lists') :
    lists'.Counted ∧ lists'.hostsPerSlot.sum = lists.hostsPerSlot.sum + config.length := by
  fun_induction groupHosts machines slots config lists with
  | case1 lists =>
      cases hgroup
      exact ⟨h, rfl⟩
  | case2 elem lists =>
      simp only [bind_eq_ok] at hgroup
      obtain ⟨host, _, hgroup⟩ := hgroup
      exact HostLists.enter_counted h hgroup
  | case3 elem next rest lists ihBoth ihOne =>
      simp only [bind_eq_ok] at hgroup
      obtain ⟨host, _, hgroup⟩ := hgroup
      split at hgroup
      · refine HostLists.entered_counted h ihBoth ?_ hgroup
        simp only [List.length_cons, List.length_nil]
        omega
      · refine HostLists.entered_counted h ihOne ?_ hgroup
        simp only [List.length_cons, List.length_nil]
        omega

theorem flatMap_used {β : Type*} (hostLists : List (List String)) (f : String → β) :
    (((hostLists.zip (hostLists.map List.length)).filter fun entry => entry.2 ≠ 0).flatMap
      fun entry => entry.1.map f) = (hostLists.map (List.map f)).flatten := by
  induction hostLists with
  | nil => rfl
  | cons hosts rest ih =>
      rw [List.map_cons, List.zip_cons_cons, List.filter_cons, List.map_cons, List.flatten_cons,
        ← ih]
      cases hosts with
      | nil => simp
      | cons host more => simp

theorem map_used {β : Type*} (hostLists : List (List String)) (f : Nat → β) :
    (((hostLists.zip (hostLists.map List.length)).filter fun entry => entry.2 ≠ 0).map
      fun entry => f entry.2) = ((hostLists.map List.length).filter (· ≠ 0)).map f := by
  induction hostLists with
  | nil => rfl
  | cons hosts rest ih =>
      rw [List.map_cons, List.zip_cons_cons, List.filter_cons, List.filter_cons]
      split
      · rw [List.map_cons, List.map_cons, ih]
      · exact ih

/-- The processes started and the capacities written both follow the slots granted,
not the processes asked for. -/
structure LaunchCounts (c : Controller) (job : Job) (config : ExecuteConfig)
    (launch : Launch) : Prop where
  divides : job.threadsPerProc ∣ c.systemConfig.slotSize
  threads : 0 < job.threadsPerProc
  processes : launch.processes =
    c.systemConfig.slotSize / job.threadsPerProc * config.length
  capacities : launch.capacities = launch.processes

/-- What a call of `execute` has started. -/
structure Launched (c c' : Controller) (job : Job) (config : ExecuteConfig)
    (launched : Launch) : Prop where
  idToConfig : c'.idToConfig = c.idToConfig ++ [config]
  threadPool : c'.threadPool =
    c.threadPool ++ [⟨launched.text job c.cmdCounter, c.cmdCounter, .executing⟩]
  counts : LaunchCounts c job config launched

end Cgroup

end Poncos
