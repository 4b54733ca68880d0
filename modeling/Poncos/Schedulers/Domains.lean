import Poncos.Controller.TableRuns
import Poncos.Controller.Threads
import Poncos.Controller.Timers
import Poncos.Schedulers.Responses

/-!
The domains of the control group controller.  A job gets one domain on every machine it
has slots on, with the cpus and memory nodes of all of them, and on completion loses the
same ones; a domain exists while its job runs.
-/

namespace Poncos.Cgroup

open Poncos.Library
open Poncos.Library.Execution
open Poncos.Library.Transition

/-- The cpus of all slots a config has on a machine, in its order. -/
def cpusOn (systemConfig : SystemConfig) (config : ExecuteConfig) (machine : Nat) : List Nat :=
  (config.filter fun elem => elem.1 = machine).flatMap fun elem =>
    (systemConfig.slots.getD elem.2 ⟨[], []⟩).cpus

def memsOn (systemConfig : SystemConfig) (config : ExecuteConfig) (machine : Nat) : List Nat :=
  (config.filter fun elem => elem.1 = machine).flatMap fun elem =>
    (systemConfig.slots.getD elem.2 ⟨[], []⟩).mems

/-- The start task for a machine of a config. -/
def startOn (systemConfig : SystemConfig) (cgroupName : String) (config : ExecuteConfig)
    (machine : Nat) : Start :=
  ⟨cgroupName, [cpusOn systemConfig config machine], [memsOn systemConfig config machine]⟩

theorem startOn_concat {systemConfig : SystemConfig} {cgroupName : String}
    {config : ExecuteConfig} {elem : ExecuteConfigElem} {slot : Slot}
    (hslot : systemConfig.slots[elem.2]? = some slot) (machine : Nat) :
    startOn systemConfig cgroupName (config ++ [elem]) machine =
      if elem.1 = machine then
        ⟨cgroupName, [cpusOn systemConfig config machine ++ slot.cpus],
          [memsOn systemConfig config machine ++ slot.mems]⟩
      else startOn systemConfig cgroupName config machine := by
  rcases eq_or_ne elem.1 machine with h | h
  · simp [startOn, cpusOn, memsOn, h, hslot]
  · simp [startOn, cpusOn, memsOn, h]

/-- A map with one task for every machine of the config, and no other. -/
structure Keyed {α : Type} (task : Nat → α) (config : ExecuteConfig) (tasks : TaskMap α) :
    Prop where
  nodup : (tasks.map Prod.fst).Nodup
  lookup : ∀ machine, tasks.lookup machine =
    if machine ∈ config.map Prod.fst then some (task machine) else none

theorem lookup_isSome_iff {α : Type} {tasks : TaskMap α} {machine : Nat} :
    (tasks.lookup machine).isSome ↔ machine ∈ tasks.map Prod.fst := by
  induction tasks with
  | nil => simp
  | cons entry rest ih =>
      rcases eq_or_ne machine entry.1 with rfl | h
      · simp
      · simp [h]

theorem lookup_update {α : Type} (tasks : TaskMap α) (key machine : Nat) (f : α → α) :
    (tasks.map fun entry => if entry.1 = key then (entry.1, f entry.2) else entry).lookup
        machine = if machine = key then (tasks.lookup key).map f else tasks.lookup machine := by
  induction tasks with
  | nil => simp
  | cons entry rest ih =>
      rw [List.map_cons, List.lookup_cons, List.lookup_cons, List.lookup_cons, ih]
      grind

theorem map_fst_update {α : Type} (tasks : TaskMap α) (key : Nat) (f : α → α) :
    (tasks.map fun entry => if entry.1 = key then (entry.1, f entry.2) else entry).map
      Prod.fst = tasks.map Prod.fst := by
  rw [List.map_map]
  refine List.map_congr_left fun entry _ => ?_
  rw [Function.comp_apply]
  split <;> rfl

namespace Keyed

variable {α : Type} {task task' : Nat → α} {config : ExecuteConfig} {tasks : TaskMap α}

theorem mem_iff (h : Keyed task config tasks) {machine : Nat} :
    machine ∈ tasks.map Prod.fst ↔ machine ∈ config.map Prod.fst := by
  rw [← lookup_isSome_iff, h.lookup]
  split
  · simp [*]
  · simp [*]

theorem mem_concat {elem : ExecuteConfigElem} {machine : Nat} :
    machine ∈ (config ++ [elem]).map Prod.fst ↔
      machine ∈ config.map Prod.fst ∨ machine = elem.1 := by
  rw [List.map_append, List.mem_append, List.map_singleton, List.mem_singleton]

/-- A machine that has a task already. -/
theorem update (h : Keyed task config tasks) {elem : ExecuteConfigElem} {f : α → α}
    (helem : elem.1 ∈ config.map Prod.fst)
    (htask : ∀ machine, task' machine =
      if elem.1 = machine then f (task machine) else task machine) :
    Keyed task' (config ++ [elem]) (tasks.map fun entry =>
      if entry.1 = elem.1 then (entry.1, f entry.2) else entry) := by
  refine ⟨by rw [map_fst_update]; exact h.nodup, fun machine => ?_⟩
  rw [lookup_update, h.lookup, h.lookup, htask, if_pos helem]
  simp only [mem_concat]
  rcases eq_or_ne machine elem.1 with rfl | hne
  · simp
  · simp only [hne, hne.symm, or_false, if_false]

/-- A machine that has none. -/
theorem insert (h : Keyed task config tasks) {elem : ExecuteConfigElem} {new : α}
    (helem : elem.1 ∉ config.map Prod.fst)
    (htask : ∀ machine, task' machine = if elem.1 = machine then new else task machine) :
    Keyed task' (config ++ [elem]) (tasks ++ [(elem.1, new)]) := by
  constructor
  · rw [List.map_append, List.nodup_append]
    refine ⟨h.nodup, by simp, fun machine hmachine key hkey => ?_⟩
    rintro rfl
    rw [h.mem_iff] at hmachine
    obtain rfl : machine = elem.1 := by simpa using hkey
    exact helem hmachine
  · intro machine
    rw [List.lookup_append, h.lookup, htask, List.lookup_cons]
    simp only [mem_concat]
    rcases eq_or_ne machine elem.1 with rfl | hne
    · simp [helem]
    · simp only [hne, hne.symm, or_false, if_false, beq_eq_false_iff_ne.mpr hne,
        List.lookup_nil, Option.or_none]

end Keyed

theorem startTasks_keyed {systemConfig : SystemConfig} {cgroupName : String}
    {done rest : ExecuteConfig} {tasks : TaskMap Start}
    (h : Keyed (startOn systemConfig cgroupName done) done tasks)
    (hslots : ∀ elem ∈ rest, elem.2 < systemConfig.slots.length) :
    ∃ tasks', startTasks systemConfig cgroupName rest tasks = .ok tasks' ∧
      Keyed (startOn systemConfig cgroupName (done ++ rest)) (done ++ rest) tasks' := by
  induction rest generalizing done tasks with
  | nil => exact ⟨tasks, rfl, by rwa [List.append_nil]⟩
  | cons elem rest ih =>
      obtain ⟨slot, hslot⟩ : ∃ slot, systemConfig.slots[elem.2]? = some slot :=
        ⟨_, List.getElem?_eq_getElem (hslots elem List.mem_cons_self)⟩
      have hrest := fun p hp => hslots p (List.mem_cons_of_mem elem hp)
      rw [startTasks, bind_of_ok (fetch_eq_ok.mpr hslot), h.lookup]
      rw [show done ++ elem :: rest = (done ++ [elem]) ++ rest by simp]
      rcases Classical.em (elem.1 ∈ done.map Prod.fst) with helem | helem
      · rw [if_pos helem]
        refine ih (h.update (f := fun task => { task with
          vcpuMap := [cpusOn systemConfig done elem.1 ++ slot.cpus]
          memnodeMap := [memsOn systemConfig done elem.1 ++ slot.mems] })
          helem fun machine => ?_) hrest
        rw [startOn_concat hslot]
        split
        · rename_i heq
          rw [← heq, startOn]
        · rfl
      · rw [if_neg helem]
        refine ih (h.insert helem fun machine => ?_) hrest
        rw [startOn_concat hslot]
        split
        · rename_i heq
          have hnone : done.filter (fun elem => elem.1 = machine) = [] := by
            rw [List.filter_eq_nil_iff]
            intro p hp hmachine
            rw [decide_eq_true_eq] at hmachine
            exact helem (heq ▸ hmachine ▸ List.mem_map_of_mem hp)
          rw [cpusOn, memsOn, hnone]
          rfl
        · rfl

theorem stopTasks_keyed {cgroupName : String} {done rest : ExecuteConfig}
    {tasks : TaskMap String} (h : Keyed (fun _ => cgroupName) done tasks) :
    Keyed (fun _ => cgroupName) (done ++ rest) (stopTasks cgroupName rest tasks) := by
  induction rest generalizing done tasks with
  | nil => rwa [List.append_nil]
  | cons elem rest ih =>
      rw [stopTasks, show done ++ elem :: rest = (done ++ [elem]) ++ rest by simp]
      apply ih
      rcases Classical.em (elem.1 ∈ done.map Prod.fst) with helem | helem
      · rw [if_pos (by rw [h.lookup, if_pos helem]; rfl)]
        refine ⟨h.nodup, fun machine => ?_⟩
        rw [h.lookup]
        simp only [Keyed.mem_concat]
        rcases eq_or_ne machine elem.1 with rfl | hne
        · simp only [helem, true_or]
        · simp only [hne, or_false]
      · rw [if_neg (by rw [h.lookup, if_neg helem]; simp)]
        exact h.insert helem fun machine => by rw [ite_self]

/-- The machines of a config, each of them once. -/
structure MachinesOf (config : ExecuteConfig) (order : List Nat) : Prop where
  nodup : order.Nodup
  mem_iff : ∀ machine, machine ∈ order ↔ ∃ elem ∈ config, elem.1 = machine

/-- One request for each machine, and one answer. -/
def oneEach (machines : List String) (request : Nat → Request) (order : List Nat) : Exchange where
  requests := order.map fun machine => (.migfra (machines.getD machine ""), request machine)
  replies := order.map fun machine => .migfra (machines.getD machine "")

theorem exchangeTasks_eq_ok_iff {α : Type} {task : Nat → α} {config : ExecuteConfig}
    {tasks : TaskMap α} {machines : List String} {request : α → Request} {order : List Nat}
    (h : Keyed task config tasks) (hrange : ∀ elem ∈ config, elem.1 < machines.length)
    {exchange : Exchange} :
    exchangeTasks machines tasks request order = .ok exchange ↔
      MachinesOf config order ∧
        exchange = oneEach machines (fun machine => request (task machine)) order := by
  have hmem : ∀ machine, machine ∈ tasks.map Prod.fst ↔ ∃ elem ∈ config, elem.1 = machine := by
    intro machine
    rw [h.mem_iff, List.mem_map]
  have hloops : MachinesOf config order →
      exchangeTasks machines tasks request order =
        .ok (oneEach machines (fun machine => request (task machine)) order) := by
    intro horder
    have hhost : ∀ machine ∈ order, fetch machines machine = .ok (machines.getD machine "") := by
      intro machine hmachine
      obtain ⟨elem, helem, rfl⟩ := (horder.mem_iff machine).mp hmachine
      exact fetch_eq_ok.mpr (by simp [hrange elem helem])
    have hfind : ∀ machine ∈ order, tasks.find machine = .ok (task machine) := by
      intro machine hmachine
      rw [TaskMap.find, h.lookup,
        if_pos (h.mem_iff.mp ((hmem machine).mpr ((horder.mem_iff machine).mp hmachine)))]
    rw [exchangeTasks, require_of ((List.perm_ext_iff_of_nodup horder.nodup h.nodup).mpr
      fun machine => (horder.mem_iff machine).trans (hmem machine).symm), bind_of_ok rfl,
      bind_of_ok (mapM_eq_ok_map fun machine hmachine => by
        rw [bind_of_ok (hhost machine hmachine), bind_of_ok (hfind machine hmachine)]),
      bind_of_ok (mapM_eq_ok_map fun machine hmachine => by
        rw [bind_of_ok (hhost machine hmachine)])]
    rfl
  constructor
  · intro hexchange
    have horder : MachinesOf config order := by
      simp only [exchangeTasks, bind_eq_ok, require_eq_ok] at hexchange
      obtain ⟨_, hperm, _⟩ := hexchange
      exact ⟨hperm.nodup_iff.mpr h.nodup, fun machine => hperm.mem_iff.trans (hmem machine)⟩
    rw [hloops horder] at hexchange
    exact ⟨horder, (Except.ok.inj hexchange).symm⟩
  · rintro ⟨horder, rfl⟩
    exact hloops horder

section Call

variable {c : Controller} {id : Nat} {config : ExecuteConfig}
  (hrow : c.idToConfig[id]? = some config)
  (hrange : ∀ elem ∈ config, elem.1 < c.machines.length)

include hrow hrange

/-- `create_domain` starts one domain on each machine of the config. -/
theorem createDomain_eq_ok_iff
    (hslots : ∀ elem ∈ config, elem.2 < c.systemConfig.slots.length) {order : List Nat}
    {exchange : Exchange} :
    createDomain c id order = .ok exchange ↔ MachinesOf config order ∧
      exchange = oneEach c.machines
        (fun machine => .start (startOn c.systemConfig (cmdNameFromId id) config machine))
        order := by
  have hnone : Keyed (startOn c.systemConfig (cmdNameFromId id) []) [] [] :=
    ⟨List.nodup_nil, fun _ => rfl⟩
  obtain ⟨tasks, htasks, hkeyed⟩ := startTasks_keyed hnone hslots
  rw [createDomain, bind_of_ok (fetch_eq_ok.mpr hrow), bind_of_ok htasks]
  exact exchangeTasks_eq_ok_iff hkeyed hrange

/-- `delete_domain` stops the same ones. -/
theorem deleteDomain_eq_ok_iff {order : List Nat} {exchange : Exchange} :
    deleteDomain c id order = .ok exchange ↔ MachinesOf config order ∧
      exchange = oneEach c.machines (fun _ => .stop (cmdNameFromId id)) order := by
  have hnone : Keyed (fun _ => cmdNameFromId id) [] [] := ⟨List.nodup_nil, fun _ => rfl⟩
  rw [deleteDomain, bind_of_ok (fetch_eq_ok.mpr hrow)]
  exact exchangeTasks_eq_ok_iff (stopTasks_keyed hnone) hrange

end Call

theorem startTasks_range {systemConfig : SystemConfig} {cgroupName : String}
    {config : ExecuteConfig} {tasks tasks' : TaskMap Start}
    (h : startTasks systemConfig cgroupName config tasks = .ok tasks') :
    ∀ elem ∈ config, elem.2 < systemConfig.slots.length := by
  induction config generalizing tasks with
  | nil => simp
  | cons elem rest ih =>
      simp only [startTasks, bind_eq_ok, fetch_eq_ok] at h
      obtain ⟨slot, hslot, h⟩ := h
      have hrest : ∀ elem ∈ rest, elem.2 < systemConfig.slots.length := by
        split at h
        · simp only [bind_eq_ok] at h
          obtain ⟨_, _, _, _, _, _, _, _, h⟩ := h
          exact ih h
        · exact ih h
      exact List.forall_mem_cons.mpr ⟨(List.getElem?_eq_some_iff.mp hslot).1, hrest⟩

theorem cmdNameFromId_inj {i j : Nat} (h : cmdNameFromId i = cmdNameFromId j) : i = j := by
  rw [cmdNameFromId, cmdNameFromId, String.append_right_inj] at h
  exact toString_inj (congrArg String.toList h)

/-- The controller, and the domains that exist, by their host and name. -/
structure State where
  controller : Controller
  domains : List (String × String)

/-- What the agent on a host does. -/
def Request.run (domains : List (String × String)) : Channel × Request → List (String × String)
  | (.migfra host, .start task) => (host, task.vmName) :: domains
  | (.migfra host, .stop vmName) => domains.filter (· ≠ (host, vmName))
  | _ => domains

def runRequests (exchange : Exchange) (domains : List (String × String)) :
    List (String × String) :=
  exchange.requests.foldl Request.run domains

inductive Action where
  | execute (job : Job) (config : ExecuteConfig) (order : List Nat)
  | processEnd (id : Nat)
  | complete (id : Nat) (order : List Nat)
  | notifyAll (id : Nat)

/-- Runs of `execute` and of the threads it starts. -/
def system (generateCommand : CommandGenerator) : System State Action where
  Init s := ∃ machines systemConfig, s = ⟨Controller.create machines systemConfig, []⟩
  step s
    | .execute job config order => do
        let (controller, id) ← s.controller.execute generateCommand job config
        -- it is called inside `execute`, where its tables are written already
        let exchange ← createDomain controller id order
        .ok ⟨controller, runRequests exchange s.domains⟩
    | .processEnd id => do
        require (Controller.InPhase s.controller id .executing)
        .ok { s with controller := s.controller.setPhase id .ended }
    | .complete id order => do
        require (Controller.InPhase s.controller id .ended)
        let exchange ← deleteDomain s.controller id order
        let controller ← s.controller.executeCommandInternal id
        .ok ⟨controller, runRequests exchange s.domains⟩
    | .notifyAll id => do
        require (Controller.InPhase s.controller id .notifying)
        .ok { s with controller := s.controller.setPhase id .finished }

/-- The job is running and has a slot on a machine of this name. -/
def RunsOn (c : Controller) (id : Nat) (host : String) : Prop :=
  c.Running id ∧ ∃ config, c.idToConfig[id]? = some config ∧
    ∃ elem ∈ config, c.machines[elem.1]? = some host

theorem mem_runRequests_start {machines : List String} {task : Nat → Start}
    {cgroupName : String} (hname : ∀ machine, (task machine).vmName = cgroupName)
    (order : List Nat) (domains : List (String × String)) (host name : String) :
    (host, name) ∈ runRequests (oneEach machines (fun machine => .start (task machine)) order)
        domains ↔
      (host, name) ∈ domains ∨
        name = cgroupName ∧ ∃ machine ∈ order, machines.getD machine "" = host := by
  induction order generalizing domains with
  | nil => simp [runRequests, oneEach]
  | cons machine rest ih =>
      have hstep := ih ((machines.getD machine "", cgroupName) :: domains)
      simp only [runRequests, oneEach, List.map_cons, List.foldl_cons, Request.run, hname]
        at hstep ⊢
      rw [hstep, List.mem_cons, Prod.mk.injEq]
      grind

theorem mem_runRequests_stop {machines : List String} {cgroupName : String}
    (order : List Nat) (domains : List (String × String)) (host name : String) :
    (host, name) ∈ runRequests (oneEach machines (fun _ => .stop cgroupName) order) domains ↔
      (host, name) ∈ domains ∧
        ¬ (name = cgroupName ∧ ∃ machine ∈ order, machines.getD machine "" = host) := by
  induction order generalizing domains with
  | nil => simp [runRequests, oneEach]
  | cons machine rest ih =>
      have hstep := ih (domains.filter (· ≠ (machines.getD machine "", cgroupName)))
      simp only [runRequests, oneEach, List.map_cons, List.foldl_cons, Request.run]
        at hstep ⊢
      rw [hstep, List.mem_filter, decide_eq_true_eq, ne_eq, Prod.mk.injEq]
      grind

theorem MachinesOf.host_iff {config : ExecuteConfig} {order : List Nat}
    {machines : List String} (h : MachinesOf config order)
    (hrange : ∀ elem ∈ config, elem.1 < machines.length) (host : String) :
    (∃ machine ∈ order, machines.getD machine "" = host) ↔
      ∃ elem ∈ config, machines[elem.1]? = some host := by
  constructor
  · rintro ⟨machine, hmachine, rfl⟩
    obtain ⟨elem, helem, rfl⟩ := (h.mem_iff machine).mp hmachine
    exact ⟨elem, helem, by simp [hrange elem helem]⟩
  · rintro ⟨elem, helem, hhost⟩
    exact ⟨elem.1, (h.mem_iff _).mpr ⟨elem, helem, rfl⟩, by simp [hhost]⟩

/-- In every state of every run. -/
structure DomainsInStep (s : State) : Prop where
  consistent : s.controller.Consistent
  usage : ∃ columns, s.controller.machineUsage.Rectangular s.controller.machines.length columns
  mem_iff : ∀ host name, (host, name) ∈ s.domains ↔
    ∃ id, name = cmdNameFromId id ∧ RunsOn s.controller id host

namespace DomainsInStep

variable {s : State}

theorem config_range (h : DomainsInStep s) {id : Nat} (hid : s.controller.Running id)
    {config : ExecuteConfig} (hrow : s.controller.idToConfig[id]? = some config) :
    ∀ elem ∈ config, elem.1 < s.controller.machines.length := by
  intro elem helem
  obtain ⟨_, husage⟩ := h.usage
  have howner := (h.consistent.owner_iff elem id).mpr ⟨hid, config, hrow, helem⟩
  exact ((husage.isSome_iff elem).mp (by rw [howner]; rfl)).1

theorem execute (h : DomainsInStep s) {job : Job} {config : ExecuteConfig} {c : Controller}
    {id : Nat} (heffect : Controller.ExecuteEffect s.controller c job config id)
    {order : List Nat} {exchange : Exchange}
    (hcreate : createDomain c id order = .ok exchange) :
    DomainsInStep ⟨c, runRequests exchange s.domains⟩ := by
  obtain ⟨columns, husage⟩ := h.usage
  have hrow : c.idToConfig[id]? = some config := by
    rw [heffect.idToConfig, heffect.id_eq, ← h.consistent.configs_length]
    simp
  have hrange : ∀ elem ∈ config, elem.1 < c.machines.length := by
    intro elem helem
    rw [heffect.machines]
    exact ((husage.isSome_iff elem).mp (by rw [heffect.free elem helem]; rfl)).1
  have hslots : ∀ elem ∈ config, elem.2 < c.systemConfig.slots.length := by
    simp only [createDomain, bind_eq_ok, fetch_eq_ok] at hcreate
    obtain ⟨config', hrow', _, htasks, _⟩ := hcreate
    cases hrow.symm.trans hrow'
    exact startTasks_range htasks
  obtain ⟨horder, rfl⟩ := (createDomain_eq_ok_iff hrow hrange hslots).mp hcreate
  have hruns : ∀ j host, RunsOn c j host ↔ RunsOn s.controller j host ∨
      j = id ∧ ∃ elem ∈ config, c.machines[elem.1]? = some host := by
    intro j host
    rw [RunsOn, heffect.running_iff, RunsOn, or_and_right]
    refine or_congr ?_ ?_
    · refine and_congr_right fun hj => ?_
      have hlt := h.consistent.running_lt hj
      rw [heffect.idToConfig, List.getElem?_append_left (by rwa [h.consistent.configs_length]),
        heffect.machines]
    · refine and_congr_right fun hj => ?_
      subst hj
      simp only [hrow, Option.some_inj, exists_eq_left']
  refine ⟨heffect.consistent h.consistent, ⟨columns, ?_⟩, fun host name => ?_⟩
  · rw [heffect.machines]
    exact heffect.rectangular _ _ husage
  · have hstarted := @mem_runRequests_start c.machines
      (startOn c.systemConfig (cmdNameFromId id) config) _ (fun _ => rfl) order s.domains host name
    rw [hstarted, h.mem_iff, horder.host_iff hrange]
    simp only [hruns, and_or_left, exists_or]
    refine or_congr_right ?_
    constructor
    · rintro ⟨rfl, hhost⟩
      exact ⟨id, rfl, rfl, hhost⟩
    · rintro ⟨_, rfl, rfl, hhost⟩
      exact ⟨rfl, hhost⟩

theorem complete (h : DomainsInStep s) {id : Nat} {config : ExecuteConfig} {c : Controller}
    (hid : s.controller.Running id)
    (heffect : Controller.CompleteEffect s.controller c id config) {order : List Nat}
    {exchange : Exchange} (hdelete : deleteDomain s.controller id order = .ok exchange) :
    DomainsInStep ⟨c, runRequests exchange s.domains⟩ := by
  obtain ⟨columns, husage⟩ := h.usage
  have hrange := h.config_range hid heffect.row
  obtain ⟨horder, rfl⟩ := (deleteDomain_eq_ok_iff heffect.row hrange).mp hdelete
  have hruns : ∀ j host, RunsOn c j host ↔ RunsOn s.controller j host ∧ j ≠ id := by
    intro j host
    rw [RunsOn, heffect.running_iff, RunsOn, heffect.idToConfig, heffect.machines,
      and_right_comm]
  refine ⟨heffect.consistent h.consistent hid, ⟨columns, ?_⟩, fun host name => ?_⟩
  · rw [heffect.machines]
    exact heffect.rectangular _ _ husage
  · rw [mem_runRequests_stop, h.mem_iff, horder.host_iff hrange]
    simp only [hruns]
    constructor
    · rintro ⟨⟨j, rfl, hj⟩, hkept⟩
      refine ⟨j, rfl, hj, ?_⟩
      rintro rfl
      obtain ⟨_, config', hrow', hhost⟩ := hj
      cases heffect.row.symm.trans hrow'
      exact hkept ⟨rfl, hhost⟩
    · rintro ⟨j, rfl, hj, hne⟩
      exact ⟨⟨j, rfl, hj⟩, fun hstopped => hne (cmdNameFromId_inj hstopped.1)⟩

theorem setPhase (h : DomainsInStep s) {id : Nat} {phase : Phase}
    (hrunning : ∀ j, (s.controller.setPhase id phase).Running j ↔ s.controller.Running j) :
    DomainsInStep { s with controller := s.controller.setPhase id phase } := by
  refine ⟨h.consistent.setPhase hrunning, h.usage, fun host name => ?_⟩
  rw [h.mem_iff]
  simp only [RunsOn, hrunning]
  rfl

end DomainsInStep

theorem reachable_domainsInStep {generateCommand : CommandGenerator} {s : State}
    (hs : (system generateCommand).Reachable s) : DomainsInStep s := by
  refine hs.invariant ?_ ?_
  · rintro s ⟨machines, systemConfig, rfl⟩
    refine ⟨Controller.create_consistent machines systemConfig,
      ⟨2, Grid.rectangular_replicate machines.length [none, none]⟩, fun host name => ?_⟩
    constructor
    · rintro ⟨⟩
    · rintro ⟨_, _, ⟨_, hworker, _⟩, _⟩
      cases hworker
  · intro s action s' _ h _ hstep
    cases action with
    | execute job config order =>
        simp only [system, bind_eq_ok, Prod.exists] at hstep
        obtain ⟨c, id, hexecute, exchange, hcreate, hstep⟩ := hstep
        cases hstep
        exact h.execute (Controller.execute_effect hexecute) hcreate
    | processEnd id =>
        simp only [system, bind_eq_ok, require_eq_ok] at hstep
        obtain ⟨_, hphase, hstep⟩ := hstep
        cases hstep
        exact h.setPhase (Controller.running_setPhase_ended hphase)
    | complete id order =>
        simp only [system, bind_eq_ok, require_eq_ok] at hstep
        obtain ⟨_, hphase, exchange, hdelete, c, hcomplete, hstep⟩ := hstep
        cases hstep
        obtain ⟨config, heffect⟩ := Controller.executeCommandInternal_effect hcomplete
        exact h.complete (Controller.running_of_inPhase hphase (.inr rfl)) heffect hdelete
    | notifyAll id =>
        simp only [system, bind_eq_ok, require_eq_ok] at hstep
        obtain ⟨_, hphase, hstep⟩ := hstep
        cases hstep
        exact h.setPhase (Controller.running_setPhase_finished h.consistent hphase)

/-- Each call asks every machine of the config once, for one domain of the same name, with
everything the config has there; and over every run the domains that exist are those of
the running jobs on the machines of their slots. -/
theorem domains_in_pairs (generateCommand : CommandGenerator) :
    (∀ (c : Controller) (id : Nat) (config : ExecuteConfig), c.idToConfig[id]? = some config →
      (∀ elem ∈ config, elem.1 < c.machines.length ∧ elem.2 < c.systemConfig.slots.length) →
      ∀ order exchange,
        (createDomain c id order = .ok exchange ↔ MachinesOf config order ∧
          exchange = oneEach c.machines (fun machine => .start ⟨cmdNameFromId id,
            [cpusOn c.systemConfig config machine], [memsOn c.systemConfig config machine]⟩)
            order) ∧
        (deleteDomain c id order = .ok exchange ↔ MachinesOf config order ∧
          exchange = oneEach c.machines (fun _ => .stop (cmdNameFromId id)) order)) ∧
    ∀ s, (system generateCommand).Reachable s →
      (∀ id host, (host, cmdNameFromId id) ∈ s.domains ↔ RunsOn s.controller id host) ∧
      ∀ p id host, s.controller.machineUsage.get? p = some (some id) →
        s.controller.machines[p.1]? = some host →
        ∃ domain, Controller.domainNameFromConfigElem .cgroup [] p id = .ok domain ∧
          (host, domain.name) ∈ s.domains := by
  refine ⟨fun c id config hrow hrange order exchange => ?_, fun s hs => ?_⟩
  · have hmachines := fun elem helem => (hrange elem helem).1
    exact ⟨createDomain_eq_ok_iff hrow hmachines fun elem helem => (hrange elem helem).2,
      deleteDomain_eq_ok_iff hrow hmachines⟩
  · have h := reachable_domainsInStep hs
    constructor
    · intro id host
      rw [h.mem_iff]
      constructor
      · rintro ⟨j, hname, hruns⟩
        rwa [cmdNameFromId_inj hname]
      · exact fun hruns => ⟨id, rfl, hruns⟩
    · intro p id host howner hhost
      obtain ⟨hid, config, hrow, hp⟩ := (h.consistent.owner_iff p id).mp howner
      exact ⟨.cgroup p.1 id, rfl,
        (h.mem_iff _ _).mpr ⟨id, rfl, hid, config, hrow, p, hp, hhost⟩⟩

/-- A job on both slots of `a` and one of `b`, and a second one on `b` that completed. -/
theorem domains_in_pairs_twoJobs :
    deleteDomain sharedMachines 0 [1, 0] =
      .ok ⟨[(.migfra "b", .stop "poncos_0"), (.migfra "a", .stop "poncos_0")],
        [.migfra "b", .migfra "a"]⟩ ∧
    ∃ s, (system fun _ _ _ _ => .ok "").Reachable s ∧
      s.domains = [("a", "poncos_0"), ("b", "poncos_0")] ∧
      ("b", cmdNameFromId 0) ∈ s.domains ∧ ¬ RunsOn s.controller 1 "b" := by
  have hinit : (system fun _ _ _ _ => .ok "").Init
      ⟨Controller.create ["a", "b"] ⟨[⟨[0], [0]⟩, ⟨[1], [1]⟩]⟩, []⟩ := ⟨_, _, rfl⟩
  have hrun : ((system fun _ _ _ _ => .ok "").run
      ⟨Controller.create ["a", "b"] ⟨[⟨[0], [0]⟩, ⟨[1], [1]⟩]⟩, []⟩
      [.execute ⟨3, 1, "", false⟩ [(0, 1), (1, 0), (0, 0)] [1, 0],
       .execute ⟨1, 1, "", false⟩ [(1, 1)] [1], .processEnd 1, .complete 1 [1]]).map
        State.domains = .ok [("a", "poncos_0"), ("b", "poncos_0")] := by
    decide +kernel
  obtain ⟨s, hrun, hdomains⟩ := map_eq_ok.mp hrun
  have hs := System.run_reachable (fun _ _ => trivial) (.init hinit) hrun
  have hiff := ((domains_in_pairs fun _ _ _ _ => .ok "").2 s hs).1
  have hdelete := ((domains_in_pairs fun _ _ _ _ => .ok "").1 sharedMachines 0 [(0, 0), (1, 0)]
    rfl (by decide) [1, 0] _).2.mpr ⟨⟨by decide, by simp; omega⟩, rfl⟩
  refine ⟨hdelete, s, hs, hdomains, ?_, ?_⟩
  · rw [hdomains]
    decide
  · rw [← hiff, hdomains]
    decide

end Poncos.Cgroup
