import Poncos.Schedulers.Responses
import Poncos.Vm.SlotFile

/-!
The start and the stop of the virtual machines.  The slot files are a parameter, and so is
what a host makes out of a description.
-/

namespace Poncos.Vm

open Poncos.Library
open Poncos.Library.Document
open Poncos.Library.Execution
open Poncos.Messages

/-- The task of `stop_all_VMs`. -/
def stopTask : Messages.Stop :=
  { concurrentExecution := some true
    timeMeasurement := none
    driver := none
    vmName := none
    regex := some ".*"
    force := some true
    undefine := none }

def stopContainer : TaskContainer := ⟨[.stop stopTask], none, none⟩

def startContainer (descriptions : List String) : TaskContainer :=
  ⟨descriptions.map fun slotXml => .start (startTask slotXml), none, none⟩

theorem startContainer_injective : Function.Injective startContainer := by
  intro descriptions others h
  refine List.map_injective_iff.mpr ?_ (congrArg TaskContainer.tasks h)
  intro slotXml other h
  simpa [startTask] using h

/-- `stop_all_VMs`, as far as it sends. -/
def stopAllVms (machines : List String) : List (Channel × TaskContainer) :=
  machines.map fun machine => (.migfra machine, stopContainer)

/-- The inner loop of `start_all_VMs`, from a slot on; the front of an empty pool is
undefined. -/
def startSlots (slotFiles uuids : Nat → String) :
    Nat → Nat → List PoolElem → Exec (List Messages.Start × List String × List PoolElem)
  | 0, _, vmPool => .ok ([], [], vmPool)
  | _ + 1, _, [] => .error .outOfRange
  | slots + 1, slot, freeVm :: vmPool => do
      let rest ← startSlots slotFiles uuids slots (slot + 1) vmPool
      .ok (generateStartTask (slotFiles slot) (uuids slot) freeVm :: rest.1,
        freeVm.name :: rest.2.1, rest.2.2)

/-- `start_all_VMs`: the requests, and the table of the names.  `uuids` are what
`uuid_generate` gives, one after the other. -/
def startAll (slotFiles uuids : Nat → String) (slots : Nat) :
    List String → List PoolElem → Exec (List (Channel × TaskContainer) × VmLocations)
  | [], _ => .ok ([], [])
  | machine :: machines, vmPool => do
      let row ← startSlots slotFiles uuids slots 0 vmPool
      let rest ← startAll slotFiles (fun n => uuids (slots + n)) slots machines row.2.2
      .ok ((.migfra machine, ⟨row.1.map .start, none, none⟩) :: rest.1, row.2.1 :: rest.2)

section Start

variable {slotFiles uuids : Nat → String} {slots slot : Nat} {machines : List String}
  {vmPool left : List PoolElem} {tasks : List Messages.Start} {names : List String}
  {requests : List (Channel × TaskContainer)} {vmLocations : VmLocations}

theorem startSlots_spec
    (h : startSlots slotFiles uuids slots slot vmPool = .ok (tasks, names, left)) :
    slots ≤ vmPool.length ∧ names = (vmPool.take slots).map PoolElem.name ∧
      left = vmPool.drop slots ∧
      ∃ descriptions : List String, tasks = descriptions.map startTask ∧
        descriptions.length = slots ∧
        ∀ n vm, (vmPool.take slots)[n]? = some vm →
          descriptions[n]? = some (slotXml vm (uuids (slot + n)) (slotFiles (slot + n))) := by
  induction slots generalizing slot vmPool tasks names with
  | zero =>
      cases h
      exact ⟨Nat.zero_le _, rfl, rfl, [], rfl, rfl, by simp⟩
  | succ slots ih =>
      cases vmPool with
      | nil => cases h
      | cons freeVm vmPool =>
          simp only [startSlots, bind_eq_ok] at h
          obtain ⟨rest, hrest, h⟩ := h
          cases h
          obtain ⟨hlength, hnames, hleft, descriptions, htasks, hcount, hslots⟩ := ih hrest
          refine ⟨Nat.succ_le_succ hlength, by rw [hnames]; rfl, hleft,
            slotXml freeVm (uuids slot) (slotFiles slot) :: descriptions, by rw [htasks]; rfl, ?_, fun n vm hvm => ?_⟩
          · rw [List.length_cons, hcount]
          · cases n with
            | zero =>
                obtain rfl := Option.some_inj.mp hvm
                rfl
            | succ n =>
                rw [List.getElem?_cons_succ, hslots n vm hvm, Nat.add_right_comm, Nat.add_assoc]

variable (slotFiles uuids slot) in
theorem startSlots_ok (h : slots ≤ vmPool.length) :
    ∃ row, startSlots slotFiles uuids slots slot vmPool = .ok row := by
  induction slots generalizing slot vmPool with
  | zero => exact ⟨_, rfl⟩
  | succ slots ih =>
      cases vmPool with
      | nil => cases h
      | cons freeVm vmPool =>
          obtain ⟨rest, hrest⟩ := ih (slot + 1) (Nat.le_of_succ_le_succ h)
          exact ⟨_, by rw [startSlots, bind_of_ok hrest]⟩

variable (slotFiles uuids) in
/-- The pool is large enough, or the front of an empty pool is taken. -/
theorem startAll_ok_iff : (∃ result, startAll slotFiles uuids slots machines vmPool = .ok result) ↔
    machines.length * slots ≤ vmPool.length := by
  induction machines generalizing uuids vmPool with
  | nil => simp [startAll]
  | cons machine machines ih =>
      rw [List.length_cons, Nat.succ_mul]
      constructor
      · rintro ⟨result, h⟩
        simp only [startAll, bind_eq_ok] at h
        obtain ⟨⟨tasks, names, left⟩, hrow, rest, hrest, _⟩ := h
        obtain ⟨hlength, _, hleft, _⟩ := startSlots_spec hrow
        have hmore := (ih _).mp ⟨rest, hrest⟩
        rw [hleft, List.length_drop] at hmore
        omega
      · intro h
        obtain ⟨⟨tasks, names, left⟩, hrow⟩ := startSlots_ok slotFiles uuids 0
          (show slots ≤ vmPool.length by omega)
        obtain ⟨_, _, hleft, _⟩ := startSlots_spec hrow
        have hmore : machines.length * slots ≤ left.length := by
          rw [hleft, List.length_drop]
          omega
        obtain ⟨rest, hrest⟩ := (ih _).mpr hmore
        exact ⟨_, by rw [startAll, bind_of_ok hrow, bind_of_ok hrest]⟩

theorem startAll_channels
    (h : startAll slotFiles uuids slots machines vmPool = .ok (requests, vmLocations)) :
    requests.map Prod.fst = machines.map Channel.migfra := by
  induction machines generalizing uuids vmPool requests vmLocations with
  | nil =>
      cases h
      rfl
  | cons machine machines ih =>
      simp only [startAll, bind_eq_ok] at h
      obtain ⟨row, _, rest, hrest, h⟩ := h
      cases h
      rw [List.map_cons, List.map_cons, ih hrest]

/-- The container of a machine starts the machines of its row of the table. -/
theorem startAll_cell
    (h : startAll slotFiles uuids slots machines vmPool = .ok (requests, vmLocations)) {m : Nat}
    {machine : String} (hm : machines[m]? = some machine) :
    ∃ descriptions : List String,
      requests[m]? = some (.migfra machine, startContainer descriptions) ∧
      descriptions.length = slots ∧
      ∀ n < slots, ∃ vm ∈ vmPool, vmLocations.get? (m, n) = some vm.name ∧
        ∃ k, descriptions[n]? = some (slotXml vm (uuids k) (slotFiles n)) := by
  induction machines generalizing uuids vmPool requests vmLocations m with
  | nil => cases hm
  | cons first machines ih =>
      simp only [startAll, bind_eq_ok] at h
      obtain ⟨⟨tasks, names, left⟩, hrow, ⟨later, rows⟩, hrest, h⟩ := h
      cases h
      obtain ⟨hlength, hnames, hleft, descriptions, htasks, hcount, hslots⟩ :=
        startSlots_spec hrow
      cases m with
      | zero =>
          obtain rfl := Option.some_inj.mp hm
          refine ⟨descriptions, ?_, hcount, fun n hn => ?_⟩
          · rw [List.getElem?_cons_zero, htasks, List.map_map]
            rfl
          · have hlt : n < (vmPool.take slots).length := by
              rw [List.length_take]
              omega
            refine ⟨(vmPool.take slots)[n], List.mem_of_mem_take (List.getElem_mem hlt), ?_, n, ?_⟩
            · rw [Grid.get?_eq_some_iff]
              refine ⟨_, rfl, ?_⟩
              rw [hnames, List.getElem?_map, List.getElem?_eq_getElem hlt]
              rfl
            · rw [hslots n _ (List.getElem?_eq_getElem hlt), Nat.zero_add]
      | succ m =>
          obtain ⟨descriptions, hrequest, hcount, hcells⟩ := ih hrest hm
          refine ⟨descriptions, hrequest, hcount, fun n hn => ?_⟩
          obtain ⟨vm, hvm, hname, k, hxml⟩ := hcells n hn
          rw [hleft] at hvm
          exact ⟨vm, List.mem_of_mem_drop hvm, hname, slots + k, hxml⟩

end Start

/-- A virtual machine on a host, with the cpus its virtual cpus are pinned to. -/
abbrev Running := String × VcpuMap

abbrev Hosts := String → List Running

/-- The migration framework of a host: a forced stop for the pattern `.*` stops all that
runs there, and a container of start tasks starts what its descriptions define. -/
structure AgentSpec (agent : TaskContainer → List Running → List Running)
    (define : String → Running) : Prop where
  stops : ∀ running, agent stopContainer running = []
  starts : ∀ descriptions running,
    agent (startContainer descriptions) running = running ++ descriptions.map define

def carryOut (agent : TaskContainer → List Running → List Running)
    (request : Channel × TaskContainer) (hosts : Hosts) : Hosts := fun host =>
  if request.1 = .migfra host then agent request.2 (hosts host) else hosts host

section Hosts

variable {agent : TaskContainer → List Running → List Running} {define : String → Running}
  {machines : List String} {host : String} {hosts : Hosts}
  {carried requests : List (Channel × TaskContainer)}

theorem carryOut_self {container : TaskContainer} :
    carryOut agent (.migfra host, container) hosts host = agent container (hosts host) :=
  if_pos rfl

theorem carryOut_of_ne {request : Channel × TaskContainer} (h : request.1 ≠ .migfra host) :
    carryOut agent request hosts host = hosts host :=
  if_neg h

/-- In whatever order the hosts stop their machines, none is left. -/
theorem actAll_stop (hagent : AgentSpec agent define)
    (hstop : ∀ request ∈ carried, request.2 = stopContainer)
    (h : (∃ request ∈ carried, request.1 = .migfra host) ∨ hosts host = []) :
    actAll (carryOut agent) carried hosts host = [] := by
  induction carried generalizing hosts with
  | nil =>
      rcases h with ⟨request, hmem, _⟩ | h
      · cases hmem
      · exact h
  | cons request carried ih =>
      rw [List.forall_mem_cons] at hstop
      refine ih hstop.2 ?_
      rcases Classical.em (request.1 = .migfra host) with heq | hne
      · refine .inr ?_
        rw [carryOut, if_pos heq, hstop.1, hagent.stops]
      · rw [carryOut_of_ne hne]
        refine h.imp_left ?_
        rintro ⟨other, hother, hchannel⟩
        rcases List.mem_cons.mp hother with rfl | hother
        · exact absurd hchannel hne
        · exact ⟨other, hother, hchannel⟩

theorem stopAllVms_stops (hagent : AgentSpec agent define)
    (hcarried : carried.Perm (stopAllVms machines)) (hhost : host ∈ machines) :
    actAll (carryOut agent) carried hosts host = [] := by
  refine actAll_stop hagent (fun request hrequest => ?_) (.inl ?_)
  · obtain ⟨machine, _, rfl⟩ := List.mem_map.mp (hcarried.mem_iff.mp hrequest)
    rfl
  · exact ⟨_, hcarried.mem_iff.mpr (List.mem_map_of_mem hhost), rfl⟩

theorem mem_actAll_start (hagent : AgentSpec agent define)
    (hstarts : ∀ request ∈ carried, ∃ descriptions, request.2 = startContainer descriptions)
    {vm : Running} :
    vm ∈ actAll (carryOut agent) carried hosts host ↔
      vm ∈ hosts host ∨ ∃ descriptions, (.migfra host, startContainer descriptions) ∈ carried ∧
        vm ∈ descriptions.map define := by
  induction carried generalizing hosts with
  | nil => simp [actAll]
  | cons request carried ih =>
      obtain ⟨⟨descriptions, hrequest⟩, hrest⟩ := List.forall_mem_cons.mp hstarts
      rw [actAll, ih hrest]
      rcases request with ⟨channel, container⟩
      obtain rfl : container = _ := hrequest
      rcases Classical.em (channel = .migfra host) with rfl | hne
      · rw [carryOut_self, hagent.starts, List.mem_append, or_assoc]
        refine or_congr Iff.rfl ?_
        constructor
        · rintro (hvm | ⟨more, hmore, hvm⟩)
          · exact ⟨descriptions, List.mem_cons_self, hvm⟩
          · exact ⟨more, List.mem_cons_of_mem _ hmore, hvm⟩
        · rintro ⟨more, hmore, hvm⟩
          rcases List.mem_cons.mp hmore with heq | hmore
          · rw [startContainer_injective (Prod.mk.inj heq).2] at hvm
            exact .inl hvm
          · exact .inr ⟨more, hmore, hvm⟩
      · rw [carryOut_of_ne hne]
        refine or_congr Iff.rfl (exists_congr fun more => and_congr ?_ Iff.rfl)
        rw [List.mem_cons, or_iff_right fun heq => hne (Prod.mk.inj heq).1.symm]

end Hosts

/-- The cpus a virtual machine of a slot is pinned to. -/
def Slot.pinning (slot : Slot) : VcpuMap := slot.cpus.map fun cpu => [cpu]

/-- The slot files: each is a description that pins to the cpus of its slot, and a host
reads the name in the line of the name, whatever is put into the lines. -/
structure SlotSpec (define : String → Running) (files : Nat → SlotFile)
    (slots : List Slot) : Prop where
  wellFormed : ∀ n < slots.length, ∀ line ∈ files n, line.WellFormed
  name : ∀ n < slots.length, ∀ freeVm uuid, freeVm.Plain → IsUuid uuid.toList →
    (define ((files n).fill freeVm uuid).text).1 = freeVm.name
  pinning : ∀ n < slots.length, ∀ freeVm uuid, freeVm.Plain → IsUuid uuid.toList →
    (define ((files n).fill freeVm uuid).text).2 = (define (files n).text).2
  slot : ∀ n slot, slots[n]? = some slot → (define (files n).text).2 = Slot.pinning slot

section LifeCycle

variable {agent : TaskContainer → List Running → List Running} {define : String → Running}
  {files : Nat → SlotFile} {uuids : Nat → String} {machines : List String} {systemConfig : SystemConfig}
  {vmPool : List PoolElem} {vmLocations : VmLocations} {hosts : Hosts} {host : String}
  {stopped started requests : List (Channel × TaskContainer)} {vm : Running}

/-- What a host defines out of a slot file after `generate_start_task`. -/
theorem SlotSpec.define_slotXml {slots : List Slot} (hfiles : SlotSpec define files slots)
    {n : Nat} {slot : Slot} {freeVm : PoolElem} {uuid : String} (hslot : slots[n]? = some slot)
    (hvm : freeVm.Plain) (huuid : IsUuid uuid.toList) :
    define (slotXml freeVm uuid (files n).text) = (freeVm.name, Slot.pinning slot) := by
  have hlt := (List.getElem?_eq_some_iff.mp hslot).1
  rw [slotXml_text (hfiles.wellFormed n hlt) hvm huuid]
  exact Prod.ext (hfiles.name n hlt freeVm uuid hvm huuid)
    ((hfiles.pinning n hlt freeVm uuid hvm huuid).trans (hfiles.slot n slot hslot))

/-- After `init`, a host runs what its rows of the table say, whatever ran there before. -/
theorem running_iff (hagent : AgentSpec agent define)
    (hfiles : SlotSpec define files systemConfig.slots) (huuids : ∀ k, IsUuid (uuids k).toList)
    (hplain : ∀ freeVm ∈ vmPool, freeVm.Plain)
    (h : startAll (fun n => (files n).text) uuids systemConfig.slots.length machines vmPool =
      .ok (requests, vmLocations))
    (hstopped : stopped.Perm (stopAllVms machines)) (hstarted : started.Perm requests)
    (hhost : host ∈ machines) :
    vm ∈ actAll (carryOut agent) started (actAll (carryOut agent) stopped hosts) host ↔
      ∃ m n slot, machines[m]? = some host ∧ systemConfig.slots[n]? = some slot ∧
        vmLocations.get? (m, n) = some vm.1 ∧ vm.2 = Slot.pinning slot := by
  have hchannels := startAll_channels h
  have hmachine : ∀ (m : Nat) (request : Channel × TaskContainer), requests[m]? = some request →
      ∃ machine, machines[m]? = some machine ∧ request.1 = .migfra machine := by
    intro m request hm
    have hchannel := congrArg (fun channels => channels[m]?) hchannels
    simp only [List.getElem?_map, hm, Option.map_some] at hchannel
    obtain ⟨machine, hmachine, heq⟩ := Option.map_eq_some_iff.mp hchannel.symm
    exact ⟨machine, hmachine, heq.symm⟩
  rw [mem_actAll_start hagent, stopAllVms_stops hagent hstopped hhost]
  · simp only [List.not_mem_nil, false_or, hstarted.mem_iff]
    constructor
    · rintro ⟨descriptions, hrequest, hvm⟩
      obtain ⟨m, hm⟩ := List.getElem?_of_mem hrequest
      obtain ⟨machine, hmach, hchannel⟩ := hmachine m _ hm
      obtain rfl := Channel.migfra.inj hchannel
      obtain ⟨descriptions', hm', hcount, hcells⟩ := startAll_cell h hmach
      obtain rfl := startContainer_injective (Prod.mk.inj (Option.some_inj.mp
        (hm.symm.trans hm'))).2
      obtain ⟨xml, hmem, rfl⟩ := List.mem_map.mp hvm
      obtain ⟨n, hn⟩ := List.getElem?_of_mem hmem
      have hlt : n < systemConfig.slots.length := by
        rw [← hcount]
        exact (List.getElem?_eq_some_iff.mp hn).1
      obtain ⟨freeVm, hfree, hname, k, hdescription⟩ := hcells n hlt
      obtain rfl := Option.some_inj.mp (hn.symm.trans hdescription)
      have hslot := List.getElem?_eq_getElem hlt
      have hdefine := hfiles.define_slotXml hslot (hplain freeVm hfree) (huuids k)
      exact ⟨m, n, _, hmach, hslot, by rw [hdefine, hname], by rw [hdefine]⟩
    · rintro ⟨m, n, slot, hmach, hslot, hname, hpinning⟩
      obtain ⟨descriptions, hm, _, hcells⟩ := startAll_cell h hmach
      obtain ⟨freeVm, hfree, hname', k, hdescription⟩ :=
        hcells n (List.getElem?_eq_some_iff.mp hslot).1
      refine ⟨descriptions, List.mem_of_getElem? hm, ?_⟩
      refine List.mem_map.mpr ⟨_, List.mem_of_getElem? hdescription, ?_⟩
      rw [hfiles.define_slotXml hslot (hplain freeVm hfree) (huuids k), ← hpinning,
        Option.some_inj.mp (hname'.symm.trans hname)]
  · intro request hrequest
    obtain ⟨m, hm⟩ := List.getElem?_of_mem (hstarted.mem_iff.mp hrequest)
    obtain ⟨machine, hmach, _⟩ := hmachine m request hm
    obtain ⟨descriptions, hm', _⟩ := startAll_cell h hmach
    rw [Option.some_inj.mp (hm.symm.trans hm')]
    exact ⟨descriptions, rfl⟩

end LifeCycle

section SmallFiles

variable {front text back : List Char} {c : Char}

variable (cpu : Char) (freeVm : PoolElem) (uuid : String)

end SmallFiles

end Poncos.Vm
