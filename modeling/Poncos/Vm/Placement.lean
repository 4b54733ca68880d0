import Poncos.Controller.TableRuns
import Poncos.Library.LocalActions
import Poncos.Vm.TablesMove

/-!
Where the VMs really are.  The migrations of one call are all requested before any
result is awaited, so they are carried out in any order; nevertheless the table of
VM names shows the host of every VM and the cpus it is pinned to.
-/

namespace Poncos.Vm

open Poncos.Library
open Poncos.Library.Execution
open Poncos.Library.Transition
open Poncos.Controller

/-- The host a VM runs on, and the cpus its virtual cpus are pinned to. -/
structure Guest where
  host : String
  pinning : VcpuMap
  deriving DecidableEq, Repr

/-- The VMs by their names. -/
abbrev Guests := String → Guest

/-- What the migration service does: the two VMs exchange their hosts, and each of
them is pinned anew where the task says so. -/
def Migrate.carryOut (task : Migrate) (guests : Guests) : Guests := fun name =>
  if name = task.vmName then
    ⟨(guests task.swapWith.vmName).host, task.vcpuMap.getD (guests name).pinning⟩
  else if name = task.swapWith.vmName then
    ⟨(guests task.vmName).host, task.swapWith.vcpuMap.getD (guests name).pinning⟩
  else guests name

/-- The table `start_all_VMs` fills: VMs of the pool for the slots of every machine. -/
def startAllVms (slots : Nat) : List String → List String → Exec VmLocations
  | [], _ => .ok []
  | _ :: machines, vmPool =>
      if slots ≤ vmPool.length then do
        let rest ← startAllVms slots machines (vmPool.drop slots)
        .ok (vmPool.take slots :: rest)
      else .error .outOfRange

/-- A VM on the host and the cpus of slot `p`. -/
def PlacedAt (c : Controller) (p : Cell) (guest : Guest) : Prop :=
  c.machines[p.1]? = some guest.host ∧
    c.systemConfig.slots[p.2]?.map (fun slot => slot.cpus.map fun cpu => [cpu]) =
      some guest.pinning

structure State where
  controller : Controller
  vmLocations : VmLocations
  guests : Guests

inductive Action where
  | execute (job : Job) (config : ExecuteConfig)
  | complete (id : Nat)
  | updateConfig (id : Nat) (newConfig : ExecuteConfig) (carried : List (String × Migrate))

/-- Jobs are started, moved and completed; `carried` are the migrations of a call in
the order they are carried out. -/
def placementSystem (generateCommand : VmLocations → CommandGenerator) :
    System State Action where
  Init s := ∃ machines systemConfig vmPool, vmPool.Nodup ∧
    startAllVms systemConfig.slots.length machines vmPool = .ok s.vmLocations ∧
    s.controller = create machines systemConfig ∧
    ∀ p name, s.vmLocations.get? p = some name → PlacedAt s.controller p (s.guests name)
  step s
    | .execute job config => do
        let (c, _) ← s.controller.execute (generateCommand s.vmLocations) job config
        .ok { s with controller := c }
    | .complete id => do
        require (s.controller.Running id)
        let c ← s.controller.executeCommandInternal id
        .ok { s with controller := c }
    | .updateConfig id newConfig carried => do
        let (c, vmLocations, tasks) ← updateConfig id newConfig s.controller s.vmLocations
        require (carried.Perm tasks)
        .ok ⟨c, vmLocations, actAll Migrate.carryOut (carried.map Prod.snd) s.guests⟩

/-- The calls of `update_config` that are made: the new config has no slot twice, and a
position that moves goes to an occupied slot of another job on another machine. -/
def CallAllowed (s : State) : Action → Prop
  | .updateConfig id newConfig _ => s.controller.MovableJob id ∧ newConfig.Nodup ∧
      ∀ oldConfig, s.controller.idToConfig[id]? = some oldConfig →
        ∀ p ∈ oldConfig.zip newConfig, p.1 ≠ p.2 → p.1.1 ≠ p.2.1 ∧ p.2 ∉ oldConfig ∧
          ∃ j, j ≠ id ∧ s.controller.machineUsage.get? p.2 = some (some j)
  | _ => True

/-- Every slot shows a VM, which is on its machine and pinned to exactly its cpus. -/
def RecordedPlacement (s : State) : Prop :=
  ∀ m host n slot, s.controller.machines[m]? = some host →
    s.controller.systemConfig.slots[n]? = some slot →
    ∃ name, s.vmLocations.get? (m, n) = some name ∧
      s.guests name = ⟨host, slot.cpus.map fun cpu => [cpu]⟩

/-- The two VMs a task moves. -/
def Migrate.vms (task : Migrate) : String × String := (task.vmName, task.swapWith.vmName)

theorem carryOut_actsOn : ActsOn Migrate.vms Migrate.carryOut := by
  refine ⟨?_, ?_⟩
  · intro task guests name hfst hsnd
    exact (if_neg hfst).trans (if_neg hsnd)
  · intro task guests guests' name hname hfst hsnd
    have hself : guests name = guests' name := by
      rcases hname with rfl | rfl
      · exact hfst
      · exact hsnd
    rw [Migrate.carryOut, Migrate.carryOut, hself]
    change (if _ then Guest.mk (guests task.vms.2).host _ else
      if _ then Guest.mk (guests task.vms.1).host _ else _) = _
    rw [hfst, hsnd]
    rfl

/-- What a task says about the two slots it exchanges. -/
structure Requested (c : Controller) (vmLocations : VmLocations)
    (move : ExecuteConfigElem × ExecuteConfigElem) (task : Migrate) : Prop where
  hosts : move.1.1 ≠ move.2.1
  source : vmLocations.get? move.1 = some task.vmName
  dest : vmLocations.get? move.2 = some task.swapWith.vmName
  sameSlot : move.1.2 = move.2.2 → task.vcpuMap = none ∧ task.swapWith.vcpuMap = none
  otherSlot : move.1.2 ≠ move.2.2 → ∃ vcpuMap swapVcpuMap,
    generateVcpuMap c.systemConfig move.2.2 = .ok vcpuMap ∧ task.vcpuMap = some vcpuMap ∧
    generateVcpuMap c.systemConfig move.1.2 = .ok swapVcpuMap ∧
    task.swapWith.vcpuMap = some swapVcpuMap

theorem requestSwap_same {c : Controller} {vmLocations : VmLocations} {id : Nat}
    {oldConfig : ExecuteConfig} {move : ExecuteConfigElem × ExecuteConfigElem}
    {task : Option (String × Migrate)} (hhost : move.1.1 = move.2.1)
    (h : requestSwap c vmLocations id oldConfig move = .ok task) : task = none := by
  simp only [requestSwap, if_pos hhost, bind_eq_ok] at h
  obtain ⟨_, _, h⟩ := h
  cases h
  rfl

theorem requestSwap_requested {c : Controller} {vmLocations : VmLocations} {id : Nat}
    {oldConfig : ExecuteConfig} {move : ExecuteConfigElem × ExecuteConfigElem}
    {task : Option (String × Migrate)} (hhost : move.1.1 ≠ move.2.1)
    (h : requestSwap c vmLocations id oldConfig move = .ok task) :
    ∃ srcHost migrate, task = some (srcHost, migrate) ∧
      c.machines[move.1.1]? = some srcHost ∧
      c.machines[move.2.1]? = some migrate.destHostname ∧
      Requested c vmLocations move migrate := by
  simp only [requestSwap, if_neg hhost, bind_eq_ok, fetch_eq_ok, Grid.read_eq_ok] at h
  obtain ⟨srcHost, hsrcHost, _, hdestHost, _, hsrc, _, hdest, _, _, _, _, destJob, _, h⟩ := h
  have hmaps : ∃ migrate, task = some (srcHost, migrate) ∧
      c.machines[move.2.1]? = some migrate.destHostname ∧
      vmLocations.get? move.1 = some migrate.vmName ∧
      vmLocations.get? move.2 = some migrate.swapWith.vmName ∧
      (if move.1.2 = move.2.2 then .ok none
        else some <$> generateVcpuMap c.systemConfig move.2.2) = .ok migrate.vcpuMap ∧
      (if move.1.2 = move.2.2 then .ok none
        else some <$> generateVcpuMap c.systemConfig move.1.2) =
          .ok migrate.swapWith.vcpuMap := by
    split at h
    all_goals
      rename_i hslot
      simp only [bind_eq_ok] at h
      obtain ⟨_, hvcpu, _, hswap, h⟩ := h
      split at h
      · simp only [bind_eq_ok] at h
        obtain ⟨_, _, _, _, h⟩ := h
        cases h
        refine ⟨_, rfl, hdestHost, hsrc, hdest, ?_, ?_⟩
        · simpa only [hslot, if_true, if_false] using hvcpu
        · simpa only [hslot, if_true, if_false] using hswap
      · simp only [bind_eq_ok] at h
        obtain ⟨_, _, h⟩ := h
        cases h
        refine ⟨_, rfl, hdestHost, hsrc, hdest, ?_, ?_⟩
        · simpa only [hslot, if_true, if_false] using hvcpu
        · simpa only [hslot, if_true, if_false] using hswap
  obtain ⟨migrate, rfl, hdestHost, hsrc, hdest, hvcpu, hswap⟩ := hmaps
  refine ⟨srcHost, migrate, rfl, hsrcHost, hdestHost, hhost, hsrc, hdest, ?_, ?_⟩
  · intro hslot
    rw [if_pos hslot] at hvcpu hswap
    exact ⟨(Except.ok.inj hvcpu).symm, (Except.ok.inj hswap).symm⟩
  · intro hslot
    rw [if_neg hslot] at hvcpu hswap
    obtain ⟨pins, hpins, hvcpu⟩ := map_eq_ok.mp hvcpu
    obtain ⟨swapPins, hswapPins, hswap⟩ := map_eq_ok.mp hswap
    exact ⟨pins, swapPins, hpins, hvcpu.symm, hswapPins, hswap.symm⟩

theorem generateVcpuMap_eq {systemConfig : SystemConfig} {slot : Nat} {vcpuMap : VcpuMap}
    (h : generateVcpuMap systemConfig slot = .ok vcpuMap) :
    systemConfig.slots[slot]?.map (fun slot => slot.cpus.map fun cpu => [cpu]) =
      some vcpuMap := by
  simp only [generateVcpuMap, bind_eq_ok, fetch_eq_ok] at h
  obtain ⟨s, hs, _, _, h⟩ := h
  cases h
  rw [hs]
  rfl

section Tasks

variable {c : Controller} {vmLocations : VmLocations} {task : Migrate} {guests : Guests}
  {move : ExecuteConfigElem × ExecuteConfigElem}

/-- A task carried out alone leaves both its VMs where the exchanged table says. -/
theorem Requested.placed (h : Requested c vmLocations move task)
    (hplaced : ∀ p name, vmLocations.get? p = some name → PlacedAt c p (guests name))
    (hne : task.vmName ≠ task.swapWith.vmName) :
    PlacedAt c move.2 (task.carryOut guests task.vmName) ∧
      PlacedAt c move.1 (task.carryOut guests task.swapWith.vmName) := by
  obtain ⟨hsrcHost, hsrcPins⟩ := hplaced _ _ h.source
  obtain ⟨hdestHost, hdestPins⟩ := hplaced _ _ h.dest
  rw [Migrate.carryOut, if_pos rfl, Migrate.carryOut, if_neg hne.symm, if_pos rfl]
  rcases eq_or_ne move.1.2 move.2.2 with hslot | hslot
  · obtain ⟨hvcpu, hswap⟩ := h.sameSlot hslot
    rw [hvcpu, hswap]
    exact ⟨⟨hdestHost, hslot ▸ hsrcPins⟩, ⟨hsrcHost, hslot ▸ hdestPins⟩⟩
  · obtain ⟨vcpuMap, swapVcpuMap, hpins, hvcpu, hswapPins, hswap⟩ := h.otherSlot hslot
    rw [hvcpu, hswap]
    exact ⟨⟨hdestHost, generateVcpuMap_eq hpins⟩, ⟨hsrcHost, generateVcpuMap_eq hswapPins⟩⟩

end Tasks

/-- What holds between two calls. -/
structure Tracked (s : State) : Prop where
  consistent : s.controller.Consistent
  located : ∀ p, (s.vmLocations.get? p).isSome ↔
    p.1 < s.controller.machines.length ∧ p.2 < s.controller.systemConfig.slots.length
  names : ∀ p q name, s.vmLocations.get? p = some name → s.vmLocations.get? q = some name →
    p = q
  placed : ∀ p name, s.vmLocations.get? p = some name →
    PlacedAt s.controller p (s.guests name)

theorem Tracked.recorded {s : State} (h : Tracked s) : RecordedPlacement s := by
  intro m host n slot hm hn
  have hm' := (List.getElem?_eq_some_iff.mp hm).1
  have hn' := (List.getElem?_eq_some_iff.mp hn).1
  obtain ⟨name, hname⟩ := Option.isSome_iff_exists.mp ((h.located (m, n)).mpr ⟨hm', hn'⟩)
  obtain ⟨hhost, hpins⟩ := h.placed _ _ hname
  rw [hm, Option.some_inj] at hhost
  rw [hn, Option.map_some, Option.some_inj] at hpins
  refine ⟨name, hname, ?_⟩
  rw [hhost, hpins]

theorem startAllVms_spec {slots : Nat} {machines vmPool : List String}
    {vmLocations : VmLocations} (h : startAllVms slots machines vmPool = .ok vmLocations) :
    vmLocations.Rectangular machines.length slots ∧ vmLocations.flatten.Sublist vmPool := by
  induction machines generalizing vmPool vmLocations with
  | nil =>
      cases h
      exact ⟨⟨rfl, by simp⟩, List.nil_sublist _⟩
  | cons machine machines ih =>
      rw [startAllVms] at h
      split at h
      · rename_i hpool
        simp only [bind_eq_ok] at h
        obtain ⟨rest, hrest, h⟩ := h
        cases h
        obtain ⟨⟨hrows, hcolumns⟩, hsub⟩ := ih hrest
        refine ⟨⟨by rw [List.length_cons, hrows, List.length_cons], ?_⟩, ?_⟩
        · intro row hrow
          rcases List.mem_cons.mp hrow with rfl | hrow
          · exact List.length_take_of_le hpool
          · exact hcolumns row hrow
        · rw [List.flatten_cons]
          conv => rhs; rw [← List.take_append_drop slots vmPool]
          exact hsub.append_left _
      · cases h

theorem Tracked.start {s : State} (hs : ∃ machines systemConfig vmPool, vmPool.Nodup ∧
    startAllVms systemConfig.slots.length machines vmPool = .ok s.vmLocations ∧
    s.controller = create machines systemConfig ∧
    ∀ p name, s.vmLocations.get? p = some name →
      PlacedAt s.controller p (s.guests name)) : Tracked s := by
  obtain ⟨machines, systemConfig, vmPool, hnodup, hstart, hcontroller, hplaced⟩ := hs
  obtain ⟨hrect, hsub⟩ := startAllVms_spec hstart
  refine ⟨?_, ?_, fun _ _ _ => cell_eq_of_name (hsub.nodup hnodup), hplaced⟩
  · rw [hcontroller]
    exact create_consistent machines systemConfig
  · rw [hcontroller]
    exact hrect.isSome_iff

/-- A task, and the host it is sent to. -/
structure Sent (c : Controller) (vmLocations : VmLocations)
    (move : ExecuteConfigElem × ExecuteConfigElem) (task : String × Migrate) : Prop where
  srcHost : c.machines[move.1.1]? = some task.1
  destHost : c.machines[move.2.1]? = some task.2.destHostname
  requested : Requested c vmLocations move task.2

/-- The tasks of a call, one for every position that changes its machine. -/
theorem tasks_sent {c : Controller} {vmLocations : VmLocations} {id : Nat}
    {oldConfig : ExecuteConfig} {moves : List (ExecuteConfigElem × ExecuteConfigElem)}
    {tasks : List (Option (String × Migrate))}
    (h : moves.mapM (requestSwap c vmLocations id oldConfig) = .ok tasks) :
    List.Forall₂ (Sent c vmLocations) (moves.filter fun move => decide (move.1.1 ≠ move.2.1))
      (tasks.filterMap fun task => task) := by
  rw [mapM_eq_ok_iff] at h
  induction h with
  | nil => exact .nil
  | @cons move task moves tasks hmove _ ih =>
      rcases eq_or_ne move.1.1 move.2.1 with hhost | hhost
      · rw [requestSwap_same hhost hmove, List.filter_cons_of_neg (by simp [hhost]),
          List.filterMap_cons_none rfl]
        exact ih
      · obtain ⟨srcHost, migrate, rfl, hsrc, hdest, hrequested⟩ :=
          requestSwap_requested hhost hmove
        rw [List.filter_cons_of_pos (by simp [hhost])]
        exact .cons ⟨hsrc, hdest, hrequested⟩ ih

theorem tasks_requested {c : Controller} {vmLocations : VmLocations} {id : Nat}
    {oldConfig : ExecuteConfig} {moves : List (ExecuteConfigElem × ExecuteConfigElem)}
    {tasks : List (Option (String × Migrate))}
    (h : moves.mapM (requestSwap c vmLocations id oldConfig) = .ok tasks) :
    List.Forall₂ (Requested c vmLocations)
      (moves.filter fun move => decide (move.1.1 ≠ move.2.1))
      ((tasks.filterMap fun task => task).map Prod.snd) :=
  List.forall₂_map_right_iff.mpr ((tasks_sent h).imp fun _ _ hsent => hsent.requested)

section Calls

variable {c : Controller} {vmLocations : VmLocations}
  {moves : List (ExecuteConfigElem × ExecuteConfigElem)} {tasks : List Migrate}

/-- The tasks of separate moves are about different VMs. -/
theorem separate_vms (h : List.Forall₂ (Requested c vmLocations) moves tasks)
    (hnames : ∀ p q name, vmLocations.get? p = some name → vmLocations.get? q = some name →
      p = q) (hseparate : SeparateMoves moves) : SeparateMoves (tasks.map Migrate.vms) := by
  have hdiffer : ∀ p q name name', p ≠ q → vmLocations.get? p = some name →
      vmLocations.get? q = some name' → name ≠ name' := by
    rintro p q name _ hne hp hq rfl
    exact hne (hnames p q name hp hq)
  have hvms : List.Forall₂ (fun move vms => vmLocations.get? move.1 = some vms.1 ∧
      vmLocations.get? move.2 = some vms.2) moves (tasks.map Migrate.vms) :=
    List.forall₂_map_right_iff.mpr (h.imp fun _ _ hrequested =>
      ⟨hrequested.source, hrequested.dest⟩)
  refine pairwise_of_forall₂ hvms hseparate ?_
  rintro move move' vms vms' ⟨hsrc, hdest⟩ ⟨hsrc', hdest'⟩ ⟨⟨h₁, h₂⟩, h₃, h₄⟩
  exact ⟨⟨hdiffer _ _ _ _ h₁ hsrc hsrc', hdiffer _ _ _ _ h₂ hsrc hdest'⟩,
    hdiffer _ _ _ _ h₃ hdest hsrc', hdiffer _ _ _ _ h₄ hdest hdest'⟩

end Calls

/-- The migrations of one call: those its moves ask for, about different VMs. -/
structure Migrations (c : Controller) (vmLocations : VmLocations)
    (moves : List (ExecuteConfigElem × ExecuteConfigElem)) (carried : List Migrate) :
    Prop where
  same : SameHostSameSlot moves
  separate : SeparateMoves moves
  vms : SeparateMoves (carried.map Migrate.vms)
  each : ∀ move ∈ moves, move.1.1 ≠ move.2.1 →
    ∃ task ∈ carried, Requested c vmLocations move task
  only : ∀ task ∈ carried, ∃ move ∈ moves, Requested c vmLocations move task

section Carried

variable {c : Controller} {vmLocations : VmLocations}
  {moves : List (ExecuteConfigElem × ExecuteConfigElem)} {carried : List Migrate}
  {guests : Guests}
  (hnames : ∀ p q name, vmLocations.get? p = some name → vmLocations.get? q = some name →
    p = q)

include hnames

theorem Migrations.of_tasks {id : Nat} {oldConfig : ExecuteConfig}
    {tasks : List (Option (String × Migrate))} (hsame : SameHostSameSlot moves)
    (hseparate : SeparateMoves moves)
    (htasks : moves.mapM (requestSwap c vmLocations id oldConfig) = .ok tasks)
    (hcarried : carried.Perm ((tasks.filterMap fun task => task).map Prod.snd)) :
    Migrations c vmLocations moves carried := by
  have h := tasks_requested htasks
  refine ⟨hsame, hseparate, ?_, ?_, ?_⟩
  · exact (separate_vms h hnames (hseparate.filter _)).perm (hcarried.symm.map _)
  · intro move hmove hhost
    obtain ⟨task, htask, hrequested⟩ :=
      exists_of_forall₂ h (List.mem_filter.mpr ⟨hmove, decide_eq_true hhost⟩)
    exact ⟨task, hcarried.mem_iff.mpr htask, hrequested⟩
  · intro task htask
    obtain ⟨move, hmove, hrequested⟩ := exists_of_forall₂ h.flip (hcarried.mem_iff.mp htask)
    exact ⟨move, (List.mem_filter.mp hmove).1, hrequested⟩

/-- Both slots of a move show a VM that is there. -/
theorem Migrations.placedAt_moved (h : Migrations c vmLocations moves carried)
    (hplaced : ∀ p name, vmLocations.get? p = some name → PlacedAt c p (guests name))
    {move : ExecuteConfigElem × ExecuteConfigElem} (hmove : move ∈ moves)
    (hhost : move.1.1 ≠ move.2.1) {name : String} :
    (vmLocations.get? move.1 = some name →
      PlacedAt c move.2 (actAll Migrate.carryOut carried guests name)) ∧
    (vmLocations.get? move.2 = some name →
      PlacedAt c move.1 (actAll Migrate.carryOut carried guests name)) := by
  obtain ⟨task, htask, hrequested⟩ := h.each move hmove hhost
  have hne : task.vmName ≠ task.swapWith.vmName := by
    intro heq
    have hdest := hrequested.dest
    rw [← heq] at hdest
    exact hhost (congrArg Prod.fst (hnames _ _ _ hrequested.source hdest))
  obtain ⟨hdest, hsource⟩ := hrequested.placed hplaced hne
  constructor
  · intro hname
    obtain rfl := Option.some_inj.mp (hname.symm.trans hrequested.source)
    have halone := carryOut_actsOn.actAll_alone h.vms htask (g := guests) (.inl rfl)
    exact halone ▸ hdest
  · intro hname
    obtain rfl := Option.some_inj.mp (hname.symm.trans hrequested.dest)
    have halone := carryOut_actsOn.actAll_alone h.vms htask (g := guests) (.inr rfl)
    exact halone ▸ hsource

/-- A VM whose slot no move changes is not touched. -/
theorem Migrations.frame (h : Migrations c vmLocations moves carried) {p : Cell}
    {name : String} (hname : vmLocations.get? p = some name) (hfix : swapSeq moves p = p) :
    actAll Migrate.carryOut carried guests name = guests name := by
  apply carryOut_actsOn.actAll_frame
  intro task htask
  obtain ⟨move, hmove, hrequested⟩ := h.only task htask
  constructor
  · rintro rfl
    obtain rfl := hnames _ _ _ hname hrequested.source
    rw [h.separate.swapSeq_fst hmove] at hfix
    exact hrequested.hosts (congrArg Prod.fst hfix.symm)
  · rintro rfl
    obtain rfl := hnames _ _ _ hname hrequested.dest
    rw [h.separate.swapSeq_snd hmove] at hfix
    exact hrequested.hosts (congrArg Prod.fst hfix)

/-- Carried out in any order, the migrations follow the exchanged table. -/
theorem Migrations.placedAt (h : Migrations c vmLocations moves carried)
    (hplaced : ∀ p name, vmLocations.get? p = some name → PlacedAt c p (guests name))
    {p : Cell} {name : String} (hname : vmLocations.get? (swapSeq moves p) = some name) :
    PlacedAt c p (actAll Migrate.carryOut carried guests name) := by
  rcases Classical.em (swapSeq moves p = p) with hfix | hmoves
  · rw [hfix] at hname
    rw [h.frame hnames hname hfix]
    exact hplaced p name hname
  rcases h.separate.cases p with ⟨move, hmove, rfl, heq⟩ | ⟨move, hmove, rfl, heq⟩ | ⟨_, heq⟩
  · rw [heq] at hname hmoves
    exact (h.placedAt_moved hnames hplaced hmove
      fun hhost => hmoves (h.same move hmove hhost).symm).2 hname
  · rw [heq] at hname hmoves
    exact (h.placedAt_moved hnames hplaced hmove
      fun hhost => hmoves (h.same move hmove hhost)).1 hname
  · exact absurd heq hmoves

end Carried

theorem nodup_of_movableJob {c : Controller} (hc : c.Consistent) {id : Nat}
    {config : ExecuteConfig} (hmov : c.MovableJob id)
    (hrow : c.idToConfig[id]? = some config) : config.Nodup := by
  rcases hmov with hid | hidle
  · exact hc.nodup hid hrow
  · have hcell := Grid.get?_of_row (g := c.placement.configs) hrow
    refine List.pairwise_iff_getElem.mpr fun i j hi hj hij heq => ?_
    have hentry := (hcell i).trans (List.getElem?_eq_getElem hi)
    have hentry' := (hcell j).trans (List.getElem?_eq_getElem hj)
    rw [← heq] at hentry'
    have := (hidle i _ (Nat.zero_le i) hentry).2 j (Nat.zero_le j) hentry'
    omega

theorem callAllowed_separate {s : State} (hc : s.controller.Consistent) {id : Nat}
    {oldConfig newConfig : ExecuteConfig} {carried : List (String × Migrate)}
    (hallowed : CallAllowed s (.updateConfig id newConfig carried))
    (hrow : s.controller.idToConfig[id]? = some oldConfig)
    (hlen : oldConfig.length = newConfig.length) :
    SeparateMoves (oldConfig.zip newConfig) := by
  obtain ⟨hmov, hnodup, hmoves⟩ := hallowed
  have hfst : (oldConfig.zip newConfig).map Prod.fst = oldConfig := List.map_fst_zip hlen.le
  have hsnd : (oldConfig.zip newConfig).map Prod.snd = newConfig := List.map_snd_zip hlen.ge
  refine separateMoves_of_fresh ?_ ?_ fun p hp hmove => ?_
  · rw [hfst]
    exact nodup_of_movableJob hc hmov hrow
  · rw [hsnd]
    exact hnodup
  · rw [hfst]
    exact (hmoves oldConfig hrow p hp hmove).2.1

theorem Tracked.step {generateCommand : VmLocations → CommandGenerator} {s s' : State}
    {action : Action} (h : Tracked s) (hallowed : CallAllowed s action)
    (hstep : (placementSystem generateCommand).step s action = .ok s') : Tracked s' := by
  cases action with
  | execute job config =>
      simp only [placementSystem, bind_eq_ok, Prod.exists] at hstep
      obtain ⟨c, id, hexecute, hstep⟩ := hstep
      cases hstep
      have heffect := execute_effect hexecute
      refine ⟨heffect.consistent h.consistent, ?_, h.names, ?_⟩
      · rw [heffect.machines, heffect.systemConfig]
        exact h.located
      · intro p name hname
        rw [PlacedAt, heffect.machines, heffect.systemConfig]
        exact h.placed p name hname
  | complete id =>
      simp only [placementSystem, bind_eq_ok, require_eq_ok] at hstep
      obtain ⟨_, hid, c, hcomplete, hstep⟩ := hstep
      cases hstep
      obtain ⟨_, heffect⟩ := executeCommandInternal_effect hcomplete
      refine ⟨heffect.consistent h.consistent hid, ?_, h.names, ?_⟩
      · rw [heffect.machines, heffect.systemConfig]
        exact h.located
      · intro p name hname
        rw [PlacedAt, heffect.machines, heffect.systemConfig]
        exact h.placed p name hname
  | updateConfig id newConfig carried =>
      have hmov := hallowed.1
      simp only [placementSystem, bind_eq_ok, require_eq_ok, Prod.exists] at hstep
      obtain ⟨c, vmLocations, tasks, hupdate, _, hcarried, hstep⟩ := hstep
      cases hstep
      obtain ⟨oldConfig, hok⟩ := updateConfig_ok hupdate
      obtain ⟨σ, heffect⟩ := updateConfig_effect h.consistent hmov hok.base
      have hseparate := callAllowed_separate h.consistent hallowed hok.row hok.length_eq
      have hmigrations : Migrations s.controller s.vmLocations (oldConfig.zip newConfig)
          (carried.map Prod.snd) := by
        simp only [updateConfig, bind_eq_ok, fetch_eq_ok] at hupdate
        obtain ⟨_, hrow, _, _, tasks', htasks, _, _, _, _, hupdate⟩ := hupdate
        obtain rfl := Option.some_inj.mp (hok.row.symm.trans hrow)
        cases hupdate
        exact .of_tasks h.names hok.sameHost hseparate htasks (hcarried.map _)
      refine ⟨heffect.consistent h.consistent, ?_, ?_, ?_⟩
      · intro p
        rw [hok.located, heffect.machines, heffect.systemConfig]
        exact h.located p
      · intro p q name hp hq
        rw [hok.locations] at hp hq
        exact (swapSeq _).injective (h.names _ _ name hp hq)
      · intro p name hname
        rw [hok.locations] at hname
        rw [PlacedAt, heffect.machines, heffect.systemConfig]
        exact hmigrations.placedAt h.names h.placed hname

/-- The table of VM names shows the real placement, pinning included, after every
call. -/
theorem recorded_placement (generateCommand : VmLocations → CommandGenerator) (s : State)
    (hs : (placementSystem generateCommand).ReachableVia CallAllowed s) :
    RecordedPlacement s := by
  have htracked : Tracked s := by
    refine hs.invariant (fun s hinit => .start hinit) ?_
    intro s action s' _ h hallowed hstep
    exact h.step hallowed hstep
  exact htracked.recorded

def callTest (s : State) : Action → Bool
  | .updateConfig id newConfig _ =>
      match s.controller.idToConfig[id]? with
      | some oldConfig => decide (s.controller.Running id ∧ newConfig.Nodup ∧
          ∀ p ∈ oldConfig.zip newConfig, p.1 ≠ p.2 → p.1.1 ≠ p.2.1 ∧ p.2 ∉ oldConfig ∧
            s.controller.machineUsage.get? p.2 ≠ none ∧
            s.controller.machineUsage.get? p.2 ≠ some none ∧
            s.controller.machineUsage.get? p.2 ≠ some (some id))
      | none => false
  | _ => true

theorem callAllowed_of_test (s : State) (action : Action) (h : callTest s action = true) :
    CallAllowed s action := by
  cases action with
  | updateConfig id newConfig carried =>
      rw [callTest] at h
      split at h
      · rename_i oldConfig hrow
        obtain ⟨hid, hnodup, hmoves⟩ := of_decide_eq_true h
        refine ⟨.inl hid, hnodup, fun config hconfig p hp hne => ?_⟩
        obtain rfl := Option.some_inj.mp (hrow.symm.trans hconfig)
        obtain ⟨hhost, hfresh, hinside, htaken, hother⟩ := hmoves p hp hne
        refine ⟨hhost, hfresh, ?_⟩
        cases howner : s.controller.machineUsage.get? p.2 with
        | none => exact absurd howner hinside
        | some owner =>
            cases owner with
            | none => exact absurd howner htaken
            | some j => exact ⟨j, fun heq => hother (heq ▸ howner), rfl⟩
      · cases h
  | _ => trivial

def startedGuests : Guests
  | "vm0" => ⟨"a", [[0]]⟩
  | "vm1" => ⟨"a", [[1]]⟩
  | "vm2" => ⟨"b", [[0]]⟩
  | "vm3" => ⟨"b", [[1]]⟩
  | "vm4" => ⟨"c", [[0]]⟩
  | _ => ⟨"c", [[1]]⟩

/-- A job leaves two machines for the third one; only one of its VMs is pinned to other
cpus, and the migrations are carried out in the reverse order. -/
theorem recorded_placement_reversed : ∃ s : State,
    s.vmLocations = [["vm4", "vm1"], ["vm5", "vm3"], ["vm0", "vm2"]] ∧
    s.guests "vm2" = ⟨"c", [[1]]⟩ ∧ s.guests "vm5" = ⟨"b", [[0]]⟩ ∧ RecordedPlacement s := by
  have hrun : ((placementSystem fun _ _ _ _ _ => .ok "").runVia callTest
      ⟨create ["a", "b", "c"] ⟨[⟨[0], []⟩, ⟨[1], []⟩]⟩, fullVms, startedGuests⟩
      [.execute ⟨2, 1, "", false⟩ [(0, 0), (1, 0)], .execute ⟨1, 1, "", false⟩ [(2, 0)],
       .execute ⟨1, 1, "", false⟩ [(2, 1)],
       .updateConfig 0 [(2, 0), (2, 1)]
         [("b", ⟨"vm2", "c", "warm", true, true, "0", false, ⟨"vm5", none, some [[0]]⟩,
            some [[1]]⟩),
          ("a", ⟨"vm0", "c", "warm", true, true, "0", false, ⟨"vm4", none, none⟩,
            none⟩)]]).map (fun s => (s.vmLocations, s.guests "vm2", s.guests "vm5")) =
      .ok ([["vm4", "vm1"], ["vm5", "vm3"], ["vm0", "vm2"]], ⟨"c", [[1]]⟩, ⟨"b", [[0]]⟩) := by
    decide +kernel
  obtain ⟨s, hrun, heq⟩ := map_eq_ok.mp hrun
  obtain ⟨hvms, heq⟩ := Prod.mk.inj heq
  obtain ⟨hmoved, hswapped⟩ := Prod.mk.inj heq
  refine ⟨s, hvms, hmoved, hswapped, recorded_placement _ s
    (System.runVia_reachable callAllowed_of_test (.init ?_) hrun)⟩
  refine ⟨["a", "b", "c"], ⟨[⟨[0], []⟩, ⟨[1], []⟩]⟩,
    ["vm0", "vm1", "vm2", "vm3", "vm4", "vm5"], by decide, rfl, rfl, ?_⟩
  rintro ⟨m, n⟩ name hname
  rcases m with _ | _ | _ | m <;> rcases n with _ | _ | n <;> cases hname <;> exact ⟨rfl, rfl⟩

end Poncos.Vm
