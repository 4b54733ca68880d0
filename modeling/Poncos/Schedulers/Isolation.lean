import Poncos.Controller.SuspendedSlots
import Poncos.MultiApp.Cells
import Poncos.TwoApp.Flags

/-!
A measurement is not disturbed.  When `run_distgen` sends its requests, every slot
whose cpus it uses is free or holds a suspended domain, and none of them belongs to
the job that is measured.  The multi-app scheduler suspends whatever occupies these
slots; the two-app scheduler relies on its flags, which show an occupied neighbour
although they do not follow the slots.
-/

namespace Poncos

open Poncos.Library
open Poncos.Library.Execution
open Poncos.Library.Transition
open Poncos.Controller

/-- The measurement of job `id` has the cpus beside the job for itself. -/
def Isolated (backend : Backend) (c : Controller) (vmLocations : Vm.VmLocations)
    (log : List Message) (id : Nat) : Prop :=
  ∃ opposingConfig, c.generateOpposingConfig id = .ok opposingConfig ∧
    Quiet backend c vmLocations log opposingConfig ∧
    ∀ p ∈ opposingConfig, c.machineUsage.get? p ≠ some (some id)

namespace MultiApp

variable {σ : Settings} {s s' : State}

/-- The neighbours stay suspended until the requests are sent. -/
def QuietNeighbours (σ : Settings) (s : State) : Prop :=
  ∀ id config, s.pc = .runDistgen id config →
    Quiet σ.backend s.controller s.vmLocations s.log (config.map opposing)

theorem QuietNeighbours.trans {action : Action} (h : QuietNeighbours σ s)
    (hwf : WellFormed s) (ht : Trans σ s action s') : QuietNeighbours σ s' := by
  intro id config hpc'
  cases ht with
  | freezeOpposing hpc hfreeze =>
      cases hpc'
      have hcurrent := hwf.current id config (by rw [hpc]; rfl)
      exact quiet_of_freezeOpposing hcurrent.row hfreeze
  | processEnd => exact h id config hpc'
  | notifyAll => exact h id config hpc'
  | @wake wait => cases wait <;> cases hpc'
  | complete hpc | waiterWait hpc | waiterThaw hpc | waiterSleep hpc =>
      cases hpc.symm.trans hpc'
  | _ => cases hpc'

theorem isolated {id : Nat} {config : ExecuteConfig} (hs : (system σ).Reachable s)
    (hpc : s.pc = .runDistgen id config) :
    Isolated σ.backend s.controller s.vmLocations s.log id := by
  have hwf := reachable_wellFormed hs
  have hquiet : QuietNeighbours σ s := by
    refine hs.invariant ?_ ?_
    · rintro s ⟨_, _, _, _, _, _, rfl⟩ _ _ ⟨⟩
    · intro s action s' hs h _ hstep
      exact h.trans (reachable_wellFormed hs) (step_trans hstep)
  have hcurrent := hwf.current id config (by rw [hpc]; rfl)
  have hid := hwf.fresh id (by rw [hpc]; rfl)
  refine ⟨_, generateOpposingConfig_ok hcurrent.row hwf.slots, hquiet id config hpc, ?_⟩
  intro q hq howner
  obtain ⟨p, hp, rfl⟩ := List.mem_map.mp hq
  exact not_opposing_mem hcurrent.machines hp
    ((hcurrent.owner_eq hwf.consistent hid).mp howner)

end MultiApp

namespace TwoApp

variable {σ : Settings} {s s' : State}

/-- The second flag may be clear beside an occupied second slot only while the first
flag is set, and job 0, whose callback clears the first flag, has completed. -/
structure FlagsCover (s : State) : Prop where
  fresh : s.controller.cmdCounter = 0 → s.coConfigInUse[0]? = some false
  firstJob : ∀ config, s.controller.idToConfig[0]? = some config →
    config = fullConfig s.controller.machines.length 0
  second : s.coConfigInUse[1]? = some false →
    (∀ m < s.controller.machines.length,
      s.controller.machineUsage.get? (m, 1) = some none) ∨
    s.coConfigInUse[0]? = some true ∧ ¬ s.controller.Running 0
  secondJob : s.controller.Running 1 →
    s.controller.idToConfig[1]? = some (fullConfig s.controller.machines.length 0) →
      s.coConfigInUse[0]? = some true ∧ ¬ s.controller.Running 0

/-- The flag of the new job is set, and a clear flag beside it stands for a free
slot. -/
structure FlagsBeside (s : State) (newSlot : Nat) : Prop where
  lt : newSlot < 2
  own : s.coConfigInUse[newSlot]? = some true
  other : s.coConfigInUse[(newSlot + 1) % 2]? = some false →
    ∀ m < s.controller.machines.length,
      s.controller.machineUsage.get? (m, (newSlot + 1) % 2) = some none

theorem searchSlot_first {flags : List Bool} {newSlot : Nat} (hflags : flags.length = 2)
    (h : searchSlot flags (List.range 2) = .ok (some newSlot)) :
    newSlot = 0 ∧ flags[0]? = some false ∨ newSlot = 1 ∧ flags[0]? = some true := by
  obtain ⟨first, second, rfl⟩ := List.length_eq_two.mp hflags
  cases first with
  | false =>
      cases h
      exact .inl ⟨rfl, rfl⟩
  | true =>
      cases second with
      | false =>
          cases h
          exact .inr ⟨rfl, rfl⟩
      | true => cases h

/-- The search takes the second slot only where the first flag is set. -/
theorem step_select {r : List ℚ} {job job' : Job} {id newSlot : Nat} (hwf : WellFormed s)
    (hpc : s.pc = .select job) (hpc' : s'.pc = .freezeOpposing job' id newSlot)
    (h : step σ s (.schedule r) = .ok s') :
    newSlot = 0 ∧ s.coConfigInUse[0]? = some false ∨
      newSlot = 1 ∧ s.coConfigInUse[0]? = some true := by
  simp only [step, scheduleStep, hpc, bind_eq_ok, hwf.slots] at h
  obtain ⟨free, hsearch, h⟩ := h
  cases free with
  | none => cases h
  | some slot =>
      simp only [bind_eq_ok, Prod.exists] at h
      obtain ⟨_, _, _, _, _, h⟩ := h
      cases h
      cases hpc'
      exact searchSlot_first hwf.inUse hsearch

namespace FlagsCover

theorem setPhase (h : FlagsCover s) {id : Nat} {phase : Phase}
    (hrunning : ∀ j, (s.controller.setPhase id phase).Running j ↔
      s.controller.Running j) :
    FlagsCover { s with controller := s.controller.setPhase id phase } := by
  refine ⟨h.fresh, h.firstJob, fun hflag => ?_, fun hone hrow => ?_⟩
  · exact (h.second hflag).imp_right fun ⟨hset, hzero⟩ =>
      ⟨hset, fun hrun => hzero ((hrunning 0).mp hrun)⟩
  · obtain ⟨hset, hzero⟩ := h.secondJob ((hrunning 1).mp hone) hrow
    exact ⟨hset, fun hrun => hzero ((hrunning 0).mp hrun)⟩

theorem complete (h : FlagsCover s) (hwf : WellFormed s) {id : Nat} {c : Controller}
    {config : ExecuteConfig} (hphase : InPhase s.controller id .ended)
    (heffect : CompleteEffect s.controller c id config)
    (hlt : id < s.coConfigInUse.length) :
    FlagsCover { s with
      controller := c
      coConfigInUse := s.coConfigInUse.set id false
      coConfigDistgend := s.coConfigDistgend.set id 0 } := by
  have hid := running_of_inPhase hphase (.inr rfl)
  have hzero : ¬ s.controller.Running 0 → ¬ c.Running 0 :=
    fun hnot hrun => hnot ((heffect.running_iff 0).mp hrun).1
  rw [hwf.inUse] at hlt
  refine ⟨fun hcounter => ?_, ?_, fun hflag => ?_, fun hone hrow => ?_⟩
  · have hcounter : c.cmdCounter = 0 := hcounter
    rw [heffect.cmdCounter] at hcounter
    have := hwf.consistent.running_lt hid
    omega
  · rw [heffect.machines, heffect.idToConfig]
    exact h.firstJob
  · rw [heffect.machines]
    rcases (show id = 0 ∨ id = 1 by omega) with rfl | rfl
    · have hflag : (s.coConfigInUse.set 0 false)[1]? = some false := hflag
      rw [List.getElem?_set_ne (by omega)] at hflag
      rcases h.second hflag with hfree | ⟨_, hnot⟩
      · left
        intro m hm
        rw [heffect.usage]
        split
        · rfl
        · exact hfree m hm
      · exact absurd hid hnot
    · obtain ⟨slot, hslot, hrow⟩ := hwf.exists_slot hid
      obtain rfl := Option.some_inj.mp (hrow.symm.trans heffect.row)
      rcases (show slot = 0 ∨ slot = 1 by omega) with rfl | rfl
      · obtain ⟨hset, hnot⟩ := h.secondJob hid hrow
        right
        exact ⟨(List.getElem?_set_ne (by omega)).trans hset, hzero hnot⟩
      · left
        intro m hm
        rw [heffect.usage, if_pos (mem_fullConfig (p := (m, 1)).mpr ⟨hm, rfl⟩)]
  · obtain ⟨hone, hne⟩ := (heffect.running_iff 1).mp hone
    have hrow : c.idToConfig[1]? = some (fullConfig c.machines.length 0) := hrow
    rw [heffect.machines, heffect.idToConfig] at hrow
    obtain ⟨hset, hnot⟩ := h.secondJob hone hrow
    refine ⟨?_, hzero hnot⟩
    have hne : id ≠ 0 := by
      rintro rfl
      exact hnot hid
    exact (List.getElem?_set_ne hne).trans hset

theorem start {machines : List String} {systemConfig : SystemConfig}
    {vmLocations : Vm.VmLocations} {queue : List Job}
    (hslots : systemConfig.slots.length = 2) :
    FlagsCover (start machines systemConfig vmLocations queue) := by
  have hflag : (TwoApp.start machines systemConfig vmLocations queue).coConfigInUse =
      [false, false] := by
    rw [TwoApp.start, hslots]
    rfl
  have hnone : ∀ j, ¬ (create machines systemConfig).Running j := by
    rintro j ⟨_, hmem, _⟩
    simp [create] at hmem
  refine ⟨fun _ => by rw [hflag]; rfl, fun config hrow => ?_, fun _ => .inl fun m hm => ?_,
    fun hone => absurd hone (hnone 1)⟩
  · simp [TwoApp.start, create] at hrow
  · have hm : m < machines.length := hm
    rw [Grid.get?_eq_some_iff]
    exact ⟨[none, none], by simp [TwoApp.start, create, hm], rfl⟩

/-- A job that finds the first slot free is placed there after job 0 completed, if it is
not that job itself. -/
theorem not_both_of_free (h : FlagsCover s) (hwf : WellFormed s) {job : Job} {c : Controller}
    {id : Nat} (heffect : ExecuteEffect s.controller c job
      (fullConfig s.controller.machines.length 0) id) (hone : c.Running 1) :
    ¬ c.Running 0 := by
  intro hzero
  obtain ⟨p, hp⟩ := List.exists_mem_of_ne_nil _ heffect.nonempty
  rcases (heffect.running_iff 0).mp hzero with hzero | hid
  · obtain ⟨config, hconfig⟩ := hwf.consistent.exists_config hzero
    have hfull := h.firstJob config hconfig
    have howner := (hwf.consistent.owner_iff p 0).mpr ⟨hzero, config, hconfig, hfull ▸ hp⟩
    cases howner.symm.trans (heffect.free p hp)
  · rcases (heffect.running_iff 1).mp hone with hone | hid'
    · have hlt := hwf.consistent.running_lt hone
      have hid_eq := heffect.id_eq
      omega
    · omega

/-- Both flags and both jobs are as before, and the first slot was free. -/
theorem selectFirst (h : FlagsCover s) (hwf : WellFormed s) {job : Job} {c : Controller}
    {id : Nat} (hclear : s.coConfigInUse[0]? = some false)
    (heffect : ExecuteEffect s.controller c job
      (fullConfig s.controller.machines.length 0) id) :
    FlagsCover { s with
        controller := c
        coConfigInUse := s.coConfigInUse.set 0 true
        pc := .freezeOpposing job id 0 } ∧
      FlagsBeside { s with
        controller := c
        coConfigInUse := s.coConfigInUse.set 0 true
        pc := .freezeOpposing job id 0 } 0 := by
  have hcounter := heffect.cmdCounter
  have hfree : s.coConfigInUse[1]? = some false → ∀ m < s.controller.machines.length,
      s.controller.machineUsage.get? (m, 1) = some none := by
    intro hflag
    rcases h.second hflag with hfree | ⟨hset, _⟩
    · exact hfree
    · cases hclear.symm.trans hset
  have hfree' : (s.coConfigInUse.set 0 true)[1]? = some false → ∀ m < c.machines.length,
      c.machineUsage.get? (m, 1) = some none := by
    intro hflag m hm
    rw [List.getElem?_set_ne (by omega)] at hflag
    rw [heffect.machines] at hm
    rw [heffect.usage, if_neg]
    · exact hfree hflag m hm
    · intro hp
      cases (mem_fullConfig.mp hp).2
  have hfirst : (s.coConfigInUse.set 0 true)[0]? = some true :=
    List.getElem?_set_self (by rw [hwf.inUse]; omega)
  refine ⟨⟨fun hcounter' => ?_, fun config hrow => ?_, fun hflag => .inl (hfree' hflag),
    fun hone _ => ⟨hfirst, h.not_both_of_free hwf heffect hone⟩⟩, by omega, hfirst, hfree'⟩
  · have hcounter' : c.cmdCounter = 0 := hcounter'
    omega
  · rw [heffect.machines]
    rcases heffect.row_cases hwf.consistent hrow with hrow | ⟨_, rfl⟩
    · exact h.firstJob config hrow
    · rfl

theorem selectSecond (h : FlagsCover s) (hwf : WellFormed s) {job : Job} {c : Controller}
    {id : Nat} (hset : s.coConfigInUse[0]? = some true)
    (heffect : ExecuteEffect s.controller c job
      (fullConfig s.controller.machines.length 1) id) :
    FlagsCover { s with
        controller := c
        coConfigInUse := s.coConfigInUse.set 1 true
        pc := .freezeOpposing job id 1 } ∧
      FlagsBeside { s with
        controller := c
        coConfigInUse := s.coConfigInUse.set 1 true
        pc := .freezeOpposing job id 1 } 1 := by
  have hcounter := heffect.cmdCounter
  have hfirst : (s.coConfigInUse.set 1 true)[0]? = some true := by
    rw [List.getElem?_set_ne (by omega)]
    exact hset
  have hsecond : (s.coConfigInUse.set 1 true)[1]? = some true :=
    List.getElem?_set_self (by rw [hwf.inUse]; omega)
  have hid : id ≠ 0 := by
    intro hzero
    have hclear := h.fresh (by rw [← heffect.id_eq, hzero])
    cases hclear.symm.trans hset
  refine ⟨⟨fun hcounter' => ?_, fun config hrow => ?_, fun hflag => ?_,
    fun hone hrow => ?_⟩, by omega, hsecond, fun hflag => ?_⟩
  · have hcounter' : c.cmdCounter = 0 := hcounter'
    omega
  · rw [heffect.machines]
    rcases heffect.row_cases hwf.consistent hrow with hrow | ⟨hzero, _⟩
    · exact h.firstJob config hrow
    · exact absurd hzero.symm hid
  · cases hsecond.symm.trans hflag
  · have hrow : c.idToConfig[1]? = some (fullConfig c.machines.length 0) := hrow
    rw [heffect.machines] at hrow
    rcases heffect.row_cases hwf.consistent hrow with hrow | ⟨_, hfull⟩
    · have hone : s.controller.Running 1 := by
        refine ((heffect.running_iff 1).mp hone).resolve_right fun hone => ?_
        have hlt := (List.getElem?_eq_some_iff.mp hrow).1
        rw [hwf.consistent.configs_length, ← heffect.id_eq] at hlt
        omega
      obtain ⟨_, hnot⟩ := h.secondJob hone hrow
      refine ⟨hfirst, fun hzero => ?_⟩
      rcases (heffect.running_iff 0).mp hzero with hzero | hzero
      · exact hnot hzero
      · exact hid hzero.symm
    · obtain ⟨p, hp⟩ := List.exists_mem_of_ne_nil _ heffect.nonempty
      have hzero := (mem_fullConfig.mp (hfull ▸ hp)).2
      have hone := (mem_fullConfig.mp hp).2
      omega
  · have hflag : (s.coConfigInUse.set 1 true)[0]? = some false := hflag
    cases hfirst.symm.trans hflag

theorem select (h : FlagsCover s) (hwf : WellFormed s) {job : Job} {newSlot : Nat}
    {c : Controller} {id : Nat}
    (hslot : newSlot = 0 ∧ s.coConfigInUse[0]? = some false ∨
      newSlot = 1 ∧ s.coConfigInUse[0]? = some true)
    (heffect : ExecuteEffect s.controller c job
      (fullConfig s.controller.machines.length newSlot) id) :
    FlagsCover { s with
        controller := c
        coConfigInUse := s.coConfigInUse.set newSlot true
        pc := .freezeOpposing job id newSlot } ∧
      FlagsBeside { s with
        controller := c
        coConfigInUse := s.coConfigInUse.set newSlot true
        pc := .freezeOpposing job id newSlot } newSlot := by
  rcases hslot with ⟨rfl, hclear⟩ | ⟨rfl, hset⟩
  · exact h.selectFirst hwf hclear heffect
  · exact h.selectSecond hwf hset heffect

theorem trans {action : Action} (h : FlagsCover s) (hwf : WellFormed s)
    (hstep : step σ s action = .ok s') : FlagsCover s' := by
  cases step_trans hstep with
  | select hpc _ heffect =>
      exact (h.select hwf (step_select hwf hpc rfl hstep) heffect).1
  | processEnd hphase => exact h.setPhase (running_setPhase_ended hphase)
  | complete _ hphase heffect hlt => exact h.complete hwf hphase heffect hlt
  | notifyAll hphase =>
      exact h.setPhase (running_setPhase_finished hwf.consistent hphase)
  | _ => exact ⟨h.fresh, h.firstJob, h.second, h.secondJob⟩

end FlagsCover

/-- Both flags are read before the measurement; where the second one is clear, nothing
has to be frozen. -/
theorem FlagsBeside.free_of_bothInUse {newSlot : Nat} (h : FlagsBeside s newSlot)
    (hwf : WellFormed s) (hboth : bothInUse s = .ok false) :
    ∀ m < s.controller.machines.length,
      s.controller.machineUsage.get? (m, (newSlot + 1) % 2) = some none := by
  apply h.other
  obtain ⟨first, second, hflags⟩ := List.length_eq_two.mp hwf.inUse
  have hown := h.own
  have hlt := h.lt
  rw [bothInUse, hflags] at hboth
  rw [hflags] at hown ⊢
  rcases (show newSlot = 0 ∨ newSlot = 1 by omega) with rfl | rfl
  · cases hown
    exact congrArg some (Except.ok.inj hboth)
  · cases hown
    cases first with
    | false => rfl
    | true => cases hboth

/-- The slot of the job whose measurement is being prepared or made. -/
def Pc.measuring : Pc → Option Nat
  | .freezeOpposing _ _ newSlot => some newSlot
  | .runDistgen _ _ newSlot => some newSlot
  | _ => none

structure QuietNeighbours (σ : Settings) (s : State) : Prop where
  cover : FlagsCover s
  beside : ∀ newSlot, s.pc.measuring = some newSlot → FlagsBeside s newSlot
  quiet : ∀ job id newSlot, s.pc = .runDistgen job id newSlot →
    Quiet σ.backend s.controller s.vmLocations s.log
      ((fullConfig s.controller.machines.length newSlot).map opposing)

namespace QuietNeighbours

theorem of_free {newSlot : Nat}
    (hfree : ∀ m < s.controller.machines.length,
      s.controller.machineUsage.get? (m, (newSlot + 1) % 2) = some none) :
    Quiet σ.backend s.controller s.vmLocations s.log
      ((fullConfig s.controller.machines.length newSlot).map opposing) := by
  intro q hq
  obtain ⟨p, hp, rfl⟩ := List.mem_map.mp hq
  obtain ⟨hlt, rfl⟩ := mem_fullConfig.mp hp
  exact .inl (hfree p.1 hlt)

theorem trans {action : Action} (h : QuietNeighbours σ s) (hwf : WellFormed s)
    (hstep : step σ s action = .ok s') : QuietNeighbours σ s' := by
  have hcover := h.cover.trans hwf hstep
  cases step_trans hstep with
  | select hpc _ heffect =>
      refine ⟨hcover, ?_, by rintro _ _ _ ⟨⟩⟩
      rintro _ ⟨⟩
      exact (h.cover.select hwf (step_select hwf hpc rfl hstep) heffect).2
  | freezeOpposing hpc _ hfreeze =>
      obtain ⟨hlt, hown, hother⟩ := h.beside _ (by rw [hpc]; rfl)
      have hrow := hwf.current _ _ (by rw [hpc]; rfl)
      refine ⟨hcover, ?_, ?_⟩
      · rintro _ ⟨⟩
        exact ⟨hlt, hown, hother⟩
      · rintro _ _ _ ⟨⟩
        exact quiet_of_freezeOpposing hrow hfreeze
  | alone hpc hboth =>
      have hbeside := h.beside _ (by rw [hpc]; rfl)
      refine ⟨hcover, ?_, ?_⟩
      · rintro _ ⟨⟩
        exact ⟨hbeside.lt, hbeside.own, hbeside.other⟩
      · rintro _ _ _ ⟨⟩
        exact of_free (hbeside.free_of_bothInUse hwf hboth)
  | processEnd =>
      refine ⟨hcover, fun newSlot hpc => ?_, h.quiet⟩
      obtain ⟨hlt, hown, hother⟩ := h.beside newSlot hpc
      exact ⟨hlt, hown, hother⟩
  | notifyAll =>
      refine ⟨hcover, fun newSlot hpc => ?_, h.quiet⟩
      obtain ⟨hlt, hown, hother⟩ := h.beside newSlot hpc
      exact ⟨hlt, hown, hother⟩
  | complete hpc =>
      refine ⟨hcover, fun newSlot hpc' => ?_, fun job id newSlot hpc' => ?_⟩
      · have hpc' : s.pc.measuring = some newSlot := hpc'
        rw [hpc] at hpc'
        cases hpc'
      · cases hpc.symm.trans hpc'
  | @wake wait => cases wait <;> exact ⟨hcover, by rintro _ ⟨⟩, by rintro _ _ _ ⟨⟩⟩
  | _ => exact ⟨hcover, by rintro _ ⟨⟩, by rintro _ _ _ ⟨⟩⟩

end QuietNeighbours

theorem isolated {job : Job} {id newSlot : Nat} (hs : (system σ).Reachable s)
    (hpc : s.pc = .runDistgen job id newSlot) :
    Isolated σ.backend s.controller s.vmLocations s.log id := by
  have hwf := reachable_wellFormed hs
  have hquiet : QuietNeighbours σ s := by
    refine hs.invariant ?_ ?_
    · rintro s ⟨_, _, _, _, hslots, _, rfl⟩
      exact ⟨.start hslots, by rintro _ ⟨⟩, by rintro _ _ _ ⟨⟩⟩
    · intro s action s' hs h _ hstep
      exact h.trans (reachable_wellFormed hs) hstep
  have hrow := hwf.current id newSlot (by rw [hpc]; rfl)
  refine ⟨_, generateOpposingConfig_ok hrow hwf.slots, hquiet.quiet job id newSlot hpc, ?_⟩
  intro q hq howner
  obtain ⟨p, hp, rfl⟩ := List.mem_map.mp hq
  obtain ⟨_, config, hconfig, hmem⟩ := (hwf.consistent.owner_iff _ id).mp howner
  obtain rfl := Option.some_inj.mp (hrow.symm.trans hconfig)
  obtain ⟨_, hslot⟩ := mem_fullConfig.mp hp
  obtain ⟨_, hslot'⟩ := mem_fullConfig.mp hmem
  have hlt := (hquiet.beside newSlot (by rw [hpc]; rfl)).lt
  simp only [opposing] at hslot'
  omega

end TwoApp

/-- Both schedulers measure with the slots beside the job for themselves. -/
theorem measurements_isolated :
    (∀ (σ : MultiApp.Settings) (s : MultiApp.State) (id : Nat) (config : ExecuteConfig),
      (MultiApp.system σ).Reachable s → s.pc = .runDistgen id config →
        Isolated σ.backend s.controller s.vmLocations s.log id) ∧
      ∀ (σ : TwoApp.Settings) (s : TwoApp.State) (job : Job) (id newSlot : Nat),
        (TwoApp.system σ).Reachable s → s.pc = .runDistgen job id newSlot →
          Isolated σ.backend s.controller s.vmLocations s.log id :=
  ⟨fun _ _ _ _ hs hpc => MultiApp.isolated hs hpc,
    fun _ _ _ _ _ hs hpc => TwoApp.isolated hs hpc⟩

/-- The second job is measured while the first one is frozen, on both schedulers. -/
theorem measurements_isolated_secondJob :
    (∃ s : MultiApp.State, s.controller.machineUsage = [[some 0, some 1]] ∧
      Isolated .cgroup s.controller s.vmLocations s.log 1) ∧
      ∃ s : TwoApp.State, s.controller.machineUsage =
        [[some 0, some 1], [some 0, some 1]] ∧
        Isolated .vm s.controller s.vmLocations s.log 1 := by
  constructor
  · have hrun : ((MultiApp.system (MultiApp.plainSettings .cgroup)).run
        (MultiApp.start ["a"] ⟨[⟨[0], []⟩, ⟨[1], []⟩]⟩ [] [⟨1, 1, "", true⟩, ⟨1, 1, "", true⟩])
        (MultiApp.placeJob [9 / 10] ++ [.schedule [], .schedule [], .schedule [],
          .schedule [], .schedule []])).map
        (fun s => (s.pc, s.controller.machineUsage)) =
        .ok (.runDistgen 1 [(0, 1)], [[some 0, some 1]]) := by
      decide +kernel
    obtain ⟨s, hrun, heq⟩ := map_eq_ok.mp hrun
    obtain ⟨hpc, husage⟩ := Prod.mk.inj heq
    have hs : (MultiApp.system (MultiApp.plainSettings .cgroup)).Reachable s :=
      System.run_reachable (fun _ _ => trivial) (.init ⟨_, _, _, _, rfl, rfl, rfl⟩) hrun
    exact ⟨s, husage, measurements_isolated.1 _ s 1 _ hs hpc⟩
  · have hrun : ((TwoApp.system (TwoApp.plainSettings .vm)).run
        (TwoApp.twoMachines .vm [⟨2, 1, "", true⟩, ⟨2, 1, "", true⟩])
        (TwoApp.placeJob [9 / 10, 9 / 10] ++ [.schedule [], .schedule [], .schedule [],
          .schedule []])).map (fun s => (s.pc, s.controller.machineUsage)) =
        .ok (.runDistgen ⟨2, 1, "", true⟩ 1 1, [[some 0, some 1], [some 0, some 1]]) := by
      decide +kernel
    obtain ⟨s, hrun, heq⟩ := map_eq_ok.mp hrun
    obtain ⟨hpc, husage⟩ := Prod.mk.inj heq
    have hs : (TwoApp.system (TwoApp.plainSettings .vm)).Reachable s :=
      System.run_reachable (fun _ _ => trivial) (.init (TwoApp.twoMachines_init _ _)) hrun
    exact ⟨s, husage, measurements_isolated.2 _ s _ 1 1 hs hpc⟩

end Poncos
