import Poncos.Library.History
import Poncos.Schedulers.Isolation

/-!
What the two-app scheduler is for.  Two jobs are left running side by side exactly if
the utilisations measured for them fit together; otherwise the newer one is suspended
until a slot of every machine is free.  The answers of `run_distgen` are a history
variable, for a completing job may clear the utilisation of another one.
-/

namespace Poncos.TwoApp

open Poncos.Library
open Poncos.Library.Execution
open Poncos.Library.Transition
open Poncos.Controller

/-- The history: what `run_distgen` returned for each job. -/
def recordResults (s : State) (action : Action) (results : Nat → List ℚ) : Nat → List ℚ :=
  match action, s.pc with
  | .schedule distgenRes, .runDistgen _ id _ => Function.update results id distgenRes
  | _, _ => results

abbrev measuredSystem (σ : Settings) : System (State × (Nat → List ℚ)) Action :=
  (system σ).withHistory (fun _ => []) recordResults

/-- The estimated usage of two jobs, from what was measured for them. -/
def TotalUsage (results : Nat → List ℚ) (j k : Nat) (total : ℚ) : Prop :=
  ∃ first second, maxElement (results j) = .ok first ∧ maxElement (results k) = .ok second ∧
    total = (1 - first) + (1 - second)

/-- The scheduler is done with the last job it took. -/
def Pc.Decided : Pc → Prop
  | .nextJob | .waitRessource _ | .select _ | .asleep (.ressource _) => True
  | .done | .asleep .done | .finished => True
  | _ => False

/-- At most two jobs run.  Once the scheduler has decided they fit together, and while
the wait of a frozen job lasts, that job is one of them and they do not. -/
structure SideBySide (σ : Settings) (s : State) (results : Nat → List ℚ) : Prop where
  two : ∀ i j k, s.controller.Running i → s.controller.Running j → s.controller.Running k →
    i = j ∨ j = k ∨ i = k
  fits : s.pc.Decided → ∀ j k, j ≠ k → s.controller.Running j → s.controller.Running k →
    ∃ total, TotalUsage results j k total ∧ total ≤ 9 / 10
  frozen : ∀ job id newSlot, s.pc = .asleep (.frozen job id newSlot) →
    (∀ j k, j ≠ k → s.controller.Running j → s.controller.Running k →
      (j = id ∨ k = id) ∧ ∃ total, TotalUsage results j k total ∧ 9 / 10 < total) ∧
    ∀ d, DomainOf σ.backend s.controller s.vmLocations id d → suspended s.log d = true

section History

variable {s : State} {results : Nat → List ℚ}

theorem recordResults_runDistgen {r : List ℚ} {job : Job} {id newSlot : Nat}
    (hpc : s.pc = .runDistgen job id newSlot) :
    recordResults s (.schedule r) results = Function.update results id r := by
  simp only [recordResults, hpc]

theorem recordResults_of_ne (hpc : ∀ job id newSlot, s.pc ≠ .runDistgen job id newSlot)
    (action : Action) : recordResults s action results = results := by
  unfold recordResults
  split
  · rename_i hrun
    exact absurd hrun (hpc _ _ _)
  · rfl

theorem TotalUsage.symm {j k : Nat} {total : ℚ} (h : TotalUsage results j k total) :
    TotalUsage results k j total := by
  obtain ⟨first, second, hfirst, hsecond, rfl⟩ := h
  exact ⟨second, first, hsecond, hfirst, add_comm _ _⟩

end History

section Inversion

variable {σ : Settings} {s s' : State} {r : List ℚ} {job : Job} {id newSlot : Nat}

theorem bothInUse_eq_true (h : bothInUse s = .ok true) :
    s.coConfigInUse[0]? = some true ∧ s.coConfigInUse[1]? = some true := by
  simp only [bothInUse, bind_eq_ok, fetch_eq_ok] at h
  obtain ⟨first, hfirst, h⟩ := h
  cases first with
  | true => exact ⟨hfirst, fetch_eq_ok.mp h⟩
  | false => cases h

theorem step_runDistgen (hpc : s.pc = .runDistgen job id newSlot)
    (h : step σ s (.schedule r) = .ok s') :
    ∃ result, maxElement r = .ok result ∧ newSlot < s.coConfigDistgend.length ∧
      s' = { s with
        coConfigDistgend := s.coConfigDistgend.set newSlot result
        pc := .thawOpposing job id newSlot } := by
  simp only [step, scheduleStep, hpc, bind_eq_ok, store_eq_ok] at h
  obtain ⟨_, _, _, _, _, _, result, hresult, _, ⟨hlt, rfl⟩, h⟩ := h
  cases h
  exact ⟨result, hresult, hlt, rfl⟩

/-- The estimate decides whether the new job is frozen. -/
theorem step_estimate (hpc : s.pc = .estimate job id newSlot)
    (h : step σ s (.schedule r) = .ok s') :
    ∃ first second, s.coConfigDistgend[0]? = some first ∧
      s.coConfigDistgend[1]? = some second ∧
      (9 / 10 < (1 - first) + (1 - second) ∧ s'.pc = .waitFrozen job id newSlot ∨
        (1 - first) + (1 - second) ≤ 9 / 10 ∧ s'.pc = .nextJob) := by
  simp only [step, scheduleStep, hpc, bind_eq_ok, fetch_eq_ok] at h
  obtain ⟨first, hfirst, second, hsecond, h⟩ := h
  refine ⟨first, second, hfirst, hsecond, ?_⟩
  split at h
  · rename_i htotal
    simp only [bind_eq_ok] at h
    obtain ⟨_, _, h⟩ := h
    cases h
    exact .inl ⟨htotal, rfl⟩
  · rename_i htotal
    cases h
    exact .inr ⟨not_lt.mp htotal, rfl⟩

theorem step_available (hpc : s.pc = .waitFrozen job id newSlot)
    (hpc' : s'.pc = .thaw id newSlot) (h : step σ s (.schedule r) = .ok s') :
    s.controller.ressourceAvailable job.reqCpus 1 = .ok true := by
  simp only [step, scheduleStep, hpc, bind_eq_ok] at h
  obtain ⟨available, hcheck, h⟩ := h
  cases h
  cases available with
  | true => exact hcheck
  | false => cases hpc'

end Inversion

/-- Every job was given a slot on at least one machine. -/
def Launched (s : State) : Prop := ∀ config ∈ s.controller.idToConfig, config ≠ []

section Slots

variable {σ : Settings} {s s' : State}

theorem Launched.trans {action : Action} (h : Launched s) (ht : Trans σ s action s') :
    Launched s' := by
  cases ht with
  | select _ _ heffect =>
      intro config hconfig
      rw [heffect.idToConfig, List.mem_append, List.mem_singleton] at hconfig
      rcases hconfig with hconfig | rfl
      · exact h config hconfig
      · exact heffect.nonempty
  | complete _ _ heffect =>
      rw [Launched, heffect.idToConfig]
      exact h
  | _ => exact h

theorem Launched.machines_pos (hlaunched : Launched s) {j slot : Nat}
    (hrow : s.controller.idToConfig[j]? =
      some (fullConfig s.controller.machines.length slot)) :
    0 < s.controller.machines.length := by
  obtain ⟨p, hp⟩ := List.exists_mem_of_ne_nil _ (hlaunched _ (List.mem_of_getElem? hrow))
  exact Nat.zero_lt_of_lt (mem_fullConfig.mp hp).1

variable (hwf : WellFormed s) (hlaunched : Launched s)

include hwf hlaunched

/-- A slot belongs to one running job. -/
theorem Launched.eq_of_slot {j k slot : Nat} (hj : s.controller.Running j)
    (hk : s.controller.Running k)
    (hrow : s.controller.idToConfig[j]? =
      some (fullConfig s.controller.machines.length slot))
    (hrow' : s.controller.idToConfig[k]? =
      some (fullConfig s.controller.machines.length slot)) : j = k := by
  obtain ⟨p, hp⟩ := List.exists_mem_of_ne_nil _ (hlaunched _ (List.mem_of_getElem? hrow))
  have howner := (hwf.consistent.owner_iff p j).mpr ⟨hj, _, hrow, hp⟩
  have howner' := (hwf.consistent.owner_iff p k).mpr ⟨hk, _, hrow', hp⟩
  exact Option.some_inj.mp (Option.some_inj.mp (howner.symm.trans howner'))

/-- Two running jobs have the two slots. -/
theorem Launched.slots_of_ne {j k : Nat} (hne : j ≠ k) (hj : s.controller.Running j)
    (hk : s.controller.Running k) :
    ∃ slot slot', slot < 2 ∧ slot' < 2 ∧ slot ≠ slot' ∧
      s.controller.idToConfig[j]? =
        some (fullConfig s.controller.machines.length slot) ∧
      s.controller.idToConfig[k]? =
        some (fullConfig s.controller.machines.length slot') := by
  obtain ⟨slot, hslot, hrow⟩ := hwf.exists_slot hj
  obtain ⟨slot', hslot', hrow'⟩ := hwf.exists_slot hk
  refine ⟨slot, slot', hslot, hslot', ?_, hrow, hrow'⟩
  rintro rfl
  exact hne (hlaunched.eq_of_slot hwf hj hk hrow hrow')

theorem Launched.eq_or_eq {id newSlot j k : Nat} (hlt : newSlot < 2)
    (hid : s.controller.Running id)
    (hrow : s.controller.idToConfig[id]? =
      some (fullConfig s.controller.machines.length newSlot))
    (hne : j ≠ k) (hj : s.controller.Running j) (hk : s.controller.Running k) :
    j = id ∨ k = id := by
  obtain ⟨slot, slot', hslot, hslot', hslots, hrowj, hrowk⟩ :=
    hlaunched.slots_of_ne hwf hne hj hk
  rcases (show slot = newSlot ∨ slot' = newSlot by omega) with rfl | rfl
  · exact .inl (hlaunched.eq_of_slot hwf hj hid hrowj hrow)
  · exact .inr (hlaunched.eq_of_slot hwf hk hid hrowk hrow)

/-- Where every machine has a free slot only one job runs. -/
theorem Launched.one_of_room
    (hroom : ∀ row ∈ s.controller.machineUsage, ∃ slot < 2, row[slot]? = some none)
    {j k : Nat} (hj : s.controller.Running j) (hk : s.controller.Running k) : j = k := by
  by_contra hne
  obtain ⟨slot, slot', hslot, hslot', hslots, hrow, hrow'⟩ :=
    hlaunched.slots_of_ne hwf hne hj hk
  have hpos := hlaunched.machines_pos hrow
  have hlt : 0 < s.controller.machineUsage.length := by
    rw [hwf.usage.1]
    exact hpos
  obtain ⟨free, hfree, hcell⟩ := hroom _ (List.getElem_mem hlt)
  rw [← Grid.get?_of_row (List.getElem?_eq_getElem hlt)] at hcell
  rcases (show free = slot ∨ free = slot' by omega) with rfl | rfl
  · have howner := (hwf.consistent.owner_iff (0, free) j).mpr
      ⟨hj, _, hrow, mem_fullConfig.mpr ⟨hpos, rfl⟩⟩
    cases howner.symm.trans hcell
  · have howner := (hwf.consistent.owner_iff (0, free) k).mpr
      ⟨hk, _, hrow', mem_fullConfig.mpr ⟨hpos, rfl⟩⟩
    cases howner.symm.trans hcell

end Slots

/-- The job that is measured and estimated, and its slot. -/
def Pc.judged : Pc → Option (Nat × Nat)
  | .freezeOpposing _ id newSlot => some (id, newSlot)
  | .runDistgen _ id newSlot => some (id, newSlot)
  | .thawOpposing _ id newSlot => some (id, newSlot)
  | .estimate _ id newSlot => some (id, newSlot)
  | _ => none

def Pc.unmeasured : Pc → Option Nat
  | .freezeOpposing _ id _ => some id
  | .runDistgen _ id _ => some id
  | _ => none

/-- The job that waits or may soon wait for its cpus. -/
def Pc.job : Pc → Option Job
  | .waitRessource job | .select job | .asleep (.ressource job) => some job
  | .freezeOpposing job _ _ | .runDistgen job _ _ | .thawOpposing job _ _ => some job
  | .estimate job _ _ | .waitFrozen job _ _ | .asleep (.frozen job _ _) => some job
  | _ => none

def Pc.frozen : Pc → Option (Nat × Nat)
  | .waitFrozen _ id newSlot => some (id, newSlot)
  | .asleep (.frozen _ id newSlot) => some (id, newSlot)
  | _ => none

theorem Pc.Decided.frozen {pc : Pc} (h : pc.Decided) : pc.frozen = none := by
  cases pc with
  | asleep wait =>
      cases wait with
      | frozen => exact h.elim
      | ressource | done => rfl
  | waitFrozen => exact h.elim
  | _ => rfl

/-- Every job waits for as many cpus as one slot of all machines has. -/
def FullMachines (s : State) : Prop := ∀ job, s.pc.job = some job →
  job.reqCpus = s.controller.machines.length * s.controller.systemConfig.slotSize

/-- While a job is judged its flag is set, a clear flag beside it stands for a free
slot, and an estimate is made where both are set. -/
structure Judged (s : State) : Prop where
  cover : FlagsCover s
  beside : ∀ id newSlot, s.pc.judged = some (id, newSlot) →
    FlagsBeside s newSlot ∧ s.controller.Running id
  both : ∀ job id newSlot, s.pc = .estimate job id newSlot → bothInUse s = .ok true

/-- A set flag stands beside the utilisation measured for the job in the slot. -/
def Shown (s : State) (results : Nat → List ℚ) : Prop :=
  ∀ slot j, s.coConfigInUse[slot]? = some true → s.controller.Running j →
    s.controller.idToConfig[j]? = some (fullConfig s.controller.machines.length slot) →
    s.pc.unmeasured ≠ some j → ∃ result, maxElement (results j) = .ok result ∧
      s.coConfigDistgend[slot]? = some result

/-- What was decided of the jobs that run side by side. -/
structure Settled (σ : Settings) (s : State) (results : Nat → List ℚ) : Prop where
  fits : s.pc.Decided → ∀ j k, j ≠ k → s.controller.Running j → s.controller.Running k →
    ∃ total, TotalUsage results j k total ∧ total ≤ 9 / 10
  frozen : ∀ id newSlot, s.pc.frozen = some (id, newSlot) →
    (∀ j k, j ≠ k → s.controller.Running j → s.controller.Running k →
      (j = id ∨ k = id) ∧ ∃ total, TotalUsage results j k total ∧ 9 / 10 < total) ∧
    Quiet σ.backend s.controller s.vmLocations s.log
      (fullConfig s.controller.machines.length newSlot)
  thawed : ∀ id newSlot, s.pc = .thaw id newSlot →
    ∀ j k, s.controller.Running j → s.controller.Running k → j = k

variable {σ : Settings} {s s' : State} {results : Nat → List ℚ}

theorem FullMachines.trans {action : Action} (h : FullMachines s) (ht : Trans σ s action s') :
    FullMachines s' := by
  intro job hjob
  cases ht with
  | nextJob _ _ hcpus =>
      cases hjob
      exact hcpus
  | select hpc _ heffect =>
      rw [heffect.machines, heffect.systemConfig]
      exact h job (by rw [hpc]; exact hjob)
  | complete _ _ heffect =>
      rw [heffect.machines, heffect.systemConfig]
      exact h job hjob
  | processEnd | notifyAll => exact h job hjob
  | @wake wait hpc =>
      cases wait with
      | ressource | frozen => exact h job (by rw [hpc]; exact hjob)
      | done => cases hjob
  | ressource hpc | noRessource hpc | freezeOpposing hpc | alone hpc | runDistgen hpc
  | thawOpposing hpc | freeze hpc | notAvailable hpc => exact h job (by rw [hpc]; exact hjob)
  | _ => cases hjob

namespace Judged

theorem setPhase (h : Judged s) {id : Nat} {phase : Phase}
    (hrunning : ∀ j, (s.controller.setPhase id phase).Running j ↔
      s.controller.Running j) :
    Judged { s with controller := s.controller.setPhase id phase } := by
  refine ⟨h.cover.setPhase hrunning, fun j newSlot hpc => ?_, h.both⟩
  obtain ⟨⟨hlt, hown, hother⟩, hj⟩ := h.beside j newSlot hpc
  exact ⟨⟨hlt, hown, hother⟩, (hrunning j).mpr hj⟩

/-- The judgement goes on with the next step. -/
theorem of_pc (h : Judged s) {pc : Pc} {log : List Message} {distgend : List ℚ}
    (hpc : pc.judged = s.pc.judged)
    (hboth : ∀ job id newSlot, pc = .estimate job id newSlot → bothInUse s = .ok true) :
    Judged { s with pc := pc, log := log, coConfigDistgend := distgend } := by
  refine ⟨⟨h.cover.fresh, h.cover.firstJob, h.cover.second, h.cover.secondJob⟩,
    fun id newSlot hjudged => ?_, hboth⟩
  obtain ⟨⟨hlt, hown, hother⟩, hid⟩ := h.beside id newSlot (hpc ▸ hjudged)
  exact ⟨⟨hlt, hown, hother⟩, hid⟩

theorem trans {action : Action} (h : Judged s) (hwf : WellFormed s)
    (hstep : step σ s action = .ok s') : Judged s' := by
  have hcover := h.cover.trans hwf hstep
  cases step_trans hstep with
  | select hpc _ heffect =>
      refine ⟨hcover, ?_, by rintro _ _ _ ⟨⟩⟩
      rintro id newSlot ⟨⟩
      exact ⟨(h.cover.select hwf (step_select hwf hpc rfl hstep) heffect).2,
        (heffect.running_iff _).mpr (.inr rfl)⟩
  | freezeOpposing hpc => exact h.of_pc (by rw [hpc]; rfl) (by rintro _ _ _ ⟨⟩)
  | alone hpc => exact h.of_pc (by rw [hpc]; rfl) (by rintro _ _ _ ⟨⟩)
  | runDistgen hpc => exact h.of_pc (by rw [hpc]; rfl) (by rintro _ _ _ ⟨⟩)
  | thawOpposing hpc hboth => exact h.of_pc (by rw [hpc]; rfl) fun _ _ _ _ => hboth
  | processEnd hphase => exact h.setPhase (running_setPhase_ended hphase)
  | notifyAll hphase => exact h.setPhase (running_setPhase_finished hwf.consistent hphase)
  | complete hpc =>
      refine ⟨hcover, fun id newSlot hjudged => ?_, fun job id newSlot hestimate => ?_⟩
      · change s.pc.judged = _ at hjudged
        rw [hpc] at hjudged
        cases hjudged
      · cases hpc.symm.trans hestimate
  | @wake wait => cases wait <;> exact ⟨hcover, by rintro _ _ ⟨⟩, by rintro _ _ _ ⟨⟩⟩
  | _ => exact ⟨hcover, by rintro _ _ ⟨⟩, by rintro _ _ _ ⟨⟩⟩

end Judged

namespace Shown

theorem of_pc (h : Shown s results) {pc : Pc} {queue : List Job} {log : List Message}
    (hpc : pc.unmeasured = s.pc.unmeasured) :
    Shown { s with pc := pc, queue := queue, log := log } results :=
  fun slot j hflag hj hrow hne => h slot j hflag hj hrow (hpc ▸ hne)

theorem setPhase (h : Shown s results) {id : Nat} {phase : Phase}
    (hrunning : ∀ j, (s.controller.setPhase id phase).Running j ↔
      s.controller.Running j) :
    Shown { s with controller := s.controller.setPhase id phase } results :=
  fun slot j hflag hj hrow hne => h slot j hflag ((hrunning j).mp hj) hrow hne

theorem select (h : Shown s results) (hwf : WellFormed s) {job job' : Job} {newSlot : Nat}
    {c : Controller} {id : Nat} (hpc : s.pc = .select job')
    (heffect : ExecuteEffect s.controller c job
      (fullConfig s.controller.machines.length newSlot) id) :
    Shown { s with
      controller := c
      coConfigInUse := s.coConfigInUse.set newSlot true
      pc := .freezeOpposing job id newSlot } results := by
  intro slot j hflag hj hrow hunmeasured
  have hne : j ≠ id := by
    rintro rfl
    exact hunmeasured rfl
  have hj := ((heffect.running_iff j).mp hj).resolve_right hne
  change c.idToConfig[j]? = some (fullConfig c.machines.length slot) at hrow
  rw [heffect.machines] at hrow
  have hrow := (heffect.row_cases hwf.consistent hrow).resolve_right fun hid => hne hid.1
  have hslot : newSlot ≠ slot := by
    rintro rfl
    obtain ⟨p, hp⟩ := List.exists_mem_of_ne_nil _ heffect.nonempty
    have howner := (hwf.consistent.owner_iff p j).mpr ⟨hj, _, hrow, hp⟩
    cases howner.symm.trans (heffect.free p hp)
  refine h slot j ?_ hj hrow (by rw [hpc]; rintro ⟨⟩)
  rw [← hflag]
  exact (List.getElem?_set_ne hslot).symm

theorem runDistgen (h : Shown s results) (hwf : WellFormed s) (hlaunched : Launched s)
    (hjudged : Judged s) {r : List ℚ} {job : Job} {id newSlot : Nat} {result : ℚ}
    (hpc : s.pc = .runDistgen job id newSlot) (hresult : maxElement r = .ok result)
    (hlt : newSlot < s.coConfigDistgend.length) :
    Shown { s with
      coConfigDistgend := s.coConfigDistgend.set newSlot result
      pc := .thawOpposing job id newSlot } (Function.update results id r) := by
  have hid := (hjudged.beside id newSlot (by rw [hpc]; rfl)).2
  have hcurrent := hwf.current id newSlot (by rw [hpc]; rfl)
  intro slot j hflag hj hrow _
  rcases eq_or_ne j id with rfl | hne
  · have hslot := fullConfig_injective (hlaunched.machines_pos hrow)
      (Option.some_inj.mp (hcurrent.symm.trans hrow))
    subst hslot
    exact ⟨result, by rw [Function.update_self, hresult], List.getElem?_set_self hlt⟩
  · have hslot : newSlot ≠ slot := by
      rintro rfl
      exact hne (hlaunched.eq_of_slot hwf hj hid hrow hcurrent)
    obtain ⟨result', hmax, hshown⟩ := h slot j hflag hj hrow (by
      rw [hpc]
      exact fun heq => hne (Option.some_inj.mp heq).symm)
    exact ⟨result', by rw [Function.update_of_ne hne, hmax],
      (List.getElem?_set_ne hslot).trans hshown⟩

/-- The callback clears the flag together with the utilisation. -/
theorem complete (h : Shown s results) {id : Nat} {c : Controller} {config : ExecuteConfig}
    (heffect : CompleteEffect s.controller c id config) :
    Shown { s with
      controller := c
      coConfigInUse := s.coConfigInUse.set id false
      coConfigDistgend := s.coConfigDistgend.set id 0 } results := by
  intro slot j hflag hj hrow hne
  have hj := ((heffect.running_iff j).mp hj).1
  change c.idToConfig[j]? = some (fullConfig c.machines.length slot) at hrow
  rw [heffect.machines, heffect.idToConfig] at hrow
  change (s.coConfigInUse.set id false)[slot]? = some true at hflag
  have hslot : id ≠ slot := by
    rintro rfl
    simp [List.getElem?_set] at hflag
  rw [List.getElem?_set_ne hslot] at hflag
  obtain ⟨result, hmax, hshown⟩ := h slot j hflag hj hrow hne
  exact ⟨result, hmax, (List.getElem?_set_ne hslot).trans hshown⟩

theorem trans {action : Action} (h : Shown s results) (hwf : WellFormed s)
    (hlaunched : Launched s) (hjudged : Judged s) (hstep : step σ s action = .ok s') :
    Shown s' (recordResults s action results) := by
  cases step_trans hstep with
  | runDistgen hpc _ =>
      obtain ⟨result, hresult, hlt, heq⟩ := step_runDistgen hpc hstep
      rw [heq, recordResults_runDistgen hpc]
      exact h.runDistgen hwf hlaunched hjudged hpc hresult hlt
  | select hpc _ heffect =>
      rw [recordResults_of_ne (by rw [hpc]; rintro _ _ _ ⟨⟩)]
      exact h.select hwf hpc heffect
  | complete hpc _ heffect => exact h.complete heffect
  | processEnd hphase => exact h.setPhase (running_setPhase_ended hphase)
  | notifyAll hphase => exact h.setPhase (running_setPhase_finished hwf.consistent hphase)
  | @wake wait hpc => cases wait <;> exact h.of_pc (by rw [hpc]; rfl)
  | nextJob hpc | lastJob hpc | ressource hpc | noRessource hpc | freezeOpposing hpc
  | alone hpc | thawOpposing hpc | stillAlone hpc | fits hpc | freeze hpc | available hpc
  | notAvailable hpc | thaw hpc | allDone hpc | notDone hpc =>
      rw [recordResults_of_ne (by rw [hpc]; rintro _ _ _ ⟨⟩)]
      exact h.of_pc (by rw [hpc]; rfl)

/-- The estimate adds up what was measured for the two jobs. -/
theorem total (h : Shown s results) (hwf : WellFormed s) (hlaunched : Launched s)
    (hboth : bothInUse s = .ok true) (hmeasured : s.pc.unmeasured = none) {first second : ℚ}
    (hfirst : s.coConfigDistgend[0]? = some first)
    (hsecond : s.coConfigDistgend[1]? = some second) {j k : Nat} (hne : j ≠ k)
    (hj : s.controller.Running j) (hk : s.controller.Running k) :
    TotalUsage results j k ((1 - first) + (1 - second)) := by
  obtain ⟨hflag, hflag'⟩ := bothInUse_eq_true hboth
  have hunmeasured : ∀ i, s.pc.unmeasured ≠ some i := by
    intro i
    rw [hmeasured]
    rintro ⟨⟩
  have hordered : ∀ i l, s.controller.Running i → s.controller.Running l →
      s.controller.idToConfig[i]? = some (fullConfig s.controller.machines.length 0) →
      s.controller.idToConfig[l]? = some (fullConfig s.controller.machines.length 1) →
      TotalUsage results i l ((1 - first) + (1 - second)) := by
    intro i l hi hl hrow hrow'
    obtain ⟨result, hmax, hshown⟩ := h 0 i hflag hi hrow (hunmeasured i)
    obtain ⟨result', hmax', hshown'⟩ := h 1 l hflag' hl hrow' (hunmeasured l)
    cases hshown.symm.trans hfirst
    cases hshown'.symm.trans hsecond
    exact ⟨first, second, hmax, hmax', rfl⟩
  obtain ⟨slot, slot', hslot, hslot', hslots, hrow, hrow'⟩ :=
    hlaunched.slots_of_ne hwf hne hj hk
  rcases (show slot = 0 ∧ slot' = 1 ∨ slot = 1 ∧ slot' = 0 by omega) with
    ⟨rfl, rfl⟩ | ⟨rfl, rfl⟩
  · exact hordered j k hj hk hrow hrow'
  · exact (hordered k j hk hj hrow' hrow).symm

end Shown

namespace Settled

/-- Nothing is decided while a job is judged. -/
theorem of_judged (hdecided : ¬ s.pc.Decided) (hfrozen : s.pc.frozen = none)
    (hthaw : ∀ id newSlot, s.pc ≠ .thaw id newSlot) : Settled σ s results := by
  refine ⟨fun hpc => absurd hpc hdecided, fun id newSlot hpc => ?_,
    fun id newSlot hpc => absurd hpc (hthaw id newSlot)⟩
  cases hfrozen.symm.trans hpc

/-- One job fits beside no other. -/
theorem of_one (hone : ∀ j k, s.controller.Running j → s.controller.Running k → j = k)
    (hfrozen : s.pc.frozen = none) : Settled σ s results := by
  refine ⟨fun _ j k hne hj hk => absurd (hone j k hj hk) hne, fun id newSlot hpc => ?_,
    fun _ _ _ => hone⟩
  cases hfrozen.symm.trans hpc

/-- The scheduler goes on between two jobs. -/
theorem of_decided (h : Settled σ s results) (hpc : s.pc.Decided) {pc : Pc}
    {queue : List Job} (hpc' : pc.Decided) :
    Settled σ { s with pc := pc, queue := queue } results := by
  refine ⟨fun _ => h.fits hpc, fun id newSlot hfrozen => ?_, fun id newSlot hthaw => ?_⟩
  · cases hpc'.frozen.symm.trans hfrozen
  · change pc = _ at hthaw
    rw [hthaw] at hpc'
    exact hpc'.elim

/-- A frozen job goes on waiting. -/
theorem of_frozen (h : Settled σ s results) {pc : Pc} {id newSlot : Nat}
    (hpc : s.pc.frozen = some (id, newSlot)) (hpc' : pc.frozen = some (id, newSlot)) :
    Settled σ { s with pc := pc } results := by
  refine ⟨fun hdecided => ?_, fun id' newSlot' hfrozen => ?_, fun id' newSlot' hthaw => ?_⟩
  · cases hdecided.frozen.symm.trans hpc'
  · cases hpc'.symm.trans hfrozen
    exact h.frozen id newSlot hpc
  · change pc = _ at hthaw
    rw [hthaw] at hpc'
    cases hpc'

theorem of_running (h : Settled σ s results) {c : Controller} {distgend : List ℚ}
    {inUse : List Bool}
    (hrunning : ∀ j, c.Running j → s.controller.Running j)
    (hquiet : ∀ newSlot, Quiet σ.backend s.controller s.vmLocations s.log
      (fullConfig s.controller.machines.length newSlot) →
      Quiet σ.backend c s.vmLocations s.log (fullConfig c.machines.length newSlot)) :
    Settled σ { s with
      controller := c
      coConfigInUse := inUse
      coConfigDistgend := distgend } results :=
  ⟨fun hpc j k hne hj hk => h.fits hpc j k hne (hrunning j hj) (hrunning k hk),
    fun id newSlot hpc =>
      ⟨fun j k hne hj hk => (h.frozen id newSlot hpc).1 j k hne (hrunning j hj) (hrunning k hk),
        hquiet newSlot (h.frozen id newSlot hpc).2⟩,
    fun id newSlot hpc j k hj hk => h.thawed id newSlot hpc j k (hrunning j hj) (hrunning k hk)⟩

theorem setPhase (h : Settled σ s results) {id : Nat} {phase : Phase}
    (hrunning : ∀ j, (s.controller.setPhase id phase).Running j ↔
      s.controller.Running j) :
    Settled σ { s with controller := s.controller.setPhase id phase } results :=
  h.of_running (fun j => (hrunning j).mp) fun _ hquiet => hquiet

/-- The estimate leaves both jobs running if they fit, and freezes the new one if not. -/
theorem estimate {r : List ℚ} {job : Job} {id newSlot : Nat} (hwf : WellFormed s)
    (hlaunched : Launched s) (hjudged : Judged s) (hshown : Shown s results)
    (hpc : s.pc = .estimate job id newSlot) (hstep : step σ s (.schedule r) = .ok s') :
    Settled σ s' results := by
  obtain ⟨first, second, hfirst, hsecond, hdecision⟩ := step_estimate hpc hstep
  have htotal : ∀ j k, j ≠ k → s.controller.Running j → s.controller.Running k →
      TotalUsage results j k ((1 - first) + (1 - second)) := fun j k hne hj hk =>
    hshown.total hwf hlaunched (hjudged.both _ _ _ hpc) (by rw [hpc]; rfl) hfirst hsecond
      hne hj hk
  obtain ⟨hbeside, hid⟩ := hjudged.beside id newSlot (by rw [hpc]; rfl)
  have hrow := hwf.current id newSlot (by rw [hpc]; rfl)
  cases step_trans hstep with
  | fits =>
      rcases hdecision with ⟨_, hpc'⟩ | ⟨hle, _⟩
      · cases hpc'
      · refine ⟨fun _ j k hne hj hk => ⟨_, htotal j k hne hj hk, hle⟩, ?_, ?_⟩
        · rintro _ _ ⟨⟩
        · rintro _ _ ⟨⟩
  | freeze _ hfreeze =>
      rcases hdecision with ⟨hlt, hpc'⟩ | ⟨_, hpc'⟩
      · cases hpc'
        refine ⟨fun hdecided => hdecided.elim, ?_, by rintro _ _ ⟨⟩⟩
        rintro _ _ ⟨⟩
        refine ⟨fun j k hne hj hk => ⟨?_, _, htotal j k hne hj hk, hlt⟩,
          quiet_of_freeze hrow hfreeze⟩
        exact hlaunched.eq_or_eq hwf hbeside.lt hid hrow hne hj hk
      · cases hpc'
  | nextJob hpc' | lastJob hpc' | ressource hpc' | noRessource hpc' | select hpc'
  | freezeOpposing hpc' | alone hpc' | runDistgen hpc' | thawOpposing hpc'
  | stillAlone hpc' | available hpc' | notAvailable hpc' | thaw hpc' | allDone hpc'
  | notDone hpc' => cases hpc.symm.trans hpc'

/-- The wait of a frozen job ends with a free slot on every machine. -/
theorem available {r : List ℚ} {job : Job} {id newSlot : Nat} (hwf : WellFormed s)
    (hlaunched : Launched s) (hjob : FullMachines s)
    (hsize : 0 < s.controller.systemConfig.slotSize)
    (hpc : s.pc = .waitFrozen job id newSlot)
    (hstep : step σ s (.schedule r) = .ok { s with pc := .thaw id newSlot }) :
    ∀ j k, s.controller.Running j → s.controller.Running k → j = k := by
  have havailable := step_available hpc rfl hstep
  simp only [ressourceAvailable, bind_eq_ok] at havailable
  obtain ⟨counter, hcounter, havailable⟩ := havailable
  have hle : job.reqCpus ≤ counter := by simpa using havailable
  rw [hjob job (by rw [hpc]; rfl)] at hle
  have hspec := (freeCpus_spec hcounter).2 hsize
  rw [hwf.usage.1, hwf.slots, Nat.zero_add] at hspec
  intro j k hj hk
  exact hlaunched.one_of_room hwf (hspec hle) hj hk

/-- The new job has the machines for itself when no second flag is set. -/
theorem stillAlone {job : Job} {id newSlot : Nat} (hwf : WellFormed s)
    (hlaunched : Launched s) (hjudged : Judged s)
    (hpc : s.pc = .thawOpposing job id newSlot) (hboth : bothInUse s = .ok false) :
    ∀ j k, s.controller.Running j → s.controller.Running k → j = k := by
  obtain ⟨hbeside, hid⟩ := hjudged.beside id newSlot (by rw [hpc]; rfl)
  have hfree := hbeside.free_of_bothInUse hwf hboth
  intro j k hj hk
  refine hlaunched.one_of_room hwf (fun row hrow => ?_) hj hk
  obtain ⟨m, hm, rfl⟩ := List.mem_iff_getElem.mp hrow
  refine ⟨(newSlot + 1) % 2, Nat.mod_lt _ (by omega), ?_⟩
  rw [← Grid.get?_of_row (List.getElem?_eq_getElem hm)]
  exact hfree m (by rw [← hwf.usage.1]; exact hm)

theorem trans {action : Action} (h : Settled σ s results) (hwf : WellFormed s)
    (hlaunched : Launched s) (hjob : FullMachines s) (hjudged : Judged s)
    (hshown : Shown s results) (hsize : 0 < s.controller.systemConfig.slotSize)
    (hstep : step σ s action = .ok s') : Settled σ s' (recordResults s action results) := by
  have hsame : (∀ job id newSlot, s.pc ≠ .runDistgen job id newSlot) →
      recordResults s action results = results := fun hpc => recordResults_of_ne hpc action
  cases step_trans hstep with
  | runDistgen => exact of_judged (fun h => h) rfl (by rintro _ _ ⟨⟩)
  | select | freezeOpposing | alone | thawOpposing =>
      exact of_judged (fun h => h) rfl (by rintro _ _ ⟨⟩)
  | fits hpc | freeze hpc =>
      rw [hsame (by rw [hpc]; rintro _ _ _ ⟨⟩)]
      exact estimate hwf hlaunched hjudged hshown hpc hstep
  | stillAlone hpc hboth =>
      have hone := stillAlone hwf hlaunched hjudged hpc hboth
      exact of_one hone rfl
  | available hpc =>
      have hone := available hwf hlaunched hjob hsize hpc hstep
      exact of_one hone rfl
  | notAvailable hpc =>
      rw [hsame (by rw [hpc]; rintro _ _ _ ⟨⟩)]
      exact h.of_frozen (by rw [hpc]; rfl) rfl
  | thaw hpc => exact of_one (h.thawed _ _ hpc) rfl
  | nextJob hpc | lastJob hpc | ressource hpc | noRessource hpc | allDone hpc | notDone hpc =>
      rw [hsame (by rw [hpc]; rintro _ _ _ ⟨⟩)]
      exact h.of_decided (by rw [hpc]; trivial) trivial
  | @wake wait hpc =>
      cases wait with
      | ressource | done => exact h.of_decided (by rw [hpc]; trivial) trivial
      | frozen => exact h.of_frozen (by rw [hpc]; rfl) rfl
  | processEnd hphase => exact h.setPhase (running_setPhase_ended hphase)
  | notifyAll hphase => exact h.setPhase (running_setPhase_finished hwf.consistent hphase)
  | complete _ _ heffect =>
      refine h.of_running (fun j hj => ((heffect.running_iff j).mp hj).1) fun newSlot hquiet => ?_
      rw [heffect.machines]
      exact hquiet.complete heffect

end Settled

section Start

variable {machines : List String} {systemConfig : SystemConfig}
  {vmLocations : Vm.VmLocations} {queue : List Job}

theorem not_running_start (j : Nat) :
    ¬ (start machines systemConfig vmLocations queue).controller.Running j := by
  rintro ⟨_, hmem, _⟩
  simp [start, create] at hmem

theorem Launched.start : Launched (start machines systemConfig vmLocations queue) := by
  intro config hconfig
  simp [TwoApp.start, create] at hconfig

theorem Judged.start (hslots : systemConfig.slots.length = 2) :
    Judged (start machines systemConfig vmLocations queue) :=
  ⟨.start hslots, by rintro _ _ ⟨⟩, by rintro _ _ _ ⟨⟩⟩

theorem Shown.start :
    Shown (start machines systemConfig vmLocations queue) fun _ => [] :=
  fun _ j _ hj => absurd hj (not_running_start j)

theorem Settled.start :
    Settled σ (start machines systemConfig vmLocations queue) fun _ => [] :=
  .of_one (fun j _ hj => absurd hj (not_running_start j)) rfl

end Start

theorem reachable_launched (hs : (system σ).Reachable s) : Launched s := by
  refine hs.invariant ?_ ?_
  · rintro s ⟨_, _, _, _, _, _, rfl⟩
    exact .start
  · intro s action s' _ h _ hstep
    exact h.trans (step_trans hstep)

theorem reachable_fullMachines (hs : (system σ).Reachable s) : FullMachines s := by
  refine hs.invariant ?_ ?_
  · rintro s ⟨_, _, _, _, _, _, rfl⟩ _ ⟨⟩
  · intro s action s' _ h _ hstep
    exact h.trans (step_trans hstep)

theorem reachable_judged (hs : (system σ).Reachable s) : Judged s := by
  refine hs.invariant ?_ ?_
  · rintro s ⟨_, _, _, _, hslots, _, rfl⟩
    exact .start hslots
  · intro s action s' hs h _ hstep
    exact h.trans (reachable_wellFormed hs) hstep

theorem Trans.systemConfig_eq {action : Action} (ht : Trans σ s action s') :
    s'.controller.systemConfig = s.controller.systemConfig := by
  cases ht with
  | select _ _ heffect => exact heffect.systemConfig
  | complete _ _ heffect => exact heffect.systemConfig
  | _ => rfl

theorem reachable_settled {s : State × (Nat → List ℚ)} (hs : (measuredSystem σ).Reachable s) :
    Shown s.1 s.2 ∧ (0 < s.1.controller.systemConfig.slotSize → Settled σ s.1 s.2) := by
  refine @System.history_invariant _ _ _ _ _ _ (fun s results =>
    Shown s results ∧ (0 < s.controller.systemConfig.slotSize → Settled σ s results))
    ?_ ?_ s hs
  · rintro s ⟨_, _, _, _, _, _, rfl⟩
    exact ⟨.start, fun _ => .start⟩
  · rintro s action s' results hs ⟨hshown, hsettled⟩ hstep
    have hwf := reachable_wellFormed hs
    have hlaunched := reachable_launched hs
    have hjudged := reachable_judged hs
    refine ⟨hshown.trans hwf hlaunched hjudged hstep, fun hsize => ?_⟩
    rw [(step_trans hstep).systemConfig_eq] at hsize
    exact (hsettled hsize).trans hwf hlaunched (reachable_fullMachines hs) hjudged hshown hsize
      hstep

/-- Over every run, two jobs are left to run side by side only if what was measured for
them adds up to at most nine tenths of the bandwidth; while the newer one waits because it
does not, it is suspended. -/
theorem side_by_side (σ : Settings) (s : State) (results : Nat → List ℚ)
    (hs : (measuredSystem σ).Reachable (s, results))
    (hsize : 0 < s.controller.systemConfig.slotSize) : SideBySide σ s results := by
  have hreach := System.forget_reachable hs
  have hwf := reachable_wellFormed hreach
  have hlaunched := reachable_launched hreach
  have hsettled := (reachable_settled hs).2 hsize
  refine ⟨fun i j k hi hj hk => ?_, hsettled.fits, fun job id newSlot hpc => ?_⟩
  · by_contra! hne
    obtain ⟨slot, slot', hslot, hslot', hslots, hrow, hrow'⟩ :=
      hlaunched.slots_of_ne hwf hne.1 hi hj
    rcases hlaunched.eq_or_eq hwf hslot hi hrow hne.2.1 hj hk with rfl | rfl
    · exact hne.1 rfl
    · exact hne.2.2 rfl
  · obtain ⟨hjobs, hquiet⟩ := hsettled.frozen id newSlot (by rw [hpc]; rfl)
    have hrow := hwf.current id newSlot (by rw [hpc]; rfl)
    refine ⟨hjobs, ?_⟩
    rintro d ⟨p, howner, hdomain⟩
    obtain ⟨_, config, hconfig, hp⟩ := (hwf.consistent.owner_iff p id).mp howner
    cases hrow.symm.trans hconfig
    rcases hquiet p hp with hfree | ⟨d', ⟨owner, howner', hdomain'⟩, hd'⟩
    · cases hfree.symm.trans howner
    · cases howner.symm.trans howner'
      rwa [Except.ok.inj (hdomain.symm.trans hdomain')]

/-- Two jobs whose usage is 3/10 and 8/10: the second one is frozen. -/
theorem side_by_side_frozen : ∃ s results,
    (measuredSystem (plainSettings .vm)).Reachable (s, results) ∧
      s.pc = .asleep (.frozen ⟨2, 1, "", true⟩ 1 1) ∧
      suspended s.log (.vm "vm1") = true ∧ SideBySide (plainSettings .vm) s results := by
  have hrun : ((measuredSystem (plainSettings .vm)).run
      (twoMachines .vm [⟨2, 1, "", true⟩, ⟨2, 1, "", true⟩], fun _ => [])
      (placeJob [7 / 10, 6 / 10] ++ placeJob [1 / 10, 2 / 10] ++
        [.schedule [], .schedule []])).map (fun s => (s.1.pc, suspended s.1.log (.vm "vm1"),
          decide (0 < s.1.controller.systemConfig.slotSize))) =
      .ok (.asleep (.frozen ⟨2, 1, "", true⟩ 1 1), true, true) := by
    decide +kernel
  obtain ⟨⟨s, results⟩, hrun, heq⟩ := map_eq_ok.mp hrun
  obtain ⟨hpc, heq⟩ := Prod.mk.inj heq
  obtain ⟨hsuspended, hsize⟩ := Prod.mk.inj heq
  have hs : (measuredSystem (plainSettings .vm)).Reachable (s, results) :=
    System.run_reachable (fun _ _ => trivial) (.init ⟨twoMachines_init _ _, rfl⟩) hrun
  exact ⟨s, results, hs, hpc, hsuspended,
    side_by_side (plainSettings .vm) s results hs (of_decide_eq_true hsize)⟩

end Poncos.TwoApp
