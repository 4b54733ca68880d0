import Poncos.MultiApp.WakeUp

/-!
Frozen jobs stay frozen until they are thawed on purpose.  The only other
messages that resume a domain are those of `thaw_opposing`, which addresses
whatever occupies the slots beside the job that was measured, and of a waiter
whose job has completed and lost its slots to another one.
-/

namespace Poncos.MultiApp

open Poncos.Library
open Poncos.Library.Execution
open Poncos.Library.Transition
open Poncos.Controller

/-- The job the scheduler has frozen and waits for. -/
def Pc.frozenJob : Pc → Option Nat
  | .overload id _ true => some id
  | .asleep (.change id _) => some id
  | _ => none

/-- A job between `freeze` and the matching `thaw`. -/
def FrozenJob (s : State) (j : Nat) : Prop :=
  (∃ w ∈ s.waiters, w.id = j ∧ w.phase ≠ .finished) ∨ s.pc.frozenJob = some j

variable (σ : Settings)

abbrev Owns (s : State) (j : Nat) (d : Domain) : Prop :=
  DomainOf σ.backend s.controller s.vmLocations j d

def Addressed (s : State) (config : ExecuteConfig) (d : Domain) : Prop :=
  ∃ p ∈ config, DomainAt σ.backend s.controller s.vmLocations p d

/-- The step is the `thaw` of job `j`, by the scheduler or by its waiter. -/
def IsThaw (s : State) (j : Nat) : Action → Prop
  | .schedule _ => ∃ config, s.pc = .overload j config true
  | .waiterWake index => ∃ w, s.waiters[index]? = some w ∧ w.id = j
  | _ => False

/-- The messages of one step resume a domain of a frozen job only in its `thaw`,
and a `thaw` resumes only domains of its job. -/
structure StepLaw (s : State) (action : Action) (messages : List Message) : Prop where
  stays_frozen : ∀ j d, FrozenJob s j → Owns σ s j d →
    .resume d ∈ messages.map Message.task → IsThaw s j action
  own_domains : ∀ j d, IsThaw s j action → .resume d ∈ messages.map Message.task →
    Owns σ s j d

/-- What the freezing is for, in a state of a run whose steps meet `guard`. -/
structure FrozenLaw (guard : State → Action → Prop) (s : State) : Prop where
  step_law : ∀ action s' messages, guard s action → step σ s action = .ok s' →
    s'.log = s.log ++ messages → StepLaw σ s action messages
  bracket : ∀ id config, s.pc = .freezeOpposing id config →
    ∀ t, ((system σ).startingAt s).ReachableVia guard t → t.pc = .thawOpposing id config →
      ∀ distgenRes t', step σ t (.schedule distgenRes) = .ok t' →
        ∀ d, suspended t'.log d = suspended s.log d

/-- The condition on a step.  When the neighbours of a new job are frozen for its
measurement, none of them is suspended; when a waiter thaws its job, no slot the
job was placed on belongs to another job. -/
def KeepsFrozen (s : State) : Action → Prop
  | .schedule _ =>
      ∀ id config, s.pc = .freezeOpposing id config →
        ∀ d, Addressed σ s (config.map opposing) d → suspended s.log d = false
  | .waiterWake index =>
      ∀ w marked config, s.waiters[index]? = some w → Check s w.config marked →
        (∀ m ∈ marked, ∀ c ∈ w.config, c.1 ≠ m) →
        s.controller.idToConfig[w.id]? = some config →
        ∀ p ∈ config, ∀ j, s.controller.machineUsage.get? p = some (some j) → j = w.id
  | _ => True

/-- Who sends a resume task to a domain. -/
inductive Resumes (s : State) (d : Domain) : Action → Prop
  | opposing {r : List ℚ} {id : Nat} {config : ExecuteConfig} :
      s.pc = .thawOpposing id config → Addressed σ s (config.map opposing) d →
      Resumes s d (.schedule r)
  | scheduler {r : List ℚ} {id : Nat} {config : ExecuteConfig} :
      s.pc = .overload id config true → Addressed σ s config d →
      Resumes s d (.schedule r)
  | waiter {index : Nat} {w : Waiter} {marked : List Nat} {config : ExecuteConfig} :
      s.waiters[index]? = some w → w.phase ≠ .finished → Check s w.config marked →
      (∀ m ∈ marked, ∀ c ∈ w.config, c.1 ≠ m) →
      s.controller.idToConfig[w.id]? = some config → Addressed σ s config d →
      Resumes s d (.waiterWake index)

variable {σ} {s s' : State}

theorem Resumes.of_thawIfFrozen {r : List ℚ} {id : Nat} {config : ExecuteConfig}
    {frozen : Bool} {messages : List Message} {d : Domain}
    (hpc : s.pc = .overload id config frozen)
    (hcurrent : CurrentJob s.controller id config)
    (h : thawIfFrozen σ id frozen s = .ok messages)
    (hd : .resume d ∈ messages.map Message.task) : Resumes σ s d (.schedule r) := by
  rcases thawIfFrozen_cases hcurrent h with ⟨_, rfl⟩ | ⟨rfl, domains, hsend⟩
  · simp at hd
  · exact .scheduler hpc (hsend.mem_resume.mp hd)

theorem resumes_of_trans {action : Action} {messages : List Message} {d : Domain}
    (hwf : WellFormed s) (ht : Trans σ s action s') (hlog : s'.log = s.log ++ messages)
    (hd : .resume d ∈ messages.map Message.task) : Resumes σ s d action := by
  have hsilent : s.log = s.log ++ messages → False := by
    intro h
    rw [List.self_eq_append_right.mp h] at hd
    simp at hd
  cases ht with
  | freezeOpposing hpc hfreeze =>
      obtain rfl := List.append_cancel_left hlog
      have hcurrent := hwf.current _ _ (by rw [hpc]; rfl)
      obtain ⟨_, hsend⟩ := freezeOpposing_sendTo hcurrent.row hfreeze
      exact absurd hd (hsend.not_mem_resume d)
  | thawOpposing hpc hthaw =>
      obtain rfl := List.append_cancel_left hlog
      have hcurrent := hwf.current _ _ (by rw [hpc]; rfl)
      obtain ⟨_, hsend⟩ := thawOpposing_sendTo hcurrent.row hthaw
      exact .opposing hpc (hsend.mem_resume.mp hd)
  | fits hpc _ hthaw =>
      obtain rfl := List.append_cancel_left hlog
      exact .of_thawIfFrozen hpc (hwf.current _ _ (by rw [hpc]; rfl)) hthaw hd
  | swap hpc _ _ _ _ hthaw =>
      obtain rfl := List.append_cancel_left hlog
      exact .of_thawIfFrozen hpc (hwf.current _ _ (by rw [hpc]; rfl)) hthaw hd
  | freeze _ _ _ _ _ hfreeze =>
      obtain rfl := List.append_cancel_left hlog
      obtain ⟨_, _, _, hsend⟩ := freeze_sendTo hfreeze
      exact absurd hd (hsend.not_mem_resume d)
  | freezeDetach _ _ _ _ hfreeze =>
      obtain rfl := List.append_cancel_left hlog
      obtain ⟨_, _, _, hsend⟩ := freeze_sendTo hfreeze
      exact absurd hd (hsend.not_mem_resume d)
  | updateConfig =>
      obtain rfl := List.append_cancel_left hlog
      simp at hd
  | waiterThaw _ hwaiter hcheck hok hthaw =>
      obtain rfl := List.append_cancel_left hlog
      obtain ⟨config, _, hrow, hsend⟩ := thaw_sendTo hthaw
      exact .waiter hwaiter (by rintro ⟨⟩) hcheck hok hrow (hsend.mem_resume.mp hd)
  | _ => exact (hsilent hlog).elim

/-- A frozen job holds suspended domains only, and none of them is among those
that a measurement in progress will resume. -/
structure FrozenInv (σ : Settings) (s : State) : Prop where
  suspended : ∀ j d, FrozenJob s j → Owns σ s j d → suspended s.log d = true
  apart : ∀ id config, s.pc = .runDistgen id config ∨ s.pc = .thawOpposing id config →
    ∀ j d, FrozenJob s j → Owns σ s j d → ¬ Addressed σ s (config.map opposing) d

theorem WaitersOk.frozen_lt (h : WaitersOk σ s) {j : Nat}
    (hw : ∃ w ∈ s.waiters, w.id = j ∧ w.phase ≠ .finished) : j < s.controller.cmdCounter := by
  obtain ⟨w, hw, rfl, _⟩ := hw
  exact (h.ok w.id w.config (List.mem_map_of_mem hw)).lt

theorem WaitersOk.ne_of_set (h : WaitersOk σ s) {index id : Nat} {config : ExecuteConfig}
    {phase : WaiterPhase} (hwaiter : s.waiters[index]? = some ⟨id, config, phase⟩)
    {w : Waiter} (hw : w ∈ s.waiters.set index ⟨id, config, .finished⟩)
    (hphase : w.phase ≠ .finished) : w ∈ s.waiters ∧ w.id ≠ id := by
  obtain ⟨k, hk⟩ := List.mem_iff_getElem?.mp hw
  rw [List.getElem?_set] at hk
  split at hk
  · rename_i hindex
    subst hindex
    split at hk
    · obtain rfl := Option.some_inj.mp hk
      exact absurd rfl hphase
    · cases hk
  · rename_i hne
    refine ⟨List.mem_of_getElem? hk, fun hid => hne ?_⟩
    have hnodup := h.nodup
    rw [List.map_map] at hnodup
    have hi : (s.waiters.map (Prod.fst ∘ Waiter.job))[index]? = some id := by
      rw [List.getElem?_map, hwaiter]
      rfl
    have hk' : (s.waiters.map (Prod.fst ∘ Waiter.job))[k]? = some id := by
      rw [List.getElem?_map, hk, ← hid]
      rfl
    have hlt := (List.getElem?_eq_some_iff.mp hi).1
    exact (List.getElem?_inj hlt hnodup).mp (hi.trans hk'.symm)

theorem waiters_nil_of_vmOnly (h : WaitersOk σ s) (hpc : s.pc.VmOnly) :
    s.waiters = [] :=
  h.vm (h.vm_of_vmOnly hpc)

theorem not_frozenJob_of_nil (hwaiters : s.waiters = []) (hpc : s.pc.frozenJob = none)
    (j : Nat) : ¬ FrozenJob s j := by
  rintro (⟨w, hw, _⟩ | hfrozen)
  · simp [hwaiters] at hw
  · rw [hpc] at hfrozen
    cases hfrozen

theorem frozenJob_notify {j : Nat}
    (h : FrozenJob { s with waiters := s.waiters.map Waiter.notify } j) : FrozenJob s j := by
  rcases h with ⟨w, hw, hid, hphase⟩ | hj
  · obtain ⟨v, hv, rfl⟩ := List.mem_map.mp hw
    refine .inl ⟨v, hv, ?_, ?_⟩
    · rw [← hid]
      exact (congrArg Prod.fst v.job_notify).symm
    · intro hfinished
      simp [Waiter.notify, hfinished] at hphase
  · exact .inr hj

theorem frozenJob_set {j index : Nat} {w w' : Waiter}
    (h : FrozenJob { s with waiters := s.waiters.set index w' } j)
    (hw : s.waiters[index]? = some w) (hid : w'.id = w.id) (hphase : w.phase ≠ .finished) :
    FrozenJob s j := by
  rcases h with ⟨v, hv, hvid, hvphase⟩ | hj
  · rcases mem_set_cases hv with rfl | hv
    · exact .inl ⟨w, List.mem_of_getElem? hw, hid ▸ hvid, hphase⟩
    · exact .inl ⟨v, hv, hvid, hvphase⟩
  · exact .inr hj

namespace FrozenInv

theorem of_mono (h : FrozenInv σ s) (hfrozen : ∀ j, FrozenJob s' j → FrozenJob s j)
    (howns : ∀ j d, FrozenJob s j → Owns σ s' j d → Owns σ s j d)
    (hlog : ∀ d, Poncos.suspended s.log d = true → Poncos.suspended s'.log d = true)
    (hapart : ∀ id config, s'.pc = .runDistgen id config ∨ s'.pc = .thawOpposing id config →
      ∀ j d, FrozenJob s' j → Owns σ s' j d → ¬ Addressed σ s' (config.map opposing) d) :
    FrozenInv σ s' := by
  refine ⟨fun j d hj hd => ?_, hapart⟩
  have hj' := hfrozen j hj
  exact hlog d (h.suspended j d hj' (howns j d hj' hd))

theorem of_pc (h : FrozenInv σ s) {pc : Pc} {queue : List Job}
    (hfrozen : ∀ j, pc.frozenJob = some j → s.pc.frozenJob = some j)
    (hpc : ∀ id config, pc ≠ .runDistgen id config ∧ pc ≠ .thawOpposing id config) :
    FrozenInv σ { s with pc := pc, queue := queue } := by
  refine h.of_mono (fun j hj => hj.imp_right (hfrozen j)) (fun _ _ _ hd => hd)
    (fun _ hd => hd) ?_
  rintro id config (heq | heq)
  · exact absurd heq (hpc id config).1
  · exact absurd heq (hpc id config).2

theorem of_none (hwaiters : s'.waiters = []) (hpc : s'.pc.frozenJob = none) :
    FrozenInv σ s' :=
  ⟨fun j _ hj => absurd hj (not_frozenJob_of_nil hwaiters hpc j),
    fun _ _ _ j _ hj => absurd hj (not_frozenJob_of_nil hwaiters hpc j)⟩

theorem select (h : FrozenInv σ s) (hwaiters : WaitersOk σ s) {job : Job}
    {config : ExecuteConfig} {c : Controller} {id : Nat}
    (heffect : ExecuteEffect s.controller c job config id) :
    FrozenInv σ { s with controller := c, pc := .freezeOpposing id config } := by
  have hpc : (Pc.freezeOpposing id config).frozenJob = none := rfl
  refine ⟨?_, by rintro _ _ (heq | heq) <;> cases heq⟩
  rintro j d (hw | hfrozen) ⟨p, howner, hdomain⟩
  · have hlt := hwaiters.frozen_lt hw
    rcases heffect.owner_cases howner with ⟨_, rfl⟩ | howner
    · rw [heffect.id_eq] at hlt
      omega
    · exact h.suspended j d (.inl hw) ⟨p, howner, hdomain⟩
  · rw [hpc] at hfrozen
    cases hfrozen

theorem freeze (h : FrozenInv σ s) (hwf : WellFormed s) {id : Nat}
    {config : ExecuteConfig} {messages : List Message} {pc : Pc} {waiters : List Waiter}
    (hpc : s.pc = .overload id config false)
    (hfreeze : Controller.freeze σ.backend s.controller s.vmLocations id = .ok messages)
    (hfrozen : ∀ j, FrozenJob { s with
      log := s.log ++ messages, waiters := waiters, pc := pc } j → FrozenJob s j ∨ j = id)
    (hbracket : ∀ id config, pc ≠ .runDistgen id config ∧ pc ≠ .thawOpposing id config) :
    FrozenInv σ { s with log := s.log ++ messages, waiters := waiters, pc := pc } := by
  have hcurrent := hwf.current id config (by rw [hpc]; rfl)
  have hid := hwf.fresh id (by rw [hpc]; rfl)
  obtain ⟨_, hsend⟩ := hcurrent.freeze_sendTo hfreeze
  refine ⟨?_, ?_⟩
  · intro j d hj hd
    rw [suspended_append_suspend hsend]
    rcases hfrozen j hj with hj | rfl
    · exact .inl (h.suspended j d hj hd)
    · obtain ⟨p, howner, hdomain⟩ := hd
      exact .inr ⟨p, (hcurrent.owner_eq hwf.consistent hid).mp howner, j, howner, hdomain⟩
  · rintro id' config' (heq | heq)
    · exact absurd heq (hbracket id' config').1
    · exact absurd heq (hbracket id' config').2

/-- A waiter thaws its own job; the domains of the others are different ones. -/
theorem waiterThaw (h : FrozenInv σ s) (hwaiters : WaitersOk σ s) {index id : Nat}
    {wait : Wait} {config : ExecuteConfig} {notified : Bool} {marked : List Nat}
    {messages : List Message} (hpc : s.pc = .asleep wait)
    (hwaiter : s.waiters[index]? = some ⟨id, config, .asleep notified⟩)
    (hcheck : Check s config marked) (hok : ∀ m ∈ marked, ∀ c ∈ config, c.1 ≠ m)
    (hthaw : Controller.thaw σ.backend s.controller s.vmLocations id = .ok messages)
    (hguard : KeepsFrozen σ s (.waiterWake index)) :
    FrozenInv σ { s with
      log := s.log ++ messages
      waiters := s.waiters.set index ⟨id, config, .finished⟩ } := by
  have hσ := hwaiters.cgroup_of_mem (List.mem_of_getElem? hwaiter)
  obtain ⟨config', _, hrow, hsend⟩ := thaw_sendTo hthaw
  have howner := hguard _ _ _ hwaiter hcheck hok hrow
  have hfrozen : ∀ j, FrozenJob { s with
      log := s.log ++ messages
      waiters := s.waiters.set index ⟨id, config, .finished⟩ } j →
      FrozenJob s j ∧ j ≠ id := by
    rintro j (⟨w, hw, rfl, hphase⟩ | hfrozen)
    · obtain ⟨hmem, hne⟩ := hwaiters.ne_of_set hwaiter hw hphase
      exact ⟨.inl ⟨w, hmem, rfl, hphase⟩, hne⟩
    · have hfrozen : s.pc.frozenJob = some j := hfrozen
      have hvm := hwaiters.cgroup hσ
      rw [hpc] at hfrozen hvm
      cases wait with
      | change => exact absurd trivial hvm
      | ressource => cases hfrozen
      | done => cases hfrozen
  refine ⟨?_, by rintro _ _ (heq | heq) <;> cases hpc.symm.trans heq⟩
  intro j d hj hd
  obtain ⟨hj, hne⟩ := hfrozen j hj
  rw [suspended_append_resume hsend]
  refine ⟨h.suspended j d hj hd, ?_⟩
  rintro p hp ⟨owner, hp', hdomain'⟩
  obtain ⟨q, _, hdomain⟩ := hd
  -- the name of a cgroup tells its job
  rw [hσ] at hdomain hdomain'
  obtain ⟨_, rfl⟩ : q.1 = p.1 ∧ j = owner := by
    simpa [domainNameFromConfigElem] using hdomain.trans hdomain'.symm
  exact hne (howner p hp j hp')

theorem trans {action : Action} (h : FrozenInv σ s) (hwf : WellFormed s)
    (hwaiters : WaitersOk σ s) (hguard : KeepsFrozen σ s action)
    (ht : Trans σ s action s') : FrozenInv σ s' := by
  cases ht with
  | nextJob | lastJob | ressource | noRessource | allDone | notDone =>
      exact h.of_pc (by rintro _ ⟨⟩) (by simp)
  | select _ _ heffect => exact h.select hwaiters heffect
  | @freezeOpposing r id config messages hpc hfreeze =>
      have hcurrent := hwf.current _ _ (by rw [hpc]; rfl)
      obtain ⟨_, hsend⟩ := freezeOpposing_sendTo hcurrent.row hfreeze
      refine h.of_mono (fun j hj => hj.imp_right (by rintro ⟨⟩)) (fun _ _ _ hd => hd)
        (fun d hd => (suspended_append_suspend hsend d).mpr (.inl hd)) ?_
      -- a frozen job is suspended, the neighbours to be frozen are not
      rintro _ _ (heq | heq) j d hj hd haddressed
      · cases heq
        have hrunning := hguard id config hpc d haddressed
        rw [h.suspended j d (hj.imp_right (by rintro ⟨⟩)) hd] at hrunning
        cases hrunning
      · cases heq
  | runDistgen hpc =>
      refine h.of_mono (fun j hj => hj.imp_right (by rintro ⟨⟩)) (fun _ _ _ hd => hd)
        (fun _ hd => hd) ?_
      rintro _ _ (heq | heq) j d hj hd
      · cases heq
      · cases heq
        exact h.apart _ _ (.inl hpc) j d (hj.imp_right (by rintro ⟨⟩)) hd
  | thawOpposing hpc hthaw =>
      have hcurrent := hwf.current _ _ (by rw [hpc]; rfl)
      obtain ⟨_, hsend⟩ := thawOpposing_sendTo hcurrent.row hthaw
      refine ⟨?_, by rintro _ _ (heq | heq) <;> cases heq⟩
      intro j d hj hd
      have hj' : FrozenJob s j := hj.imp_right (by rintro ⟨⟩)
      rw [suspended_append_resume hsend]
      refine ⟨h.suspended j d hj' hd, fun p hp hdomain => ?_⟩
      exact h.apart _ _ (.inr hpc) j d hj' hd ⟨p, hp, hdomain⟩
  | @fits r id config frozen messages hpc _ hthaw =>
      have hcurrent := hwf.current _ _ (by rw [hpc]; rfl)
      rcases thawIfFrozen_cases hcurrent hthaw with ⟨rfl, rfl⟩ | ⟨rfl, _⟩
      · rw [List.append_nil]
        exact h.of_pc (by rintro _ ⟨⟩) (by simp)
      · have hnil := waiters_nil_of_vmOnly hwaiters (hpc ▸ trivial : s.pc.VmOnly)
        exact of_none hnil rfl
  | swap _ _ _ hproposed =>
      have hnil := hwaiters.vm (Backend.eq_vm_of_updateSupported hproposed.supported)
      exact of_none hnil rfl
  | stillFrozen hpc => exact h.of_pc (by rw [hpc]; exact fun _ hj => hj) (by simp)
  | freeze hpc _ _ _ hσ hfreeze =>
      refine h.freeze hwf hpc hfreeze ?_ (by simp)
      rintro j (hw | hj)
      · exact .inl (.inl hw)
      · cases hj
        exact .inr rfl
  | freezeDetach hpc _ _ _ hfreeze =>
      refine h.freeze hwf hpc hfreeze ?_ (by simp)
      rintro j (⟨w, hw, hid, hphase⟩ | hj)
      · rcases List.mem_append.mp hw with hw | hw
        · exact .inl (.inl ⟨w, hw, hid, hphase⟩)
        · cases List.mem_singleton.mp hw
          exact .inr hid.symm
      · cases hj
  | updateConfig hpc =>
      have hnil := waiters_nil_of_vmOnly hwaiters (hpc ▸ trivial : s.pc.VmOnly)
      exact of_none hnil rfl
  | @wake wait hpc =>
      cases wait with
      | ressource job => exact h.of_pc (by rintro _ ⟨⟩) (by simp [Wait.resume])
      | change id config =>
          exact h.of_pc (by rw [hpc]; exact fun _ hj => hj) (by simp [Wait.resume])
      | done => exact h.of_pc (by rintro _ ⟨⟩) (by simp [Wait.resume])
  | processEnd => exact ⟨h.suspended, h.apart⟩
  | complete hpc _ heffect =>
      refine h.of_mono (fun j hj => hj) ?_ (fun _ hd => hd)
        (by rintro _ _ (heq | heq) <;> cases hpc.symm.trans heq)
      rintro j d _ ⟨p, howner, hdomain⟩
      exact ⟨p, (heffect.owner_before howner).2, hdomain⟩
  | notifyAll =>
      exact ⟨fun j d hj hd => h.suspended j d (frozenJob_notify hj) hd,
        fun id config hpc j d hj hd => h.apart id config hpc j d (frozenJob_notify hj) hd⟩
  | waiterThaw hpc hwaiter hcheck hok hthaw =>
      exact h.waiterThaw hwaiters hpc hwaiter hcheck hok hthaw hguard
  | waiterWait hpc hwaiter | waiterSleep hpc hwaiter =>
      exact h.of_mono (fun j hj => frozenJob_set hj hwaiter rfl (by simp))
        (fun _ _ _ hd => hd) (fun _ hd => hd)
        (by rintro _ _ (heq | heq) <;> cases hpc.symm.trans heq)

end FrozenInv

theorem reachable_frozenInv (hs : (system σ).ReachableVia (KeepsFrozen σ) s) :
    FrozenInv σ s := by
  refine hs.invariant ?_ ?_
  · rintro s ⟨_, _, _, _, _, _, rfl⟩
    exact .of_none rfl rfl
  · intro s action s' hs h hguard hstep
    exact h.trans (reachable_wellFormed hs) (reachable_waitersOk hs) hguard
      (step_trans hstep)

/-- The bracket of the scheduler around a measurement. -/
def Pc.bracket : Pc → Option Nat
  | .freezeOpposing id _ => some id
  | .runDistgen id _ => some id
  | .thawOpposing id _ => some id
  | _ => none

/-- Where a run is that went through the measurement of a job in state `s`. -/
inductive Bracket (σ : Settings) (s : State) (id : Nat) (config : ExecuteConfig)
    (t : State) : Prop
  | before : t.pc = .freezeOpposing id config → t.log = s.log → Bracket σ s id config t
  | inside : t.pc = .runDistgen id config ∨ t.pc = .thawOpposing id config →
      (∀ d, suspended t.log d = true ↔
        suspended s.log d = true ∨ Addressed σ t (config.map opposing) d) →
      (∀ d, Addressed σ t (config.map opposing) d → suspended s.log d = false) →
      Bracket σ s id config t
  | after : id < t.controller.cmdCounter → t.pc.bracket ≠ some id →
      Bracket σ s id config t

namespace Bracket

variable {t t' : State} {id : Nat} {config : ExecuteConfig} {action : Action}

theorem of_before (hpc : t.pc = .freezeOpposing id config) (hlog : t.log = s.log)
    (hwf : WellFormed t) (hguard : KeepsFrozen σ t action) (ht : Trans σ t action t') :
    Bracket σ s id config t' := by
  cases ht with
  | freezeOpposing hpc' hfreeze =>
      cases hpc.symm.trans hpc'
      have hcurrent := hwf.current _ _ (by rw [hpc]; rfl)
      obtain ⟨_, hsend⟩ := freezeOpposing_sendTo hcurrent.row hfreeze
      refine .inside (.inl rfl) (fun d => ?_) (hlog ▸ hguard id config hpc)
      rw [← hlog]
      exact suspended_append_suspend hsend d
  | processEnd => exact .before hpc hlog
  | notifyAll => exact .before hpc hlog
  | nextJob h | lastJob h | ressource h | noRessource h | select h | runDistgen h
  | thawOpposing h | fits h | swap h | stillFrozen h | freeze h | freezeDetach h
  | updateConfig h | allDone h | notDone h | wake h | complete h | waiterWait h
  | waiterThaw h | waiterSleep h => cases hpc.symm.trans h

theorem of_inside (hpc : t.pc = .runDistgen id config ∨ t.pc = .thawOpposing id config)
    (hsuspended : ∀ d, suspended t.log d = true ↔
      suspended s.log d = true ∨ Addressed σ t (config.map opposing) d)
    (hrunning : ∀ d, Addressed σ t (config.map opposing) d → suspended s.log d = false)
    (hwf : WellFormed t) (ht : Trans σ t action t') : Bracket σ s id config t' := by
  have hbracket : t.pc.bracket = some id := by rcases hpc with h | h <;> rw [h] <;> rfl
  cases ht with
  | runDistgen hpc' =>
      rcases hpc with hpc | hpc
      · cases hpc.symm.trans hpc'
        exact .inside (.inr rfl) hsuspended hrunning
      · cases hpc.symm.trans hpc'
  | thawOpposing hpc' =>
      have hcurrent := hwf.current id config (by rcases hpc with h | h <;> rw [h] <;> rfl)
      refine .after ?_ (by rintro ⟨⟩)
      have hlast := hcurrent.last
      exact Nat.lt_of_succ_le hlast.le
  | processEnd => exact .inside hpc hsuspended hrunning
  | notifyAll => exact .inside hpc hsuspended hrunning
  | freezeOpposing h => rcases hpc with hpc | hpc <;> cases hpc.symm.trans h
  | nextJob h | lastJob h | ressource h | noRessource h | select h
  | fits h | swap h | stillFrozen h | freeze h | freezeDetach h
  | updateConfig h | allDone h | notDone h | wake h | complete h | waiterWait h
  | waiterThaw h | waiterSleep h =>
      rw [h] at hbracket
      cases hbracket

theorem of_after (hlt : id < t.controller.cmdCounter) (hbracket : t.pc.bracket ≠ some id)
    (hwf : WellFormed t) (ht : Trans σ t action t') : Bracket σ s id config t' := by
  cases ht with
  | @select r job config c id' _ _ heffect =>
      refine .after ?_ ?_
      · have hcounter : c.cmdCounter = t.controller.cmdCounter + 1 := heffect.cmdCounter
        exact hcounter ▸ Nat.lt_succ_of_lt hlt
      · have hid : id' = t.controller.cmdCounter := heffect.id_eq
        intro heq
        cases heq
        omega
  | freezeOpposing hpc => exact .after hlt (by rw [hpc] at hbracket; exact hbracket)
  | runDistgen hpc => exact .after hlt (by rw [hpc] at hbracket; exact hbracket)
  | @updateConfig r id' config' _ _ c _ _ _ hpc hupdate =>
      have hcurrent := hwf.current id' config' (by rw [hpc]; rfl)
      obtain ⟨_, hok⟩ := Vm.updateConfig_ok hupdate
      obtain ⟨_, heffect⟩ := updateConfig_effect hwf.consistent hcurrent.movable hok.base
      refine .after ?_ (by rintro ⟨⟩)
      rw [heffect.cmdCounter]
      exact hlt
  | complete _ _ heffect => exact .after (heffect.cmdCounter ▸ hlt) hbracket
  | @wake wait => exact .after hlt (by cases wait <;> rintro ⟨⟩)
  | processEnd | notifyAll | waiterWait | waiterThaw | waiterSleep =>
      exact .after hlt hbracket
  | _ => exact .after hlt (by rintro ⟨⟩)

theorem trans (h : Bracket σ s id config t) (hwf : WellFormed t)
    (hguard : KeepsFrozen σ t action) (ht : Trans σ t action t') :
    Bracket σ s id config t' := by
  cases h with
  | before hpc hlog => exact of_before hpc hlog hwf hguard ht
  | inside hpc hsuspended hrunning => exact of_inside hpc hsuspended hrunning hwf ht
  | after hlt hbracket => exact of_after hlt hbracket hwf ht

/-- The end of the bracket restores the status of every domain. -/
theorem restored (h : Bracket σ s id config t) (hwf : WellFormed t)
    (hpc : t.pc = .thawOpposing id config) {r : List ℚ}
    (hstep : step σ t (.schedule r) = .ok t') (d : Domain) :
    suspended t'.log d = suspended s.log d := by
  cases h with
  | before hpc' => cases hpc.symm.trans hpc'
  | after _ hbracket => exact absurd (by rw [hpc]; rfl) hbracket
  | inside _ hsuspended hrunning =>
      have hcurrent := hwf.current id config (by rw [hpc]; rfl)
      simp only [step, scheduleStep, hpc, bind_eq_ok] at hstep
      obtain ⟨messages, hthaw, hstep⟩ := hstep
      cases hstep
      obtain ⟨_, hsend⟩ := thawOpposing_sendTo hcurrent.row hthaw
      apply Bool.eq_iff_iff.mpr
      rw [suspended_append_resume hsend, hsuspended]
      constructor
      · rintro ⟨hd | ⟨p, hp, hdomain⟩, hnone⟩
        · exact hd
        · exact absurd hdomain (hnone p hp)
      · intro hd
        refine ⟨.inl hd, fun p hp hdomain => ?_⟩
        rw [hrunning d ⟨p, hp, hdomain⟩] at hd
        cases hd

end Bracket

theorem FrozenInv.stepLaw (h : FrozenInv σ s) (hwf : WellFormed s)
    (hwaiters : WaitersOk σ s) {action : Action} {messages : List Message}
    (hguard : KeepsFrozen σ s action) (ht : Trans σ s action s')
    (hlog : s'.log = s.log ++ messages) : StepLaw σ s action messages := by
  refine ⟨?_, ?_⟩
  · intro j d hj hd hmem
    cases resumes_of_trans hwf ht hlog hmem with
    | opposing hpc haddressed => exact absurd haddressed (h.apart _ _ (.inr hpc) j d hj hd)
    | @scheduler r id config hpc haddressed =>
        have hnil := waiters_nil_of_vmOnly hwaiters (hpc ▸ trivial : s.pc.VmOnly)
        rcases hj with ⟨w, hw, _⟩ | hfrozen
        · simp [hnil] at hw
        · rw [hpc] at hfrozen
          cases hfrozen
          exact ⟨config, hpc⟩
    | @waiter index w marked config hwaiter _ hcheck hok hrow haddressed =>
        obtain ⟨p, hp, owner, howner, hdomain⟩ := haddressed
        obtain ⟨q, _, hdomain'⟩ := hd
        rw [hwaiters.cgroup_of_mem (List.mem_of_getElem? hwaiter)] at hdomain hdomain'
        obtain ⟨_, rfl⟩ : q.1 = p.1 ∧ j = owner := by
          simpa [domainNameFromConfigElem] using hdomain'.trans hdomain.symm
        exact ⟨w, hwaiter, (hguard w marked config hwaiter hcheck hok hrow p hp j howner).symm⟩
  · intro j d hthaw hmem
    cases resumes_of_trans hwf ht hlog hmem with
    | opposing hpc =>
        obtain ⟨config, hpc'⟩ := hthaw
        cases hpc.symm.trans hpc'
    | @scheduler r id config hpc haddressed =>
        obtain ⟨config', hpc'⟩ := hthaw
        cases hpc.symm.trans hpc'
        have hcurrent := hwf.current j config (by rw [hpc]; rfl)
        obtain ⟨p, hp, owner, howner, hdomain⟩ := haddressed
        rcases hcurrent.owner_cases hwf.consistent hp with hid | hfree
        · cases howner.symm.trans hid
          exact ⟨p, hid, hdomain⟩
        · cases howner.symm.trans hfree
    | @waiter index w marked config hwaiter _ hcheck hok hrow haddressed =>
        obtain ⟨w', hwaiter', rfl⟩ := hthaw
        cases hwaiter.symm.trans hwaiter'
        obtain ⟨p, hp, owner, howner, hdomain⟩ := haddressed
        obtain rfl := hguard w marked config hwaiter hcheck hok hrow p hp owner howner
        exact ⟨p, howner, hdomain⟩

/-- Frozen jobs stay frozen along a run in which no neighbour of a measured job is
suspended already and no waiter thaws slots that its job has lost. -/
theorem frozen_stays_frozen (σ : Settings) {s : State}
    (hs : (system σ).ReachableVia (KeepsFrozen σ) s) :
    FrozenLaw σ (KeepsFrozen σ) s := by
  refine ⟨?_, ?_⟩
  · intro action s' messages hguard hstep hlog
    exact (reachable_frozenInv hs).stepLaw (reachable_wellFormed hs)
      (reachable_waitersOk hs) hguard (step_trans hstep) hlog
  · intro id config hpc t ht hpc' r t' hstep d
    have hbracket : Bracket σ s id config t := by
      refine ht.invariant ?_ ?_
      · rintro t rfl
        exact .before hpc rfl
      · intro u action u' hu h hguard hstep
        exact h.trans (reachable_wellFormed (hs.append hu)) hguard (step_trans hstep)
    exact hbracket.restored (reachable_wellFormed (hs.append ht)) hpc' hstep d

/-- A test that implies the condition: measurements begin before anything was
suspended, and no waiter wakes up. -/
def measureTest (s : State) : Action → Bool
  | .schedule _ =>
      match s.pc with
      | .freezeOpposing _ _ => decide (s.log = [])
      | _ => true
  | .waiterWake _ => false
  | _ => true

theorem keepsFrozen_of_test (σ : Settings) (s : State) (action : Action)
    (h : measureTest s action = true) : KeepsFrozen σ s action := by
  cases action with
  | schedule r =>
      intro id config hpc d _
      have hlog : s.log = [] := by simpa [measureTest, hpc] using h
      rw [hlog]
      rfl
  | waiterWake index => cases h
  | _ => exact trivial

theorem frozen_stays_frozen_secondJob : ∃ s, FrozenJob s 1 ∧
    FrozenLaw (plainSettings .cgroup) (KeepsFrozen (plainSettings .cgroup)) s := by
  have hrun : ((system (plainSettings .cgroup)).runVia measureTest
      (twoMachines .cgroup [⟨1, 1, "", true⟩, ⟨1, 1, "", true⟩])
      freezeSecond).map State.waiters = .ok [⟨1, [(0, 1)], .started⟩] := by
    decide +kernel
  obtain ⟨s, hrun, hwaiters⟩ := map_eq_ok.mp hrun
  refine ⟨s, .inl ⟨⟨1, [(0, 1)], .started⟩, by simp [hwaiters], rfl, by rintro ⟨⟩⟩, ?_⟩
  exact frozen_stays_frozen (plainSettings .cgroup)
    (System.runVia_reachable (keepsFrozen_of_test _) (.init (twoMachines_init _ _)) hrun)

def measureBeside : List Action :=
  placeJob [4 / 10] ++ [.schedule []] ++ placeJob [5 / 10, 5 / 10] ++ [.schedule []] ++
    [.schedule [], .schedule [], .schedule [], .schedule [], .schedule [9 / 10]]

/-- The measurement of the third job resumes the second one on their machine. -/
theorem not_frozenLaw_besideFrozen : ∃ s,
    (system (plainSettings .cgroup)).Reachable s ∧
      ¬ FrozenLaw (plainSettings .cgroup) (fun _ _ => True) s := by
  have hrun : ((system (plainSettings .cgroup)).run
      (twoMachines .cgroup [⟨1, 1, "", true⟩, ⟨2, 1, "", true⟩, ⟨1, 1, "", true⟩])
      measureBeside >>= fun s => (step (plainSettings .cgroup) s (.schedule [])).map
        fun s' => decide (s.pc = .thawOpposing 2 [(1, 1)] ∧
          s.waiters = [⟨1, [(0, 1), (1, 0)], .started⟩] ∧
          s.controller.machineUsage = [[some 0, some 1], [some 1, some 2]] ∧
          s'.log = s.log ++ [⟨"b", .resume (.cgroup 1 1)⟩])) = .ok true := by
    decide +kernel
  obtain ⟨s, hrun, hs⟩ := bind_eq_ok.mp hrun
  obtain ⟨s', hstep, hs⟩ := map_eq_ok.mp hs
  obtain ⟨hpc, hwaiters, husage, hlog⟩ := of_decide_eq_true hs
  have hfrozen : FrozenJob s 1 :=
    .inl ⟨⟨1, [(0, 1), (1, 0)], .started⟩, by simp [hwaiters], rfl, by rintro ⟨⟩⟩
  have howns : Owns (plainSettings .cgroup) s 1 (.cgroup 1 1) :=
    ⟨(1, 0), by rw [husage]; rfl, rfl⟩
  refine ⟨s, System.run_reachable (fun _ _ => trivial) (.init (twoMachines_init _ _)) hrun,
    fun hlaw => ?_⟩
  have hstepLaw := hlaw.step_law _ _ _ trivial hstep hlog
  obtain ⟨config, hpc'⟩ := hstepLaw.stays_frozen 1 _ hfrozen howns List.mem_cons_self
  cases hpc.symm.trans hpc'

end Poncos.MultiApp
