import Poncos.MultiApp.Cells
import Poncos.MultiApp.HandOut

/-!
States in which only frozen jobs are left.  With update support one job is frozen
at a time, and it does not exceed the threshold alone.  Without, a frozen job
waits for the jobs beside it, which are older; as long as no job is frozen because
of one that is frozen itself, the youngest one left can be thawed.
-/

namespace Poncos.MultiApp

open Poncos.Library
open Poncos.Library.Execution
open Poncos.Library.Transition
open Poncos.Controller

/-- The scheduler is in a wait whose condition is false. -/
def Blocked (s : State) : Prop :=
  match s.pc with
  | .asleep (.ressource job) => s.controller.ressourceAvailable job.reqCpus 1 = .ok false
  | .asleep (.change _ config) => ∃ marked, Check s config marked ∧ marked ≠ []
  | .asleep .done =>
      allFree s.controller.systemConfig s.controller.machineUsage = .ok false
  | _ => False

variable (σ : Settings)

/-- Only frozen jobs are left: all running jobs are suspended on some slot, the
scheduler is blocked, and no waiter would thaw its job. -/
structure Stuck (s : State) : Prop where
  running : ∃ j, s.controller.Running j
  suspended : ∀ j, s.controller.Running j → ∃ d, Owns σ s j d ∧ suspended s.log d = true
  blocked : Blocked s
  waiters : ∀ w ∈ s.waiters, w.phase ≠ .finished → ∃ marked, Check s w.config marked ∧
    ¬ ∀ m ∈ marked, ∀ c ∈ w.config, c.1 ≠ m

/-- No job uses more of a machine than the threshold, and a job completes only while
none of its domains is suspended. -/
structure Assumed (s : State) (action : Action) : Prop where
  fit : ResultsFit s action
  complete : ∀ id, action = .complete id → ∀ d, Owns σ s id d → suspended s.log d = false

/-- The condition on a step: a job that is frozen without update support is frozen
beside jobs that have no suspended domain, on every machine that is overloaded. -/
def FreezesBesideRunning (s : State) : Action → Prop
  | .schedule _ => ∀ id config, s.pc = .overload id config false → σ.backend = .cgroup →
      ∀ p ∈ config, perMachineTh < nodeUtil s.membwUtil p.1 →
        ∀ i, s.controller.machineUsage.get? (opposing p) = some (some i) →
          ∀ d, Owns σ s i d → suspended s.log d = false
  | _ => True

/-- A waiter of the job has not returned. -/
def Waiting (s : State) (id : Nat) (config : ExecuteConfig) : Prop :=
  ∃ w ∈ s.waiters, w.job = (id, config) ∧ w.phase ≠ .finished

/-- Outside `slots`, which a measurement has suspended, suspended domains belong to
jobs with a waiter, and a waiting job waits for no older one with a suspended
domain. -/
structure Ordered (s : State) (slots : ExecuteConfig) : Prop where
  old : ∀ m j, suspended s.log (.cgroup m j) = true → j < s.controller.cmdCounter
  excused : ∀ j d, Owns σ s j d → suspended s.log d = true →
    (∃ config, Waiting s j config) ∨ Addressed σ s slots d
  younger : ∀ k config, Waiting s k config → s.controller.Running k → ∀ p ∈ config,
    perMachineTh < nodeUtil s.membwUtil p.1 → ∀ i < k,
      s.controller.machineUsage.get? (opposing p) = some (some i) →
        ∀ d, Owns σ s i d → suspended s.log d = true → Addressed σ s slots d

variable {σ} {s s' : State}

theorem Owns.owner_eq (hσ : σ.backend = .cgroup) {j : Nat} {d : Domain} {p : Cell}
    (hd : Owns σ s j d) (hat : DomainAt σ.backend s.controller s.vmLocations p d) :
    s.controller.machineUsage.get? p = some (some j) := by
  obtain ⟨q, _, hq⟩ := hd
  obtain ⟨owner, howner, hp⟩ := hat
  rw [hσ] at hq hp
  obtain ⟨_, rfl⟩ : q.1 = p.1 ∧ j = owner := by
    simpa [domainNameFromConfigElem] using hq.trans hp.symm
  exact howner

theorem not_addressed_nil {d : Domain} : ¬ Addressed σ s [] d := by
  rintro ⟨p, hp, _⟩
  simp at hp

theorem WaitersOk.of_waiting (h : WaitersOk σ s) {id : Nat} {config : ExecuteConfig}
    (hw : Waiting s id config) : WaiterOk s.controller id config := by
  obtain ⟨w, hw, hjob, _⟩ := hw
  exact h.ok id config (hjob ▸ List.mem_map_of_mem hw)

theorem WaitersOk.owner_of_waiting (h : WaitersOk σ s) (hwf : WellFormed s) {id : Nat}
    {config : ExecuteConfig} (hw : Waiting s id config) (hid : s.controller.Running id)
    {p : Cell} (hp : p ∈ config) : s.controller.machineUsage.get? p = some (some id) :=
  (hwf.consistent.owner_iff p id).mpr ⟨hid, config, (h.of_waiting hw).row, hp⟩

theorem nodeUtil_eq_of_cells {util util' : MembwUtil} {p : ExecuteConfigElem} (hp : p.2 < 2)
    (hcell : util'.get? p = util.get? p)
    (hopposing : util'.get? (opposing p) = util.get? (opposing p)) :
    nodeUtil util' p.1 = nodeUtil util p.1 := by
  have hcell' : cellUtil util' (p.1, p.2) = cellUtil util (p.1, p.2) := by
    rw [cellUtil, cellUtil, hcell]
  have hopposing' : cellUtil util' (p.1, otherSlot p.2) =
      cellUtil util (p.1, otherSlot p.2) := by
    rw [cellUtil, cellUtil]
    exact congrArg (·.getD 0) hopposing
  rw [← cellUtil_add_otherSlot util' p.1 hp, ← cellUtil_add_otherSlot util p.1 hp, hcell',
    hopposing']

namespace Ordered

variable {slots : ExecuteConfig}

theorem select (h : Ordered σ s []) (hσ : σ.backend = .cgroup) (hwaiters : WaitersOk σ s)
    {job : Job} {config : ExecuteConfig} {c : Controller} {id : Nat}
    (heffect : ExecuteEffect s.controller c job config id) :
    Ordered σ { s with controller := c, pc := .freezeOpposing id config } [] := by
  have howns : ∀ j d, Owns σ { s with controller := c, pc := .freezeOpposing id config } j d →
      suspended s.log d = true → Owns σ s j d := by
    rintro j d ⟨p, howner, hdomain⟩ hd
    rcases heffect.owner_cases howner with ⟨_, rfl⟩ | howner
    · have hdomain' : d = .cgroup p.1 j := by
        rw [hσ] at hdomain
        simpa [domainNameFromConfigElem] using hdomain.symm
      have hlt := h.old p.1 j (hdomain' ▸ hd)
      rw [heffect.id_eq] at hlt
      exact absurd hlt (lt_irrefl _)
    · exact ⟨p, howner, hdomain⟩
  refine ⟨?_, ?_, ?_⟩
  · intro m j hd
    have hlt := h.old m j hd
    have hcounter : c.cmdCounter = s.controller.cmdCounter + 1 := heffect.cmdCounter
    change j < c.cmdCounter
    omega
  · intro j d hd hon
    rcases h.excused j d (howns j d hd hon) hon with hw | haddressed
    · exact .inl hw
    · exact absurd haddressed not_addressed_nil
  · intro k config' hw hk p hp hover i hik howner d hd hon
    have hlt := (hwaiters.of_waiting (s := s) hw).lt
    have hk : s.controller.Running k := by
      rcases (heffect.running_iff k).mp hk with hk | rfl
      · exact hk
      · rw [heffect.id_eq] at hlt
        exact absurd hlt (lt_irrefl _)
    rcases heffect.owner_cases howner with ⟨_, rfl⟩ | howner
    · rw [heffect.id_eq] at hik
      omega
    · have haddressed := h.younger k config' hw hk p hp hover i hik howner d
        (howns i d hd hon) hon
      exact absurd haddressed not_addressed_nil

/-- Only domains of jobs that were started are suspended. -/
theorem old_append (h : Ordered σ s slots) (hσ : σ.backend = .cgroup) (hwf : WellFormed s)
    {config : ExecuteConfig} {messages : List Message} {domains : List Domain}
    (hsend : SendTo .suspend σ.backend s.controller s.vmLocations config domains messages)
    {m j : Nat} (hd : suspended (s.log ++ messages) (.cgroup m j) = true) :
    j < s.controller.cmdCounter := by
  rcases (suspended_append_suspend hsend _).mp hd with hd | ⟨p, _, owner, howner, hdomain⟩
  · exact h.old m j hd
  · rw [hσ] at hdomain
    obtain ⟨_, rfl⟩ : p.1 = m ∧ owner = j := by
      simpa [domainNameFromConfigElem] using hdomain
    exact hwf.consistent.running_lt ((hwf.consistent.owner_iff p owner).mp howner).1

theorem freezeOpposing (h : Ordered σ s []) (hσ : σ.backend = .cgroup) (hwf : WellFormed s)
    {pc : Pc} {messages : List Message} {domains : List Domain}
    (hsend : SendTo .suspend σ.backend s.controller s.vmLocations slots domains messages) :
    Ordered σ { s with log := s.log ++ messages, pc := pc } slots := by
  refine ⟨?_, ?_, ?_⟩
  · exact fun m j hd => h.old_append hσ hwf hsend hd
  · intro j d hd hon
    rcases (suspended_append_suspend hsend d).mp hon with hon | haddressed
    · rcases h.excused j d hd hon with hw | haddressed
      · exact .inl hw
      · exact absurd haddressed not_addressed_nil
    · exact .inr haddressed
  · intro k config hw hk p hp hover i hik howner d hd hon
    rcases (suspended_append_suspend hsend d).mp hon with hon | haddressed
    · have haddressed := h.younger k config hw hk p hp hover i hik howner d hd hon
      exact absurd haddressed not_addressed_nil
    · exact haddressed

theorem runDistgen (h : Ordered σ s slots) (hwf : WellFormed s) (hwaiters : WaitersOk σ s)
    {r : List ℚ} {id : Nat} {config : ExecuteConfig} {util : MembwUtil}
    (hpc : s.pc = .runDistgen id config)
    (hmeasured : Measured config r s.membwUtil util) :
    Ordered σ { s with membwUtil := util, pc := .thawOpposing id config } slots := by
  have hcurrent := hwf.current id config (by rw [hpc]; rfl)
  have hid := hwf.fresh id (by rw [hpc]; rfl)
  refine ⟨h.old, h.excused, ?_⟩
  intro k config' hw hk p hp hover i hik howner d hd hon
  have hwaiting : Waiting s k config' := hw
  have hk' : k < id := by
    have hlt := (hwaiters.of_waiting hwaiting).lt
    have hne : k ≠ id := by
      obtain ⟨w, hmem, hjob, _⟩ := hwaiting
      exact hwaiters.ne_current id config (by rw [hpc]; rfl) k config'
        (hjob ▸ List.mem_map_of_mem hmem)
    have hlast := hcurrent.last
    omega
  have hothers : ∀ q j, s.controller.machineUsage.get? q = some (some j) → j ≠ id →
      util.get? q = s.membwUtil.get? q := by
    intro q j hj hne
    refine hmeasured.others q fun hq => hne ?_
    have howner := (hcurrent.owner_eq hwf.consistent hid).mpr hq
    simpa using hj.symm.trans howner
  have hslot := ((hwaiters.of_waiting hwaiting).range p hp).2
  have hcell := hothers p k (hwaiters.owner_of_waiting hwf hwaiting hk hp) (by omega)
  have hopposing := hothers (opposing p) i howner (by omega)
  have hover : perMachineTh < nodeUtil util p.1 := hover
  rw [nodeUtil_eq_of_cells hslot hcell hopposing] at hover
  exact h.younger k config' hwaiting hk p hp hover i hik howner d hd hon

theorem thawOpposing (h : Ordered σ s slots) {pc : Pc} {messages : List Message}
    {domains : List Domain}
    (hsend : SendTo .resume σ.backend s.controller s.vmLocations slots domains messages) :
    Ordered σ { s with log := s.log ++ messages, pc := pc } [] := by
  have hstill : ∀ d, suspended (s.log ++ messages) d = true →
      suspended s.log d = true ∧ ¬ Addressed σ s slots d := by
    intro d hd
    obtain ⟨hd, hnone⟩ := (suspended_append_resume hsend d).mp hd
    exact ⟨hd, fun ⟨p, hp, hdomain⟩ => hnone p hp hdomain⟩
  refine ⟨fun m j hd => h.old m j (hstill _ hd).1, ?_, ?_⟩
  · intro j d hd hon
    obtain ⟨hon, hnot⟩ := hstill d hon
    exact .inl ((h.excused j d hd hon).resolve_right hnot)
  · intro k config hw hk p hp hover i hik howner d hd hon
    obtain ⟨hon, hnot⟩ := hstill d hon
    exact absurd (h.younger k config hw hk p hp hover i hik howner d hd hon) hnot

theorem freeze (h : Ordered σ s []) (hσ : σ.backend = .cgroup) (hwf : WellFormed s)
    (hwaiters : WaitersOk σ s) {id : Nat} {config : ExecuteConfig}
    {messages : List Message} (hpc : s.pc = .overload id config false)
    (hfreeze : Controller.freeze σ.backend s.controller s.vmLocations id = .ok messages)
    (hbeside : ∀ p ∈ config, perMachineTh < nodeUtil s.membwUtil p.1 →
      ∀ i, s.controller.machineUsage.get? (opposing p) = some (some i) →
        ∀ d, Owns σ s i d → suspended s.log d = false) :
    Ordered σ { s with
      log := s.log ++ messages
      waiters := s.waiters ++ [⟨id, config, .started⟩]
      pc := .nextJob } [] := by
  have hcurrent := hwf.current id config (by rw [hpc]; rfl)
  have hid := hwf.fresh id (by rw [hpc]; rfl)
  obtain ⟨_, hsend⟩ := hcurrent.freeze_sendTo hfreeze
  have hown : ∀ j d, Owns σ s j d → suspended (s.log ++ messages) d = true →
      suspended s.log d = true ∨ j = id := by
    intro j d hd hon
    rcases (suspended_append_suspend hsend d).mp hon with hon | ⟨p, hp, hat⟩
    · exact .inl hon
    · right
      have howner := (hcurrent.owner_eq hwf.consistent hid).mpr hp
      simpa using (hd.owner_eq hσ hat).symm.trans howner
  have hwaiting : ∀ k config', Waiting { s with
      log := s.log ++ messages
      waiters := s.waiters ++ [⟨id, config, .started⟩]
      pc := .nextJob } k config' → Waiting s k config' ∨ k = id ∧ config' = config := by
    rintro k config' ⟨w, hw, hjob, hphase⟩
    rcases List.mem_append.mp hw with hw | hw
    · exact .inl ⟨w, hw, hjob, hphase⟩
    · cases List.mem_singleton.mp hw
      cases hjob
      exact .inr ⟨rfl, rfl⟩
  refine ⟨?_, ?_, ?_⟩
  · exact fun m j hd => h.old_append hσ hwf hsend hd
  · intro j d hd hon
    left
    rcases hown j d hd hon with hon | rfl
    · obtain ⟨config', w, hw, hjob⟩ :=
        (h.excused j d hd hon).resolve_right not_addressed_nil
      exact ⟨config', w, List.mem_append_left _ hw, hjob⟩
    · exact ⟨config, _, List.mem_append_right _ (List.mem_singleton_self _), rfl,
        by rintro ⟨⟩⟩
  · intro k config' hw hk p hp hover i hik howner d hd hon
    have hlast := hcurrent.last
    rcases hwaiting k config' hw with hw | ⟨rfl, rfl⟩
    · have hlt := (hwaiters.of_waiting hw).lt
      have hon := (hown i d hd hon).resolve_right (by omega)
      exact h.younger k config' hw hk p hp hover i hik howner d hd hon
    · have hon := (hown i d hd hon).resolve_right (by omega)
      rw [hbeside p hp hover i howner d hd] at hon
      cases hon

theorem complete (h : Ordered σ s slots) (hwf : WellFormed s) (hwaiters : WaitersOk σ s)
    (hslots : slots = []) {id : Nat} {c : Controller}
    {config : ExecuteConfig} {util : MembwUtil} (hid : s.controller.Running id)
    (heffect : CompleteEffect s.controller c id config)
    (hclear : Cleared config s.membwUtil util) :
    Ordered σ { s with controller := c, membwUtil := util } slots := by
  subst hslots
  have howner : ∀ p j, c.machineUsage.get? p = some (some j) →
      s.controller.machineUsage.get? p = some (some j) ∧
        util.get? p = s.membwUtil.get? p := by
    intro p j hj
    obtain ⟨hp, hj⟩ := heffect.owner_before hj
    exact ⟨hj, by rw [hclear.get?_eq, if_neg hp]⟩
  have howns : ∀ j d, Owns σ { s with controller := c, membwUtil := util } j d →
      Owns σ s j d := fun j d ⟨p, hj, hdomain⟩ => ⟨p, (howner p j hj).1, hdomain⟩
  refine ⟨?_, ?_, ?_⟩
  · intro m j hd
    have hcounter : c.cmdCounter = s.controller.cmdCounter := heffect.cmdCounter
    exact hcounter ▸ h.old m j hd
  · intro j d hd hon
    exact .inl ((h.excused j d (howns j d hd) hon).resolve_right not_addressed_nil)
  · intro k config' hw hk p hp hover i hik hi d hd hon
    have hwaiting : Waiting s k config' := hw
    have hkrow := (heffect.consistent hwf.consistent hid).owner_iff p k
    have hkowner := hkrow.mpr ⟨hk, config', by
      rw [heffect.idToConfig]
      exact (hwaiters.of_waiting hwaiting).row, hp⟩
    have hslot := ((hwaiters.of_waiting hwaiting).range p hp).2
    have hover : perMachineTh < nodeUtil util p.1 := hover
    rw [nodeUtil_eq_of_cells hslot (howner p k hkowner).2 (howner _ i hi).2] at hover
    have hk := ((heffect.running_iff k).mp hk).1
    have haddressed := h.younger k config' hwaiting hk p hp hover i hik (howner _ i hi).1 d
      (howns i d hd) hon
    exact absurd haddressed not_addressed_nil

theorem thaw (h : Ordered σ s []) (hwf : WellFormed s) (hwaiters : WaitersOk σ s)
    {index id : Nat} {config : ExecuteConfig} {phase : WaiterPhase}
    {messages : List Message} (hwaiter : s.waiters[index]? = some ⟨id, config, phase⟩)
    (hthaw : Controller.thaw σ.backend s.controller s.vmLocations id = .ok messages) :
    Ordered σ { s with
      log := s.log ++ messages
      waiters := s.waiters.set index ⟨id, config, .finished⟩ } [] := by
  obtain ⟨config', _, hrow, hsend⟩ := thaw_sendTo hthaw
  have hstill : ∀ d, suspended (s.log ++ messages) d = true → suspended s.log d = true ∧
      ∀ p ∈ config', ¬ Controller.DomainAt σ.backend s.controller s.vmLocations p d :=
    fun d => (suspended_append_resume hsend d).mp
  have hback : ∀ k config'', Waiting { s with
      log := s.log ++ messages
      waiters := s.waiters.set index ⟨id, config, .finished⟩ } k config'' →
      Waiting s k config'' := by
    rintro k config'' ⟨w, hw, hjob, hphase⟩
    exact ⟨w, (hwaiters.ne_of_set hwaiter hw hphase).1, hjob, hphase⟩
  refine ⟨fun m j hd => h.old m j (hstill _ hd).1, ?_, ?_⟩
  · intro j d hd hon
    obtain ⟨hon, hnone⟩ := hstill d hon
    obtain ⟨config'', w, hw, hjob, hphase⟩ :=
      (h.excused j d hd hon).resolve_right not_addressed_nil
    refine .inl ⟨config'', w, ?_, hjob, hphase⟩
    obtain ⟨k, hk⟩ := List.mem_iff_getElem?.mp hw
    refine List.mem_iff_getElem?.mpr ⟨k, ?_⟩
    rw [List.getElem?_set_ne, hk]
    rintro rfl
    -- the waiter of the job itself: all its domains were resumed
    cases hwaiter.symm.trans hk
    cases hjob
    obtain ⟨p, howner, hdomain⟩ := hd
    obtain ⟨_, config₁, hrow₁, hp⟩ := (hwf.consistent.owner_iff p _).mp howner
    cases hrow.symm.trans hrow₁
    exact hnone p hp ⟨_, howner, hdomain⟩
  · intro k config'' hw hk p hp hover i hik howner d hd hon
    exact h.younger k config'' (hback k config'' hw) hk p hp hover i hik howner d hd
      (hstill d hon).1

theorem of_waiters (h : Ordered σ s slots) {waiters : List Waiter}
    (hwaiting : ∀ k config, Waiting { s with waiters := waiters } k config ↔
      Waiting s k config) : Ordered σ { s with waiters := waiters } slots := by
  refine ⟨h.old, ?_, ?_⟩
  · intro j d hd hon
    refine (h.excused j d hd hon).imp_left ?_
    rintro ⟨config, hw⟩
    exact ⟨config, (hwaiting j config).mpr hw⟩
  · intro k config hw
    exact h.younger k config ((hwaiting k config).mp hw)

theorem setPhase (h : Ordered σ s slots) {id : Nat} {phase : Phase}
    (hrunning : ∀ j, (s.controller.setPhase id phase).Running j ↔
      s.controller.Running j) :
    Ordered σ { s with controller := s.controller.setPhase id phase } slots :=
  ⟨h.old, h.excused, fun k config hw hk =>
    h.younger k config hw ((hrunning k).mp hk)⟩

end Ordered

/-- The job the scheduler is busy with runs, with all its domains suspended while
the scheduler waits for it; every slot has a VM of its own. -/
structure CurrentOk (σ : Settings) (s : State) : Prop where
  running : ∀ id config, s.pc.current = some (id, config) → s.controller.Running id
  frozen : ∀ id, s.pc.frozenJob = some id → ∀ d, Owns σ s id d → suspended s.log d = true
  located : σ.backend = .vm → ∀ p : Cell, p.1 < s.controller.machines.length → p.2 < 2 →
    (s.vmLocations.get? p).isSome
  names : σ.backend = .vm → ∀ p q name, s.vmLocations.get? p = some name →
    s.vmLocations.get? q = some name → p = q

namespace CurrentOk

theorem of_pc (h : CurrentOk σ s) {pc : Pc} {queue : List Job} {log : List Message}
    {util : MembwUtil}
    (hcurrent : ∀ id config, pc.current = some (id, config) →
      s.pc.current = some (id, config))
    (hfrozen : ∀ id, pc.frozenJob = some id → ∀ d, Owns σ s id d → suspended log d = true) :
    CurrentOk σ { s with pc := pc, queue := queue, log := log, membwUtil := util } :=
  ⟨fun id config hpc => h.running id config (hcurrent id config hpc), hfrozen, h.located,
    h.names⟩

/-- The frozen job does not complete, since its domains are suspended. -/
theorem complete_ne (h : CurrentOk σ s) (hwf : WellFormed s) (hσ : σ.backend = .vm)
    {id k : Nat} {config : ExecuteConfig} (hpc : s.pc = .asleep (.change id config))
    (hrunning : ∀ d, Owns σ s k d → suspended s.log d = false) : id ≠ k := by
  rintro rfl
  have hcurrent := hwf.current id config (by rw [hpc]; rfl)
  have hid := h.running id config (by rw [hpc]; rfl)
  obtain ⟨p, hp⟩ := List.exists_mem_of_ne_nil _ hcurrent.nonempty
  have hrange := hwf.config_range hcurrent hp
  obtain ⟨name, hname⟩ := Option.isSome_iff_exists.mp (h.located hσ p hrange.1 hrange.2)
  have hd : Owns σ s id (.vm name) := by
    refine ⟨p, (hcurrent.owner_eq hwf.consistent hid).mpr hp, ?_⟩
    rw [hσ]
    simp [domainNameFromConfigElem, hname]
  have hon := h.frozen id (by rw [hpc]; rfl) _ hd
  rw [hrunning _ hd] at hon
  cases hon

theorem trans {action : Action} (h : CurrentOk σ s) (hwf : WellFormed s)
    (hwaiters : WaitersOk σ s)
    (hassumed : ∀ id, action = .complete id → ∀ d, Owns σ s id d → suspended s.log d = false)
    (ht : Trans σ s action s') : CurrentOk σ s' := by
  have hwf' := hwf.trans ht
  cases ht with
  | select _ _ heffect =>
      refine ⟨?_, by rintro _ ⟨⟩, ?_, h.names⟩
      · rintro _ _ ⟨⟩
        exact hwf'.fresh _ rfl
      · rw [heffect.machines]
        exact h.located
  | freezeOpposing hpc | runDistgen hpc | thawOpposing hpc | swap hpc =>
      exact h.of_pc (by rw [hpc]; exact fun _ _ h => h) (by rintro _ ⟨⟩)
  | stillFrozen hpc =>
      have hfrozen := h.frozen
      rw [hpc] at hfrozen
      exact h.of_pc (by rw [hpc]; exact fun _ _ h => h) hfrozen
  | @freeze r id config messages marked hpc _ _ _ _ hfreeze =>
      have hcurrent := hwf.current id config (by rw [hpc]; rfl)
      have hid := hwf.fresh id (by rw [hpc]; rfl)
      obtain ⟨_, hsend⟩ := hcurrent.freeze_sendTo hfreeze
      refine h.of_pc (by rw [hpc]; exact fun _ _ h => h) ?_
      rintro _ ⟨⟩ d ⟨p, howner, hdomain⟩
      refine (suspended_append_suspend hsend d).mpr (.inr ⟨p, ?_, id, howner, hdomain⟩)
      exact (hcurrent.owner_eq hwf.consistent hid).mp howner
  | @updateConfig r id config _ _ _ _ _ _ hpc hupdate =>
      have hcurrent := hwf.current id config (by rw [hpc]; rfl)
      obtain ⟨_, hok⟩ := Vm.updateConfig_ok hupdate
      obtain ⟨_, heffect⟩ := updateConfig_effect hwf.consistent hcurrent.movable hok.base
      refine ⟨by rintro _ _ ⟨⟩, by rintro _ ⟨⟩, fun hσ p => ?_, fun hσ p q name hp hq => ?_⟩
      · rw [heffect.machines, hok.located]
        exact h.located hσ p
      · rw [hok.locations] at hp hq
        exact Equiv.injective _ (h.names hσ _ _ name hp hq)
  | @wake wait hpc =>
      have hfrozen := h.frozen
      rw [hpc] at hfrozen
      cases wait with
      | ressource => exact h.of_pc (by rintro _ _ ⟨⟩) (by rintro _ ⟨⟩)
      | change => exact h.of_pc (by rw [hpc]; exact fun _ _ h => h) hfrozen
      | done => exact h.of_pc (by rintro _ _ ⟨⟩) (by rintro _ ⟨⟩)
  | processEnd hphase =>
      exact ⟨fun id config hpc => (running_setPhase_ended hphase id).mpr (h.running id config hpc),
        h.frozen, h.located, h.names⟩
  | notifyAll hphase =>
      exact ⟨fun id config hpc =>
          (running_setPhase_finished hwf.consistent hphase id).mpr (h.running id config hpc),
        h.frozen, h.located, h.names⟩
  | @complete k wait c config' util hpc hphase heffect =>
      refine ⟨?_, ?_, ?_, h.names⟩
      · intro id config hcurrent
        refine (heffect.running_iff id).mpr ⟨h.running id config hcurrent, ?_⟩
        cases wait with
        | ressource => simp [hpc, Pc.current] at hcurrent
        | done => simp [hpc, Pc.current] at hcurrent
        | change id' config'' =>
            rw [hpc] at hcurrent
            cases hcurrent
            have hσ := hwaiters.vm_of_vmOnly (hpc ▸ trivial)
            exact h.complete_ne hwf hσ hpc (hassumed k rfl)
      · rintro id hid d ⟨p, howner, hdomain⟩
        exact h.frozen id hid d ⟨p, (heffect.owner_before howner).2, hdomain⟩
      · rw [heffect.machines]
        exact h.located
  | @waiterThaw index id' wait config notified marked messages hpc hwaiter =>
      refine ⟨h.running, fun id hid => ?_, h.located, h.names⟩
      have hmem := List.mem_of_getElem? hwaiter
      have hvm : ¬ s.pc.VmOnly := by
        intro hvm
        rw [waiters_nil_of_vmOnly hwaiters hvm] at hmem
        simp at hmem
      have hid : s.pc.frozenJob = some id := hid
      rw [hpc] at hid hvm
      cases wait with
      | change => exact absurd trivial hvm
      | ressource | done => cases hid
  | waiterWait | waiterSleep => exact ⟨h.running, h.frozen, h.located, h.names⟩
  | _ => exact ⟨by rintro _ _ ⟨⟩, by rintro _ ⟨⟩, h.located, h.names⟩

end CurrentOk

theorem waiting_set_iff {index id : Nat} {config : ExecuteConfig}
    {phase phase' : WaiterPhase} (hwaiter : s.waiters[index]? = some ⟨id, config, phase⟩)
    (hphase : phase ≠ .finished) (hphase' : phase' ≠ .finished) (k : Nat)
    (config' : ExecuteConfig) :
    Waiting { s with waiters := s.waiters.set index ⟨id, config, phase'⟩ } k config' ↔
      Waiting s k config' := by
  have hlt := (List.getElem?_eq_some_iff.mp hwaiter).1
  constructor
  · rintro ⟨w, hw, hjob, hw'⟩
    rcases mem_set_cases hw with rfl | hw
    · exact ⟨_, List.mem_of_getElem? hwaiter, hjob, hphase⟩
    · exact ⟨w, hw, hjob, hw'⟩
  · rintro ⟨w, hw, hjob, hw'⟩
    obtain ⟨i, hi⟩ := List.mem_iff_getElem?.mp hw
    rcases eq_or_ne index i with rfl | hne
    · cases hwaiter.symm.trans hi
      exact ⟨_, List.mem_set hlt _, hjob, hphase'⟩
    · refine ⟨w, List.mem_iff_getElem?.mpr ⟨i, ?_⟩, hjob, hw'⟩
      exact (List.getElem?_set_ne hne).trans hi

theorem waiting_notify_iff (k : Nat) (config : ExecuteConfig) :
    Waiting { s with waiters := s.waiters.map Waiter.notify } k config ↔
      Waiting s k config := by
  have hphase : ∀ w : Waiter, w.notify.phase = .finished ↔ w.phase = .finished := by
    intro w
    rw [Waiter.notify]
    split
    · rename_i hasleep
      simp [hasleep]
    · rfl
    · rfl
  constructor
  · rintro ⟨w, hw, hjob, hw'⟩
    obtain ⟨v, hv, rfl⟩ := List.mem_map.mp hw
    exact ⟨v, hv, v.job_notify ▸ hjob, mt (hphase v).mpr hw'⟩
  · rintro ⟨v, hv, hjob, hv'⟩
    exact ⟨v.notify, List.mem_map_of_mem hv, v.job_notify.trans hjob, mt (hphase v).mp hv'⟩

/-- Without update support nothing is suspended for good while the scheduler
sleeps. -/
theorem WaitersOk.frozenSlots_eq_nil (h : WaitersOk σ s) (hσ : σ.backend = .cgroup)
    {wait : Wait} (hpc : s.pc = .asleep wait) : s.pc.frozenSlots = [] := by
  have hvm := h.cgroup hσ
  rw [hpc] at hvm ⊢
  cases wait with
  | change => exact absurd trivial hvm
  | ressource | done => rfl

theorem Ordered.trans {action : Action} (h : Ordered σ s s.pc.frozenSlots)
    (hσ : σ.backend = .cgroup) (hwf : WellFormed s) (hwaiters : WaitersOk σ s)
    (hguard : FreezesBesideRunning σ s action) (ht : Trans σ s action s') :
    Ordered σ s' s'.pc.frozenSlots := by
  have hvm := hwaiters.cgroup hσ
  cases ht with
  | select hpc _ heffect =>
      rw [hpc] at h
      exact h.select hσ hwaiters heffect
  | freezeOpposing hpc hfreeze =>
      have hcurrent := hwf.current _ _ (by rw [hpc]; rfl)
      obtain ⟨_, hsend⟩ := freezeOpposing_sendTo hcurrent.row hfreeze
      rw [hpc] at h
      exact h.freezeOpposing hσ hwf hsend
  | runDistgen hpc hmeasured =>
      have hnext := h.runDistgen hwf hwaiters hpc hmeasured
      rw [hpc] at hnext
      exact hnext
  | thawOpposing hpc hthaw =>
      have hcurrent := hwf.current _ _ (by rw [hpc]; rfl)
      obtain ⟨_, hsend⟩ := thawOpposing_sendTo hcurrent.row hthaw
      rw [hpc] at h
      exact h.thawOpposing hsend
  | fits hpc _ hthaw =>
      have hcurrent := hwf.current _ _ (by rw [hpc]; rfl)
      rcases thawIfFrozen_cases hcurrent hthaw with ⟨rfl, rfl⟩ | ⟨rfl, _⟩
      · rw [hpc] at h
        rw [List.append_nil]
        exact ⟨h.old, h.excused, h.younger⟩
      · exact absurd (hpc ▸ trivial) hvm
  | swap _ _ _ hproposed =>
      have hsupported := hproposed.supported
      rw [hσ] at hsupported
      cases hsupported
  | freeze _ _ _ _ hbackend => cases hσ.symm.trans hbackend
  | freezeDetach hpc _ _ _ hfreeze =>
      have hbeside := hguard _ _ hpc hσ
      rw [hpc] at h
      exact h.freeze hσ hwf hwaiters hpc hfreeze hbeside
  | stillFrozen hpc | updateConfig hpc => exact absurd (hpc ▸ trivial) hvm
  | @wake wait hpc =>
      rw [hpc] at h hvm
      cases wait with
      | change => exact absurd trivial hvm
      | ressource | done => exact ⟨h.old, h.excused, h.younger⟩
  | processEnd hphase => exact h.setPhase (running_setPhase_ended hphase)
  | notifyAll hphase =>
      have hnext := h.setPhase (running_setPhase_finished hwf.consistent hphase)
      exact hnext.of_waiters fun k config => waiting_notify_iff k config
  | complete hpc hphase heffect hclear =>
      exact h.complete hwf hwaiters (hwaiters.frozenSlots_eq_nil hσ hpc)
        (running_of_inPhase hphase (.inr rfl)) heffect hclear
  | waiterWait _ hwaiter | waiterSleep _ hwaiter =>
      exact h.of_waiters (waiting_set_iff hwaiter (by rintro ⟨⟩) (by rintro ⟨⟩))
  | waiterThaw hpc hwaiter _ _ hthaw =>
      have hnil := hwaiters.frozenSlots_eq_nil hσ hpc
      rw [hnil] at h
      change Ordered σ _ s.pc.frozenSlots
      rw [hnil]
      exact h.thaw hwf hwaiters hwaiter hthaw
  | nextJob hpc | lastJob hpc | ressource hpc | noRessource hpc | allDone hpc
  | notDone hpc =>
      rw [hpc] at h
      exact ⟨h.old, h.excused, h.younger⟩

structure Progress (σ : Settings) (s : State) : Prop where
  current : CurrentOk σ s
  cells : CellsOk s
  vm : σ.backend = .vm → SuspendedOk σ s
  cgroup : σ.backend = .cgroup → Ordered σ s s.pc.frozenSlots

/-- With update support, a frozen job that is the only one left fits. -/
theorem Progress.not_stuck_vm (h : Progress σ s) (hwf : WellFormed s)
    (hσ : σ.backend = .vm) : ¬ Stuck σ s := by
  intro hstuck
  obtain ⟨j, hj⟩ := hstuck.running
  obtain ⟨d, _, hon⟩ := hstuck.suspended j hj
  obtain ⟨p₀, hp₀, _⟩ := h.vm hσ d hon
  have hblocked := hstuck.blocked
  rw [Blocked] at hblocked
  split at hblocked
  · rename_i hpc
    simp [hpc, Pc.frozenSlots] at hp₀
  · rename_i id config hpc
    have hcurrent := hwf.current id config (by rw [hpc]; rfl)
    have hid := h.current.running id config (by rw [hpc]; rfl)
    -- every running job is the frozen one
    have hall : ∀ i, s.controller.Running i → i = id := by
      intro i hi
      obtain ⟨d, ⟨q, howner, hq⟩, hon⟩ := hstuck.suspended i hi
      obtain ⟨p, hp, owner, howner', hp'⟩ := h.vm hσ d hon
      rw [hpc] at hp
      rw [hσ] at hq hp'
      simp only [domainNameFromConfigElem, bind_eq_ok, Grid.read_eq_ok] at hq hp'
      obtain ⟨name, hname, hq⟩ := hq
      obtain ⟨name', hname', hp'⟩ := hp'
      cases hq
      cases hp'
      obtain rfl := h.current.names hσ q p name hname hname'
      have howner'' := (hcurrent.owner_eq hwf.consistent hid).mpr hp
      simpa using howner.symm.trans howner''
    obtain ⟨marked, hcheck, hmarked⟩ := hblocked
    have hrange := fun p (hp : p ∈ config) => (hwf.config_range hcurrent hp).1
    obtain ⟨p, hp, hover⟩ := (marked_ne_nil_iff hwf hrange hcheck).mp hmarked
    obtain ⟨i, hi⟩ := h.cells.exists_opposing hwf (hwf.config_range hcurrent hp) hover
    obtain rfl := hall i ((hwf.consistent.owner_iff _ _).mp hi).1
    have hopposing := (hcurrent.owner_eq hwf.consistent hid).mp hi
    exact not_opposing_mem hcurrent.machines hp hopposing
  · rename_i hpc
    simp [hpc, Pc.frozenSlots] at hp₀
  · exact hblocked

/-- Without update support, the youngest job left waits for no one. -/
theorem Progress.not_stuck_cgroup (h : Progress σ s) (hwf : WellFormed s)
    (hwaiters : WaitersOk σ s) (hσ : σ.backend = .cgroup) : ¬ Stuck σ s := by
  intro hstuck
  obtain ⟨j, hj⟩ := hstuck.running
  obtain ⟨k, hk, hle⟩ : ∃ k, s.controller.Running k ∧ ∀ i, s.controller.Running i → i ≤ k :=
    ⟨Nat.findGreatest s.controller.Running s.controller.cmdCounter,
      Nat.findGreatest_spec (hwf.consistent.running_lt hj).le hj,
      fun i hi => Nat.le_findGreatest (hwf.consistent.running_lt hi).le hi⟩
  have hslots : s.pc.frozenSlots = [] := by
    have hblocked := hstuck.blocked
    rw [Blocked] at hblocked
    split at hblocked
    · rename_i hpc
      exact hwaiters.frozenSlots_eq_nil hσ hpc
    · rename_i hpc
      exact hwaiters.frozenSlots_eq_nil hσ hpc
    · rename_i hpc
      exact hwaiters.frozenSlots_eq_nil hσ hpc
    · exact hblocked.elim
  have hordered := h.cgroup hσ
  rw [hslots] at hordered
  obtain ⟨d, hd, hon⟩ := hstuck.suspended k hk
  obtain ⟨config, hw⟩ := (hordered.excused k d hd hon).resolve_right not_addressed_nil
  have hok := hwaiters.of_waiting hw
  obtain ⟨w, hmem, hjob, hphase⟩ := hw
  obtain ⟨rfl, rfl⟩ : w.id = k ∧ w.config = config := Prod.mk.inj hjob
  obtain ⟨marked, hcheck, hnot⟩ := hstuck.waiters w hmem hphase
  obtain ⟨p, hp, hover⟩ :=
    not_not.mp (mt (waiter_ok_iff hwf (hwaiters.range hmem) hcheck).mpr hnot)
  obtain ⟨i, hi⟩ := h.cells.exists_opposing hwf (hok.range p hp) hover
  have hrunning := ((hwf.consistent.owner_iff _ _).mp hi).1
  have hik : i < w.id := by
    refine lt_of_le_of_ne (hle i hrunning) ?_
    rintro rfl
    obtain ⟨_, config', hrow, hopposing⟩ := (hwf.consistent.owner_iff _ _).mp hi
    cases hok.row.symm.trans hrow
    exact not_opposing_mem hok.machines hp hopposing
  obtain ⟨d', hd', hon'⟩ := hstuck.suspended i hrunning
  exact not_addressed_nil
    (hordered.younger w.id w.config ⟨w, hmem, rfl, hphase⟩ hk p hp hover i hik hi d' hd' hon')

/-- No run reaches a state in which only frozen jobs are left, if no job is frozen
beside a suspended one. -/
theorem not_stuck (σ : Settings) {s : State}
    (hs : (system σ).ReachableVia
      (fun s action => Assumed σ s action ∧ FreezesBesideRunning σ s action) s) :
    ¬ Stuck σ s := by
  have hprogress : Progress σ s := by
    refine hs.invariant ?_ ?_
    · rintro s ⟨machines, systemConfig, vmLocations, queue, _, hvms, rfl⟩
      refine ⟨⟨by rintro _ _ ⟨⟩, by rintro _ ⟨⟩, fun hσ p hp hp' => ?_, fun hσ => ?_⟩, .start,
        fun _ d hd => (by cases hd), fun _ => ⟨?_, ?_, ?_⟩⟩
      · rw [hσ] at hvms
        exact (hvms.1.isSome_iff p).mpr ⟨hp, hp'⟩
      · rw [hσ] at hvms
        have hempty := Grid.rectangular_replicate machines.length ([none, none] : SlotAllocation)
        exact (Vm.VmTable.of_nodup hempty hvms.1 hvms.2).names
      · rintro _ _ ⟨⟩
      · rintro _ _ _ ⟨⟩
      · rintro _ _ ⟨_, hw, _⟩
        simp [start] at hw
    · intro s action s' hs h hguard hstep
      have hwf := reachable_wellFormed hs
      have hwaiters := reachable_waitersOk hs
      have ht := step_trans hstep
      exact ⟨h.current.trans hwf hwaiters hguard.1.complete ht,
        h.cells.trans hwf (reachable_swapsGenerated hs) hguard.1.fit ht,
        fun hσ => (h.vm hσ).trans hσ hwf hguard.1.complete ht,
        fun hσ => (h.cgroup hσ).trans hσ hwf hwaiters hguard.2 ht⟩
  cases hσ : σ.backend with
  | vm => exact hprogress.not_stuck_vm (reachable_wellFormed hs) hσ
  | cgroup =>
      exact hprogress.not_stuck_cgroup (reachable_wellFormed hs) (reachable_waitersOk hs) hσ

def stillSuspended (log : List Message) : List Domain :=
  log.filterMap fun message => match message.task with
    | .suspend d => if suspended log d then some d else none
    | .resume _ | .migrate _ => none

theorem exists_suspend_of_foldl {log : List Message} {d : Domain} {status : Bool}
    (h : log.foldl (statusAfter d) status = true) :
    status = true ∨ ∃ message ∈ log, message.task = .suspend d := by
  induction log generalizing status with
  | nil => exact .inl h
  | cons message rest ih =>
      rcases ih h with hstatus | ⟨message', hmem, htask⟩
      · rw [statusAfter] at hstatus
        split at hstatus
        · rename_i d' htask
          split at hstatus
          · rename_i heq
            exact .inr ⟨message, List.mem_cons_self, heq ▸ htask⟩
          · exact .inl hstatus
        · split at hstatus
          · cases hstatus
          · exact .inl hstatus
        · exact .inl hstatus
      · exact .inr ⟨message', List.mem_cons_of_mem _ hmem, htask⟩

theorem mem_stillSuspended {log : List Message} {d : Domain} (h : suspended log d = true) :
    d ∈ stillSuspended log := by
  obtain ⟨message, hmem, htask⟩ :=
    (exists_suspend_of_foldl h).resolve_left (by rintro ⟨⟩)
  refine List.mem_filterMap.mpr ⟨message, hmem, ?_⟩
  simp [htask, h]

/-- A test that implies the assumptions without update support. -/
def assumedTest (s : State) : Action → Bool
  | .schedule distgenRes => distgenRes.all fun result => 1 - result ≤ perMachineTh
  | .complete id => (stillSuspended s.log).all fun d => match d with
      | .cgroup _ j => j ≠ id
      | .vm _ => false
  | _ => true

theorem assumed_of_test (s : State) (action : Action) (h : assumedTest s action = true) :
    Assumed (plainSettings .cgroup) s action := by
  refine ⟨?_, ?_⟩
  · cases action with
    | schedule r =>
        intro id config _ result hresult
        exact of_decide_eq_true (List.all_eq_true.mp h result hresult)
    | _ => exact trivial
  · rintro id rfl d ⟨p, _, hdomain⟩
    rw [Bool.eq_false_iff]
    intro hon
    have htest := List.all_eq_true.mp h d (mem_stillSuspended hon)
    cases hdomain
    simp at htest

/-- A test that implies the condition: nothing is suspended when a job may be
frozen. -/
def besideTest (s : State) : Action → Bool
  | .schedule _ => match s.pc with
      | .overload _ _ false => decide (stillSuspended s.log = [])
      | _ => true
  | _ => true

theorem freezesBesideRunning_of_test (σ : Settings) (s : State) (action : Action)
    (h : besideTest s action = true) : FreezesBesideRunning σ s action := by
  cases action with
  | schedule r =>
      intro id config hpc _ p _ _ i _ d _
      have hnil : stillSuspended s.log = [] := by simpa [besideTest, hpc] using h
      rw [Bool.eq_false_iff]
      intro hon
      have hmem := mem_stillSuspended hon
      simp [hnil] at hmem
  | _ => exact trivial

/-- The only job left is frozen, and its waiter may thaw it. -/
theorem not_stuck_secondJob : ∃ s, s.controller.Running 1 ∧
    suspended s.log (.cgroup 0 1) = true ∧ ¬ Stuck (plainSettings .cgroup) s := by
  have hrun : ((system (plainSettings .cgroup)).runVia
      (fun s action => assumedTest s action && besideTest s action)
      (twoMachines .cgroup [⟨1, 1, "", true⟩, ⟨1, 1, "", true⟩])
      (freezeSecond ++ [.waiterWait 0, .processEnd 0, .complete 0])).map
        (fun s => decide (s.controller.Running 1 ∧
          suspended s.log (.cgroup 0 1) = true)) = .ok true := by
    decide +kernel
  obtain ⟨s, hrun, hs⟩ := map_eq_ok.mp hrun
  obtain ⟨hrunning, hon⟩ := of_decide_eq_true hs
  refine ⟨s, hrunning, hon, not_stuck (plainSettings .cgroup)
    (System.runVia_reachable (fun s action h => ?_) (.init (twoMachines_init _ _)) hrun)⟩
  obtain ⟨hassumed, hbeside⟩ := Bool.and_eq_true_iff.mp h
  exact ⟨assumed_of_test s action hassumed, freezesBesideRunning_of_test _ s action hbeside⟩

def freezeChain : List Action :=
  placeJob [5 / 10] ++ [.schedule []] ++ placeJob [5 / 10, 5 / 10] ++ [.schedule []] ++
    placeJob [5 / 10] ++ [.schedule [], .schedule [], .schedule []]

/-- When the first job completes, the second and the third one wait for each
other. -/
theorem stuck_freezeChain : ∃ s,
    (system (plainSettings .cgroup)).ReachableVia (Assumed (plainSettings .cgroup)) s ∧
      Stuck (plainSettings .cgroup) s := by
  have hrun : ((system (plainSettings .cgroup)).runVia assumedTest
      (twoMachines .cgroup [⟨1, 1, "", true⟩, ⟨2, 1, "", true⟩, ⟨1, 1, "", true⟩])
      (freezeChain ++ [.processEnd 0, .complete 0, .notifyAll 0])).map
        (fun s => decide (
          s.controller.threadPool.map (fun worker => (worker.counter, worker.phase)) =
            [(0, .finished), (1, .executing), (2, .executing)] ∧
          s.controller.machineUsage = [[none, some 1], [some 1, some 2]] ∧
          suspended s.log (.cgroup 0 1) = true ∧ suspended s.log (.cgroup 1 2) = true ∧
          s.pc = .asleep .done ∧
          allFree s.controller.systemConfig s.controller.machineUsage = .ok false ∧
          s.waiters = [⟨1, [(0, 1), (1, 0)], .started⟩, ⟨2, [(1, 1)], .started⟩] ∧
          checkMembw s.controller.systemConfig.slots.length s.membwUtil
            [(0, 1), (1, 0)] = .ok [1] ∧
          checkMembw s.controller.systemConfig.slots.length s.membwUtil
            [(1, 1)] = .ok [1])) = .ok true := by
    decide +kernel
  obtain ⟨s, hrun, hs⟩ := map_eq_ok.mp hrun
  obtain ⟨hpool, husage, hfirst, hsecond, hpc, hbusy, hwaiters, hcheck, hcheck'⟩ :=
    of_decide_eq_true hs
  have hrunning : ∀ j, s.controller.Running j → j = 1 ∨ j = 2 := by
    rintro j ⟨worker, hmem, rfl, hactive⟩
    have hmem' := List.mem_map_of_mem (f := fun w : Worker => (w.counter, w.phase)) hmem
    rw [hpool] at hmem'
    simp only [List.mem_cons, Prod.mk.injEq, List.not_mem_nil, or_false] at hmem'
    rcases hmem' with ⟨_, hphase⟩ | ⟨hid, _⟩ | ⟨hid, _⟩
    · rw [hphase] at hactive
      simp [Phase.Active] at hactive
    · exact .inl hid
    · exact .inr hid
  refine ⟨s, System.runVia_reachable assumed_of_test (.init (twoMachines_init _ _)) hrun,
    ?_, ?_, ?_, ?_⟩
  · have hmem : (1, Phase.executing) ∈
        s.controller.threadPool.map fun worker => (worker.counter, worker.phase) := by
      simp [hpool]
    obtain ⟨worker, hmem, heq⟩ := List.mem_map.mp hmem
    obtain ⟨hid, hphase⟩ := Prod.mk.inj heq
    exact ⟨1, worker, hmem, hid, .inl hphase⟩
  · intro j hj
    rcases hrunning j hj with rfl | rfl
    · exact ⟨_, ⟨(0, 1), by rw [husage]; rfl, rfl⟩, hfirst⟩
    · exact ⟨_, ⟨(1, 1), by rw [husage]; rfl, rfl⟩, hsecond⟩
  · rw [Blocked, hpc]
    exact hbusy
  · intro w hw _
    rw [hwaiters] at hw
    rcases List.mem_cons.mp hw with rfl | hw
    · exact ⟨[1], hcheck, by decide⟩
    · cases List.mem_singleton.mp hw
      exact ⟨[1], hcheck', by decide⟩

end Poncos.MultiApp
