import Poncos.MultiApp.Waiters

/-!
The wake-ups of the detached waiters.  A waiter waits first and checks afterwards,
so it must not miss the last change that lets its job run: a completion that is
processed before the waiter has reached its wait notifies it too early.
-/

namespace Poncos.MultiApp

open Poncos.Library
open Poncos.Library.Execution
open Poncos.Library.Transition
open Poncos.Controller

def Overloaded (util : MembwUtil) (config : ExecuteConfig) : Prop :=
  ∃ p ∈ config, perMachineTh < nodeUtil util p.1

instance (util : MembwUtil) (config : ExecuteConfig) : Decidable (Overloaded util config) :=
  inferInstanceAs (Decidable (∃ p ∈ config, _))

/-- A completion thread has released the lock and not called `notify_all` yet. -/
def Notifying (s : State) : Prop := ∃ id, InPhase s.controller id .notifying

/-- A waiter that sleeps, with no notification on its way, has reason to. -/
def NoLostWakeUp (s : State) : Prop :=
  ∀ w ∈ s.waiters, w.phase = .asleep false → ¬ Notifying s →
    ∃ marked, Check s w.config marked ∧ marked ≠ []

/-- The condition on a step.  A completion relieves no waiter that has not reached
its first wait, and a measurement relieves no waiter at all. -/
def NoLateRelief (s : State) : Action → Prop
  | .complete id =>
      ∀ config util, s.controller.idToConfig[id]? = some config →
        Cleared config s.membwUtil util →
        ∀ w ∈ s.waiters, w.phase = .started → Overloaded util w.config
  | .schedule distgenRes =>
      ∀ id config util, s.pc = .runDistgen id config →
        Measured config distgenRes s.membwUtil util →
        ∀ w ∈ s.waiters, w.phase = .started ∨ w.phase = .asleep false →
          Overloaded s.membwUtil w.config → Overloaded util w.config
  | _ => True

section Check

variable {s : State} {config : ExecuteConfig} {marked : List Nat}
  (hwf : WellFormed s)

include hwf

theorem check_eq (hrange : ∀ p ∈ config, p.1 < s.controller.machines.length) :
    Check s config ((config.filter fun p =>
      perMachineTh < nodeUtil s.membwUtil p.1).map Prod.fst) := by
  rw [Check, hwf.slots]
  exact checkMembw_two hwf.util hrange

theorem mem_marked_iff (hrange : ∀ p ∈ config, p.1 < s.controller.machines.length)
    (hcheck : Check s config marked) (m : Nat) :
    m ∈ marked ↔ ∃ p ∈ config, p.1 = m ∧ perMachineTh < nodeUtil s.membwUtil p.1 := by
  obtain rfl := Except.ok.inj (hcheck.symm.trans (check_eq hwf hrange))
  simp only [List.mem_map, List.mem_filter, decide_eq_true_eq]
  constructor
  · rintro ⟨p, ⟨hp, hlt⟩, rfl⟩
    exact ⟨p, hp, rfl, hlt⟩
  · rintro ⟨p, hp, rfl, hlt⟩
    exact ⟨p, ⟨hp, hlt⟩, rfl⟩

theorem marked_ne_nil_iff (hrange : ∀ p ∈ config, p.1 < s.controller.machines.length)
    (hcheck : Check s config marked) :
    marked ≠ [] ↔ Overloaded s.membwUtil config := by
  constructor
  · intro hne
    obtain ⟨m, hm⟩ := List.exists_mem_of_ne_nil _ hne
    obtain ⟨p, hp, _, hlt⟩ := (mem_marked_iff hwf hrange hcheck m).mp hm
    exact ⟨p, hp, hlt⟩
  · rintro ⟨p, hp, hlt⟩ rfl
    have := (mem_marked_iff hwf hrange hcheck p.1).mpr ⟨p, hp, rfl, hlt⟩
    simp at this

theorem waiter_ok_iff (hrange : ∀ p ∈ config, p.1 < s.controller.machines.length)
    (hcheck : Check s config marked) :
    (∀ m ∈ marked, ∀ c ∈ config, c.1 ≠ m) ↔ ¬ Overloaded s.membwUtil config := by
  constructor
  · rintro hok ⟨p, hp, hlt⟩
    exact hok p.1 ((mem_marked_iff hwf hrange hcheck p.1).mpr ⟨p, hp, rfl, hlt⟩) p hp rfl
  · intro hnot m hm
    obtain ⟨p, hp, _, hlt⟩ := (mem_marked_iff hwf hrange hcheck m).mp hm
    exact absurd ⟨p, hp, hlt⟩ hnot

end Check

/-- A waiter that has not waited yet finds its job overloaded; one that sleeps
does, or a notification is on its way. -/
def Attended (s : State) : Prop :=
  ∀ w ∈ s.waiters, (w.phase = .started → Overloaded s.membwUtil w.config) ∧
    (w.phase = .asleep false → Overloaded s.membwUtil w.config ∨ Notifying s)

theorem WaitersOk.range {σ : Settings} {s : State} (h : WaitersOk σ s) {w : Waiter}
    (hw : w ∈ s.waiters) : ∀ p ∈ w.config, p.1 < s.controller.machines.length :=
  fun p hp => ((h.ok w.id w.config (List.mem_map_of_mem hw)).range p hp).1

theorem mem_set_cases {waiters : List Waiter} {index : Nat} {w v : Waiter}
    (h : w ∈ waiters.set index v) : w = v ∨ w ∈ waiters :=
  (List.mem_or_eq_of_mem_set h).symm

namespace Attended

variable {σ : Settings} {s s' : State}

theorem of_notifying (h : Attended s) (hwaiters : s'.waiters = s.waiters)
    (hutil : s'.membwUtil = s.membwUtil) (hnotifying : Notifying s → Notifying s') :
    Attended s' := by
  intro w hw
  rw [hwaiters] at hw
  obtain ⟨hstarted, hasleep⟩ := h w hw
  rw [hutil]
  exact ⟨hstarted, fun hphase => (hasleep hphase).imp_right hnotifying⟩

theorem trans {action : Action} (h : Attended s) (hwf : WellFormed s)
    (hwaiters : WaitersOk σ s) (hσ : σ.backend = .cgroup)
    (hguard : NoLateRelief s action) (ht : Trans σ s action s') : Attended s' := by
  cases ht with
  | select _ _ heffect =>
      obtain ⟨command, hpool⟩ := heffect.threadPool
      refine h.of_notifying rfl rfl ?_
      rintro ⟨id, worker, hmem, hid, hphase⟩
      exact ⟨id, worker, hpool ▸ List.mem_append_left _ hmem, hid, hphase⟩
  | runDistgen hpc hmeasured =>
      intro w hw
      obtain ⟨hstarted, hasleep⟩ := h w hw
      have hkeep := hguard _ _ _ hpc hmeasured w hw
      exact ⟨fun hphase => hkeep (.inl hphase) (hstarted hphase),
        fun hphase => (hasleep hphase).imp_left (hkeep (.inr hphase))⟩
  | @freezeDetach r id config messages marked hpc hcheck hmarked =>
      intro w hw
      rcases List.mem_append.mp hw with hw | hw
      · exact h w hw
      · rw [List.mem_singleton.mp hw]
        have hcurrent := hwf.current _ _ (by rw [hpc]; rfl)
        have hrange : ∀ p ∈ config, p.1 < s.controller.machines.length :=
          fun p hp => (hwf.config_range hcurrent hp).1
        have hover := (marked_ne_nil_iff hwf hrange hcheck).mp hmarked
        exact ⟨fun _ => hover, by rintro ⟨⟩⟩
  | updateConfig hpc =>
      exact absurd (hpc ▸ trivial : s.pc.VmOnly) (hwaiters.cgroup hσ)
  | processEnd hphase =>
      refine h.of_notifying rfl rfl ?_
      rintro ⟨id, hnotifying⟩
      refine ⟨id, inPhase_setPhase_of_ne hnotifying ?_⟩
      rintro rfl
      cases inPhase_unique hwf.consistent hnotifying hphase
  | @complete id wait c config util _ hphase heffect hclear =>
      intro w hw
      have hnotifying : InPhase (s.controller.setPhase id .notifying) id .notifying :=
        inPhase_setPhase_self hphase
      refine ⟨fun hstarted => hguard _ _ heffect.row hclear w hw hstarted,
        fun _ => .inr ⟨id, ?_⟩⟩
      rw [InPhase, heffect.threadPool]
      exact hnotifying
  | notifyAll =>
      intro w hw
      obtain ⟨v, hv, rfl⟩ := List.mem_map.mp hw
      obtain ⟨hstarted, _⟩ := h v hv
      rw [Waiter.notify]
      split
      · exact ⟨by rintro ⟨⟩, by rintro ⟨⟩⟩
      · rename_i hphase
        exact ⟨hstarted, by rw [hphase]; rintro ⟨⟩⟩
      · rename_i hphase
        exact ⟨hstarted, by rw [hphase]; rintro ⟨⟩⟩
  | waiterWait _ hwaiter =>
      intro w hw
      rcases mem_set_cases hw with rfl | hw
      · have hover := (h _ (List.mem_of_getElem? hwaiter)).1 rfl
        exact ⟨by rintro ⟨⟩, fun _ => .inl hover⟩
      · exact h w hw
  | waiterThaw _ hwaiter =>
      intro w hw
      rcases mem_set_cases hw with rfl | hw
      · exact ⟨by rintro ⟨⟩, by rintro ⟨⟩⟩
      · exact h w hw
  | waiterSleep _ hwaiter hcheck hnot =>
      intro w hw
      rcases mem_set_cases hw with rfl | hw
      · have hrange := hwaiters.range (List.mem_of_getElem? hwaiter)
        have hover := not_not.mp (mt (waiter_ok_iff hwf hrange hcheck).mpr hnot)
        exact ⟨by rintro ⟨⟩, fun _ => .inl hover⟩
      · exact h w hw
  | _ => exact h

end Attended

/-- No waiter misses its wake-up along a run in which no completion relieves it
before it waits. -/
theorem no_lost_wakeUp (σ : Settings) (hσ : σ.backend = .cgroup) {s : State}
    (hs : (system σ).ReachableVia NoLateRelief s) : NoLostWakeUp s := by
  have hattended : Attended s := by
    refine hs.invariant ?_ ?_
    · rintro s ⟨_, _, _, _, _, _, rfl⟩ w hw
      simp [start] at hw
    · intro s action s' hs h hguard hstep
      exact h.trans (reachable_wellFormed hs) (reachable_waitersOk hs) hσ hguard
        (step_trans hstep)
  have hwf := reachable_wellFormed hs
  intro w hw hphase hnone
  have hrange := (reachable_waitersOk hs).range hw
  have hover := ((hattended w hw).2 hphase).resolve_right hnone
  have hcheck := check_eq hwf hrange
  exact ⟨_, hcheck, (marked_ne_nil_iff hwf hrange hcheck).mpr hover⟩

/-- A test that implies the condition: completions while all waiters have waited,
and measured utilisations that are not negative. -/
def reliefTest (s : State) : Action → Bool
  | .complete _ => s.waiters.all fun w => decide (w.phase ≠ .started)
  | .schedule _ => decide (s.waiters = []) || decide (s.pc = .nextJob) || decide (s.pc = .done)
  | _ => true

theorem noLateRelief_of_test (s : State) (action : Action)
    (h : reliefTest s action = true) : NoLateRelief s action := by
  cases action with
  | complete id =>
      intro config util _ _ w hw hstarted
      have := List.all_eq_true.mp h w hw
      simp [hstarted] at this
  | schedule r =>
      intro id config util hpc _ w hw
      simp only [reliefTest, hpc, Bool.or_eq_true, decide_eq_true_eq] at h
      rcases h with (hnil | hnext) | hdone
      · simp [hnil] at hw
      · cases hnext
      · cases hdone
  | _ => exact trivial

def freezeSecond : List Action :=
  placeJob [4 / 10] ++ [.schedule []] ++ placeJob [5 / 10] ++ [.schedule []] ++
    [.schedule [], .schedule []]

/-- The waiter reaches its wait first: it sleeps while its job does not fit. -/
theorem no_lost_wakeUp_waitsFirst : ∃ s w, w ∈ s.waiters ∧ w.phase = .asleep false ∧
    NoLostWakeUp s := by
  have hrun : ((system (plainSettings .cgroup)).runVia reliefTest
      (twoMachines .cgroup [⟨1, 1, "", true⟩, ⟨1, 1, "", true⟩])
      (freezeSecond ++ [.waiterWait 0])).map State.waiters =
      .ok [⟨1, [(0, 1)], .asleep false⟩] := by
    decide +kernel
  obtain ⟨s, hrun, hwaiters⟩ := map_eq_ok.mp hrun
  refine ⟨s, ⟨1, [(0, 1)], .asleep false⟩, by simp [hwaiters], rfl, ?_⟩
  exact no_lost_wakeUp (plainSettings .cgroup) rfl
    (System.runVia_reachable noLateRelief_of_test (.init (twoMachines_init _ _)) hrun)

/-- The first job completes and notifies before the waiter of the second one has
reached its wait. -/
theorem not_noLostWakeUp_lateWait : ∃ s,
    (system (plainSettings .cgroup)).Reachable s ∧ ¬ NoLostWakeUp s := by
  have hrun : ((system (plainSettings .cgroup)).run
      (twoMachines .cgroup [⟨1, 1, "", true⟩, ⟨1, 1, "", true⟩])
      (freezeSecond ++ [.processEnd 0, .complete 0, .notifyAll 0, .waiterWait 0])).map
        (fun s => (s.waiters, s.controller.threadPool.map Worker.phase,
          checkMembw s.controller.systemConfig.slots.length s.membwUtil [(0, 1)])) =
      .ok ([⟨1, [(0, 1)], .asleep false⟩], [.finished, .executing], .ok []) := by
    decide +kernel
  obtain ⟨s, hrun, hs⟩ := map_eq_ok.mp hrun
  simp only [Prod.mk.injEq] at hs
  obtain ⟨hwaiters, hphases, hcheck⟩ := hs
  refine ⟨s, System.run_reachable (fun _ _ => trivial) (.init (twoMachines_init _ _)) hrun,
    ?_⟩
  intro h
  have hnone : ¬ Notifying s := by
    rintro ⟨id, worker, hmem, _, hphase⟩
    have := List.mem_map_of_mem (f := Worker.phase) hmem
    rw [hphases, hphase] at this
    simp at this
  obtain ⟨marked, hmarked, hne⟩ := h ⟨1, [(0, 1)], .asleep false⟩
    (by simp [hwaiters]) rfl hnone
  exact hne (Except.ok.inj (hmarked.symm.trans hcheck))

end Poncos.MultiApp
