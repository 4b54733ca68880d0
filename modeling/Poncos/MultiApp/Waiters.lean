import Poncos.MultiApp.WellFormed

/-!
The detached waiters along a run.  They exist under the controller without update
support only; each belongs to a job of its own, placed before the job the
scheduler is busy with, and keeps the config the job was placed on.
-/

namespace Poncos.MultiApp

open Poncos.Library
open Poncos.Library.Execution
open Poncos.Library.Transition
open Poncos.Controller

/-- The part of a waiter that never changes. -/
def Waiter.job (w : Waiter) : Nat × ExecuteConfig := (w.id, w.config)

@[simp] theorem Waiter.job_notify (w : Waiter) : w.notify.job = w.job := by
  rw [Waiter.notify]
  split <;> rfl

/-- Points that only the controller with update support reaches. -/
def Pc.VmOnly : Pc → Prop
  | .overload _ _ true => True
  | .updateConfig _ _ _ _ => True
  | .asleep (.change _ _) => True
  | _ => False

/-- What a waiter keeps of its job. -/
structure WaiterOk (c : Controller) (id : Nat) (config : ExecuteConfig) : Prop where
  row : c.idToConfig[id]? = some config
  machines : (config.map Prod.fst).Nodup
  range : ∀ p ∈ config, p.1 < c.machines.length ∧ p.2 < 2
  lt : id < c.cmdCounter

structure WaitersOk (σ : Settings) (s : State) : Prop where
  ok : ∀ id config, (id, config) ∈ s.waiters.map Waiter.job →
    WaiterOk s.controller id config
  nodup : ((s.waiters.map Waiter.job).map Prod.fst).Nodup
  ne_current : ∀ id config, s.pc.current = some (id, config) →
    ∀ id' config', (id', config') ∈ s.waiters.map Waiter.job → id' ≠ id
  vm : σ.backend = .vm → s.waiters = []
  cgroup : σ.backend = .cgroup → ¬ s.pc.VmOnly

theorem WaiterOk.transfer {c c' : Controller} {id : Nat} {config : ExecuteConfig}
    (h : WaiterOk c id config)
    (hconfigs : c'.idToConfig[id]? = c.idToConfig[id]?)
    (hmachines : c'.machines = c.machines) (hcounter : c.cmdCounter ≤ c'.cmdCounter) :
    WaiterOk c' id config :=
  ⟨by rw [hconfigs, h.row], h.machines, by rw [hmachines]; exact h.range,
    h.lt.trans_le hcounter⟩

theorem map_job_set {waiters : List Waiter} {index id : Nat} {config : ExecuteConfig}
    {phase phase' : WaiterPhase} (h : waiters[index]? = some ⟨id, config, phase⟩) :
    (waiters.set index ⟨id, config, phase'⟩).map Waiter.job = waiters.map Waiter.job := by
  rw [List.map_set]
  apply List.ext_getElem?
  intro k
  rw [List.getElem?_set]
  split
  · rename_i hk
    subst hk
    have hlt := (List.getElem?_eq_some_iff.mp h).1
    rw [List.getElem?_map, h]
    simp [hlt, Waiter.job]
  · rfl

namespace WaitersOk

variable {σ : Settings} {s s' : State}

theorem vm_of_vmOnly (h : WaitersOk σ s) (hpc : s.pc.VmOnly) : σ.backend = .vm := by
  cases hσ : σ.backend with
  | vm => rfl
  | cgroup => exact absurd hpc (h.cgroup hσ)

theorem cgroup_of_mem (h : WaitersOk σ s) {waiter : Waiter} (hw : waiter ∈ s.waiters) :
    σ.backend = .cgroup := by
  cases hσ : σ.backend with
  | cgroup => rfl
  | vm =>
      rw [h.vm hσ] at hw
      cases hw

theorem of_same (h : WaitersOk σ s)
    (hjobs : s'.waiters.map Waiter.job = s.waiters.map Waiter.job)
    (hconfigs : s'.controller.idToConfig = s.controller.idToConfig)
    (hmachines : s'.controller.machines = s.controller.machines)
    (hcounter : s'.controller.cmdCounter = s.controller.cmdCounter)
    (hcurrent : ∀ id config, s'.pc.current = some (id, config) →
      s.pc.current = some (id, config))
    (hcgroup : σ.backend = .cgroup → ¬ s'.pc.VmOnly) : WaitersOk σ s' := by
  refine ⟨?_, by rw [hjobs]; exact h.nodup, ?_, ?_, hcgroup⟩
  · intro id config hmem
    rw [hjobs] at hmem
    exact (h.ok id config hmem).transfer (by rw [hconfigs]) hmachines hcounter.ge
  · intro id config hpc
    rw [hjobs]
    exact h.ne_current id config (hcurrent id config hpc)
  · intro hσ
    have : s'.waiters.map Waiter.job = [] := by rw [hjobs, h.vm hσ]; rfl
    exact List.map_eq_nil_iff.mp this

theorem of_pc (h : WaitersOk σ s) {pc : Pc} {queue : List Job} {log : List Message}
    {util : MembwUtil}
    (hcurrent : ∀ id config, pc.current = some (id, config) →
      s.pc.current = some (id, config))
    (hcgroup : σ.backend = .cgroup → ¬ pc.VmOnly) :
    WaitersOk σ { s with pc := pc, queue := queue, log := log, membwUtil := util } :=
  h.of_same rfl rfl rfl rfl hcurrent hcgroup

theorem select (h : WaitersOk σ s) {job : Job} {config : ExecuteConfig} {c : Controller}
    {id : Nat} (hwf : WellFormed s)
    (heffect : ExecuteEffect s.controller c job config id) :
    WaitersOk σ { s with controller := c, pc := .freezeOpposing id config } := by
  refine ⟨?_, h.nodup, ?_, h.vm, fun _ h => h⟩
  · intro id' config' hmem
    have hok := h.ok id' config' hmem
    refine hok.transfer ?_ heffect.machines (by rw [heffect.cmdCounter]; omega)
    rw [heffect.idToConfig, List.getElem?_append_left]
    rw [hwf.consistent.configs_length]
    exact hok.lt
  · rintro _ _ ⟨⟩ id' config' hmem rfl
    have := (h.ok id' config' hmem).lt
    rw [heffect.id_eq] at this
    omega

theorem detach (h : WaitersOk σ s) (hwf : WellFormed s) {id : Nat}
    {config : ExecuteConfig} {log : List Message}
    (hpc : s.pc = .overload id config false) (hσ : σ.backend = .cgroup) :
    WaitersOk σ { s with
      log := log
      waiters := s.waiters ++ [⟨id, config, .started⟩]
      pc := .nextJob } := by
  have hcurrent := hwf.current id config (by rw [hpc]; rfl)
  have hne := h.ne_current id config (by rw [hpc]; rfl)
  refine ⟨?_, ?_, by rintro _ _ ⟨⟩, ?_, fun _ h => h⟩
  · intro id' config' hmem
    rw [List.map_append, List.mem_append] at hmem
    rcases hmem with hmem | hmem
    · exact h.ok id' config' hmem
    · cases List.mem_singleton.mp hmem
      have hrange := fun p hp => hwf.config_range hcurrent (p := p) hp
      have hlt : id < s.controller.cmdCounter := by
        have := hcurrent.last
        omega
      exact ⟨hcurrent.row, hcurrent.machines, hrange, hlt⟩
  · rw [List.map_append, List.map_append, List.nodup_append]
    refine ⟨h.nodup, by simp, ?_⟩
    intro a ha b hb
    obtain ⟨⟨id', config'⟩, hmem, rfl⟩ := List.mem_map.mp ha
    obtain rfl : b = id := by simpa [Waiter.job] using hb
    exact hne id' config' hmem
  · intro hvm
    rw [hσ] at hvm
    cases hvm

theorem trans {action : Action} (h : WaitersOk σ s) (hwf : WellFormed s)
    (ht : Trans σ s action s') : WaitersOk σ s' := by
  cases ht with
  | nextJob => exact h.of_pc (by rintro _ _ ⟨⟩) (fun _ => id)
  | lastJob => exact h.of_pc (by rintro _ _ ⟨⟩) (fun _ => id)
  | ressource => exact h.of_pc (by rintro _ _ ⟨⟩) (fun _ => id)
  | noRessource => exact h.of_pc (by rintro _ _ ⟨⟩) (fun _ => id)
  | select _ _ heffect => exact h.select hwf heffect
  | freezeOpposing hpc => exact h.of_pc (by rw [hpc]; exact fun _ _ h => h) (fun _ => id)
  | runDistgen hpc => exact h.of_pc (by rw [hpc]; exact fun _ _ h => h) (fun _ => id)
  | thawOpposing hpc => exact h.of_pc (by rw [hpc]; exact fun _ _ h => h) (fun _ => id)
  | fits => exact h.of_pc (by rintro _ _ ⟨⟩) (fun _ => id)
  | swap hpc _ _ hproposed =>
      have hsupported := hproposed.supported
      refine h.of_pc (by rw [hpc]; exact fun _ _ h => h) fun hσ => ?_
      rw [hσ] at hsupported
      cases hsupported
  | stillFrozen hpc =>
      refine h.of_pc (by rw [hpc]; exact fun _ _ h => h) fun hσ => ?_
      exact absurd (hpc ▸ trivial : s.pc.VmOnly) (h.cgroup hσ)
  | freeze hpc _ _ _ hvm =>
      refine h.of_pc (by rw [hpc]; exact fun _ _ h => h) fun hσ => ?_
      rw [hσ] at hvm
      cases hvm
  | freezeDetach hpc _ _ hσ => exact h.detach hwf hpc hσ
  | updateConfig hpc =>
      have hnil := h.vm (h.vm_of_vmOnly (hpc ▸ trivial))
      refine ⟨?_, h.nodup, by rintro _ _ ⟨⟩, h.vm, fun _ => id⟩
      intro id config hmem
      simp [hnil] at hmem
  | allDone => exact h.of_pc (by rintro _ _ ⟨⟩) (fun _ => id)
  | notDone => exact h.of_pc (by rintro _ _ ⟨⟩) (fun _ => id)
  | @wake wait hpc =>
      cases wait with
      | ressource job => exact h.of_pc (by rintro _ _ ⟨⟩) (fun _ => id)
      | done => exact h.of_pc (by rintro _ _ ⟨⟩) (fun _ => id)
      | change id config =>
          refine h.of_pc (by rw [hpc]; exact fun _ _ h => h) fun hσ => ?_
          exact absurd (hpc ▸ trivial : s.pc.VmOnly) (h.cgroup hσ)
  | processEnd => exact h.of_same rfl rfl rfl rfl (fun _ _ h => h) h.cgroup
  | complete _ _ heffect =>
      exact h.of_same rfl heffect.idToConfig heffect.machines heffect.cmdCounter
        (fun _ _ h => h) h.cgroup
  | notifyAll =>
      refine h.of_same ?_ rfl rfl rfl (fun _ _ h => h) h.cgroup
      rw [List.map_map]
      exact List.map_congr_left fun w _ => w.job_notify
  | waiterWait _ hwaiter =>
      exact h.of_same (map_job_set hwaiter) rfl rfl rfl (fun _ _ h => h) h.cgroup
  | waiterThaw _ hwaiter =>
      exact h.of_same (map_job_set hwaiter) rfl rfl rfl (fun _ _ h => h) h.cgroup
  | waiterSleep _ hwaiter =>
      exact h.of_same (map_job_set hwaiter) rfl rfl rfl (fun _ _ h => h) h.cgroup

end WaitersOk

theorem reachable_waitersOk {σ : Settings} {guard : State → Action → Prop} {s : State}
    (hs : (system σ).ReachableVia guard s) : WaitersOk σ s := by
  refine hs.invariant ?_ ?_
  · rintro s ⟨_, _, _, _, _, _, rfl⟩
    exact ⟨by simp [start], by simp [start], by rintro _ _ ⟨⟩, fun _ => rfl, fun _ => id⟩
  · intro s action s' hs hok _ hstep
    exact hok.trans (reachable_wellFormed hs) (step_trans hstep)

end Poncos.MultiApp
