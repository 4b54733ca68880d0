import Poncos.MultiAppConsec.Schedule

/-!
Exclusive nodes.  A machine is free or held by one job with all its slots, so that
the count of the waiting predicate and the loop that selects the machines agree: the
loop finds the job the fewest whole machines that are enough for it.
-/

namespace Poncos.MultiAppConsec

open Poncos.Library
open Poncos.Library.Execution
open Poncos.Library.Transition
open Poncos.Controller

/-- All slots of the given machines. -/
def nodes (machines : List Nat) : ExecuteConfig := machines.flatMap fun m => [(m, 0), (m, 1)]

@[simp] theorem nodes_append (machines machines' : List Nat) :
    nodes (machines ++ machines') = nodes machines ++ nodes machines' :=
  List.flatMap_append

@[simp] theorem length_nodes (machines : List Nat) :
    (nodes machines).length = machines.length * 2 := by
  induction machines with
  | nil => rfl
  | cons m rest ih =>
      change (nodes rest).length + 1 + 1 = _
      rw [ih, List.length_cons]
      omega

theorem mem_nodes {machines : List Nat} {p : ExecuteConfigElem} :
    p ∈ nodes machines ↔ p.1 ∈ machines ∧ p.2 < 2 := by
  simp only [nodes, List.mem_flatMap, List.mem_cons, List.not_mem_nil, or_false]
  constructor
  · rintro ⟨m, hm, rfl | rfl⟩
    · exact ⟨hm, Nat.zero_lt_two⟩
    · exact ⟨hm, Nat.one_lt_two⟩
  · rintro ⟨hm, hslot⟩
    refine ⟨p.1, hm, ?_⟩
    rcases (show p.2 = 0 ∨ p.2 = 1 by omega) with h | h
    · exact .inl (Prod.ext rfl h)
    · exact .inr (Prod.ext rfl h)

theorem nodup_nodes {machines : List Nat} (h : machines.Nodup) : (nodes machines).Nodup := by
  refine List.nodup_flatMap.mpr ⟨fun m _ => by simp, h.imp ?_⟩
  intro m m' hne p hp hp'
  simp only [List.mem_cons, List.not_mem_nil, or_false] at hp hp'
  apply hne
  rcases hp with rfl | rfl
  · rcases hp' with h | h <;> exact congrArg Prod.fst h
  · rcases hp' with h | h <;> exact congrArg Prod.fst h

/-- Both slots of a machine hold the same job or are free. -/
def Uniform (usage : MachineUsage) : Prop := ∀ row ∈ usage, ∃ owner, row = [owner, owner]

def freeNodes (usage : MachineUsage) : Nat := usage.countP fun row => decide (row = [none, none])

theorem freeNodes_cons_free (rest : MachineUsage) :
    freeNodes ([none, none] :: rest) = freeNodes rest + 1 :=
  List.countP_cons_of_pos (by decide)

theorem freeNodes_cons_taken (j : Nat) (rest : MachineUsage) :
    freeNodes ([some j, some j] :: rest) = freeNodes rest :=
  List.countP_cons_of_neg (by simp)

section Loops

variable {usage rest : MachineUsage} {slotSize reqCpus : Nat}

/-- The cpus the waiting predicate counts are those of the free machines. -/
theorem freeCpus_uniform {systemConfig : SystemConfig}
    (hslots : systemConfig.slots.length = 2) (hu : Uniform usage) {counter k : Nat}
    (h : freeCpus systemConfig 2 usage counter = .ok k) :
    k = counter + freeNodes usage * (2 * systemConfig.slotSize) := by
  induction usage generalizing counter with
  | nil =>
      cases h
      simp [freeNodes]
  | cons row rest ih =>
      obtain ⟨owner, rfl⟩ := hu row List.mem_cons_self
      have hrest : Uniform rest := fun r hr => hu r (List.mem_cons_of_mem _ hr)
      simp only [freeCpus, bind_eq_ok, hslots] at h
      obtain ⟨allocated, hallocated, h⟩ := h
      cases owner with
      | none =>
          cases hallocated
          rw [ih hrest h, freeNodes_cons_free, Nat.add_mul, Nat.one_mul,
            Nat.mul_comm systemConfig.slotSize, Nat.add_assoc, Nat.add_comm (2 * _)]
      | some j =>
          cases hallocated
          rw [ih hrest h, freeNodes_cons_taken]

/-- One round of the loop: the machine is taken or passed over, and the loop stops
once the machines are enough. -/
theorem selectNodes_cons {m : Nat} {mu : SlotAllocation} {machines : List Nat}
    {config : ExecuteConfig}
    (h : selectNodes 2 slotSize reqCpus m (mu :: rest) (nodes machines) = .ok config) :
    ∃ machines', (machines' = machines ∨ machines' = machines ++ [m]) ∧
      (config = nodes machines' ∨ machines'.length * (2 * slotSize) < reqCpus ∧
        selectNodes 2 slotSize reqCpus (m + 1) rest (nodes machines') = .ok config) := by
  simp only [selectNodes, bind_eq_ok] at h
  obtain ⟨first, _, second, _, _, _, h⟩ := h
  obtain ⟨machines', htaken, heq⟩ : ∃ machines',
      (machines' = machines ∨ machines' = machines ++ [m]) ∧
        (if first = none then nodes machines ++ (List.range 2).map fun s => (m, s)
          else nodes machines) = nodes machines' := by
    split
    · exact ⟨machines ++ [m], .inr rfl, (nodes_append machines [m]).symm⟩
    · exact ⟨machines, .inl rfl, rfl⟩
  rw [heq, length_nodes, Nat.mul_assoc] at h
  refine ⟨machines', htaken, ?_⟩
  split at h
  · exact .inl (Except.ok.inj h).symm
  · rename_i hmore
    exact .inr ⟨not_le.mp hmore, h⟩

theorem selectNodes_nodes {m : Nat} {machines : List Nat} {config : ExecuteConfig}
    (h : selectNodes 2 slotSize reqCpus m rest (nodes machines) = .ok config) :
    ∃ machines', config = nodes machines' := by
  induction rest generalizing m machines with
  | nil =>
      cases h
      exact ⟨machines, rfl⟩
  | cons mu rest ih =>
      obtain ⟨machines', _, rfl | ⟨_, h⟩⟩ := selectNodes_cons h
      · exact ⟨machines', rfl⟩
      · exact ih h

theorem row_of_drop {m : Nat} {row : SlotAllocation} (h : usage.drop m = row :: rest) :
    usage[m]? = some row ∧ usage.drop (m + 1) = rest := by
  constructor
  · have := congrArg (·[0]?) h
    simpa using this
  · rw [← List.drop_drop, h]
    rfl

/-- The loop at a free machine: it is taken with both slots. -/
theorem selectNodes_free (m : Nat) (machines : List Nat) :
    selectNodes 2 slotSize reqCpus m ([none, none] :: rest) (nodes machines) =
      if reqCpus ≤ (machines ++ [m]).length * (2 * slotSize) then
        .ok (nodes (machines ++ [m]))
      else selectNodes 2 slotSize reqCpus (m + 1) rest (nodes (machines ++ [m])) := by
  rw [← Nat.mul_assoc, ← length_nodes, nodes_append]
  rfl

/-- The loop at a machine of a job: it is passed over. -/
theorem selectNodes_taken (m j : Nat) (machines : List Nat) :
    selectNodes 2 slotSize reqCpus m ([some j, some j] :: rest) (nodes machines) =
      if reqCpus ≤ machines.length * (2 * slotSize) then .ok (nodes machines)
      else selectNodes 2 slotSize reqCpus (m + 1) rest (nodes machines) := by
  rw [← Nat.mul_assoc, ← length_nodes]
  change (do
    ensure (some j = some j)
    if reqCpus ≤ (nodes machines).length * slotSize then Except.ok (nodes machines)
    else selectNodes 2 slotSize reqCpus (m + 1) rest (nodes machines)) = _
  rw [ensure_of rfl, bind_of_ok rfl]

/-- Free machines below `m`, each of them once. -/
structure Collected (usage : MachineUsage) (m : Nat) (machines : List Nat) : Prop where
  nodup : machines.Nodup
  below : ∀ i ∈ machines, i < m
  free : ∀ i ∈ machines, usage[i]? = some [none, none]

theorem Collected.nil : Collected usage 0 [] := ⟨List.nodup_nil, by simp, by simp⟩

theorem Collected.succ {m : Nat} {machines : List Nat} (h : Collected usage m machines) :
    Collected usage (m + 1) machines :=
  ⟨h.nodup, fun i hi => Nat.lt_succ_of_lt (h.below i hi), h.free⟩

theorem Collected.concat {m : Nat} {machines : List Nat} (h : Collected usage m machines)
    (hfree : usage[m]? = some [none, none]) : Collected usage (m + 1) (machines ++ [m]) := by
  refine ⟨?_, fun i hi => ?_, fun i hi => ?_⟩
  · rw [List.nodup_append]
    refine ⟨h.nodup, by simp, fun i hi k hk => ?_⟩
    have hlt := h.below i hi
    have hk : k = m := by simpa using hk
    omega
  · rcases List.mem_append.mp hi with hi | hi
    · exact Nat.lt_succ_of_lt (h.below i hi)
    · rw [List.mem_singleton.mp hi]
      exact Nat.lt_succ_self m
  · rcases List.mem_append.mp hi with hi | hi
    · exact h.free i hi
    · rw [List.mem_singleton.mp hi]
      exact hfree

/-- Whole machines that are enough for the job, the last one of them needed. -/
structure Enough (slotSize reqCpus : Nat) (machines : List Nat) : Prop where
  enough : reqCpus ≤ machines.length * (2 * slotSize)
  needed : (machines.length - 1) * (2 * slotSize) < reqCpus

/-- The loop stops as soon as the collected machines are enough, and by then it has
not run out of free machines. -/
theorem selectNodes_ok (hu : Uniform rest) {m : Nat} (hrest : usage.drop m = rest)
    {machines : List Nat} (hcollected : Collected usage m machines)
    (hless : machines.length * (2 * slotSize) < reqCpus)
    (hroom : reqCpus ≤ (machines.length + freeNodes rest) * (2 * slotSize)) :
    ∃ m' machines', selectNodes 2 slotSize reqCpus m rest (nodes machines) =
        .ok (nodes machines') ∧
      Collected usage m' machines' ∧ Enough slotSize reqCpus machines' := by
  induction rest generalizing m machines with
  | nil =>
      rw [freeNodes, List.countP_nil, Nat.add_zero] at hroom
      omega
  | cons mu rest ih =>
      obtain ⟨owner, rfl⟩ := hu mu List.mem_cons_self
      have hu' : Uniform rest := fun r hr => hu r (List.mem_cons_of_mem _ hr)
      obtain ⟨hmu, hdrop⟩ := row_of_drop hrest
      cases owner with
      | none =>
          have hroom' : reqCpus ≤ (machines.length + 1 + freeNodes rest) * (2 * slotSize) := by
            rw [freeNodes_cons_free] at hroom
            rw [Nat.add_assoc, Nat.add_comm 1]
            exact hroom
          have hnext := hcollected.concat hmu
          rw [selectNodes_free]
          split
          · rename_i henough
            refine ⟨m + 1, machines ++ [m], rfl, hnext, henough, ?_⟩
            rw [List.length_append, List.length_singleton, Nat.add_sub_cancel]
            exact hless
          · rename_i hmore
            refine ih hu' hdrop hnext (by omega) ?_
            rw [List.length_append, List.length_singleton]
            exact hroom'
      | some j =>
          rw [freeNodes_cons_taken] at hroom
          rw [selectNodes_taken, if_neg (by omega)]
          exact ih hu' hdrop hcollected.succ hless hroom

/-- The comparison of the two slots never stops the loop, whether or not the machines
are enough. -/
theorem selectNodes_total (hu : Uniform rest) {m : Nat} (hrest : usage.drop m = rest)
    {machines : List Nat} (hcollected : Collected usage m machines) :
    ∃ m' machines', selectNodes 2 slotSize reqCpus m rest (nodes machines) =
      .ok (nodes machines') ∧ Collected usage m' machines' := by
  induction rest generalizing m machines with
  | nil => exact ⟨m, machines, rfl, hcollected⟩
  | cons mu rest ih =>
      obtain ⟨owner, rfl⟩ := hu mu List.mem_cons_self
      have hu' : Uniform rest := fun r hr => hu r (List.mem_cons_of_mem _ hr)
      obtain ⟨hmu, hdrop⟩ := row_of_drop hrest
      cases owner with
      | none =>
          have hnext := hcollected.concat hmu
          rw [selectNodes_free]
          split
          · exact ⟨m + 1, machines ++ [m], rfl, hnext⟩
          · exact ih hu' hdrop hnext
      | some j =>
          rw [selectNodes_taken]
          split
          · exact ⟨m, machines, rfl, hcollected⟩
          · exact ih hu' hdrop hcollected.succ

end Loops

/-- What the tables look like while every job holds whole machines. -/
structure WholeNodes (s : State) : Prop where
  usage : ∀ m, s.controller.machineUsage.get? (m, 0) = s.controller.machineUsage.get? (m, 1)
  rows : ∀ config ∈ s.controller.idToConfig, ∀ m, (m, 0) ∈ config ↔ (m, 1) ∈ config

/-- The jobs still to be started are not empty, and the one that is selected for has
been waited for. -/
structure Waited (s : State) : Prop where
  queue : ∀ job ∈ s.queue, 0 < job.reqCpus
  waiting : ∀ job, s.pc = .waitRessource job ∨ s.pc = .asleep (.ressource job) →
    0 < job.reqCpus
  select : ∀ job, s.pc = .select job → 0 < job.reqCpus ∧
    s.controller.ressourceAvailable job.reqCpus s.controller.systemConfig.slots.length =
      .ok true

theorem wholeNodes_start (machines : List String) (systemConfig : SystemConfig)
    (vmLocations : Vm.VmLocations) (queue : List Job) :
    WholeNodes (start machines systemConfig vmLocations queue) := by
  refine ⟨fun m => ?_, by simp [start, create]⟩
  change Grid.get? (List.replicate machines.length [none, none]) (m, 0) =
    Grid.get? (List.replicate machines.length [none, none]) (m, 1)
  rw [Grid.get?, Grid.get?, List.getElem?_replicate]
  split <;> rfl

section Steps

variable {σ : Settings} {s s' : State} {action : Action}

theorem WholeNodes.trans (h : WholeNodes s) (hwf : WellFormed s)
    (ht : Trans σ s action s') : WholeNodes s' := by
  cases ht with
  | @select job config c id hpc hselect heffect =>
      rw [hwf.slots] at hselect
      obtain ⟨machines, rfl⟩ := @selectNodes_nodes _ _ _ 0 [] config hselect
      have hboth : ∀ m, (m, 0) ∈ nodes machines ↔ (m, 1) ∈ nodes machines := by
        simp [mem_nodes]
      refine ⟨fun m => ?_, fun config hconfig m => ?_⟩
      · rw [heffect.usage, heffect.usage]
        rcases Classical.em ((m, 0) ∈ nodes machines) with hm | hm
        · rw [if_pos hm, if_pos ((hboth m).mp hm)]
        · rw [if_neg hm, if_neg fun hm' => hm ((hboth m).mpr hm')]
          exact h.usage m
      · rw [heffect.idToConfig, List.mem_append, List.mem_singleton] at hconfig
        rcases hconfig with hconfig | rfl
        · exact h.rows config hconfig m
        · exact hboth m
  | @complete id wait c config _ _ heffect =>
      refine ⟨fun m => ?_, ?_⟩
      · have hboth := h.rows config (List.mem_of_getElem? heffect.row) m
        rw [heffect.usage, heffect.usage]
        rcases Classical.em ((m, 0) ∈ config) with hm | hm
        · rw [if_pos hm, if_pos (hboth.mp hm)]
        · rw [if_neg hm, if_neg fun hm' => hm (hboth.mpr hm')]
          exact h.usage m
      · rw [heffect.idToConfig]
        exact h.rows
  | _ => exact ⟨h.usage, h.rows⟩

theorem Waited.trans (h : Waited s) (ht : Trans σ s action s') : Waited s' := by
  cases ht with
  | nextJob _ hqueue =>
      refine ⟨fun job hjob => h.queue job ?_, ?_, by rintro _ ⟨⟩⟩
      · rw [hqueue]
        exact List.mem_cons_of_mem _ hjob
      · rintro _ (hpc | hpc) <;> cases hpc
        exact h.queue _ (by rw [hqueue]; exact List.mem_cons_self)
  | ressource hpc havailable =>
      refine ⟨h.queue, by (rintro _ (hpc | hpc) <;> cases hpc), ?_⟩
      rintro _ ⟨⟩
      exact ⟨h.waiting _ (.inl hpc), havailable⟩
  | noRessource hpc =>
      refine ⟨h.queue, ?_, by rintro _ ⟨⟩⟩
      rintro _ (hpc' | hpc') <;> cases hpc'
      exact h.waiting _ (.inl hpc)
  | @wake wait hpc =>
      cases wait with
      | ressource job =>
          refine ⟨h.queue, ?_, by rintro _ ⟨⟩⟩
          rintro _ (hpc' | hpc') <;> cases hpc'
          exact h.waiting job (.inr hpc)
      | done => exact ⟨h.queue, by (rintro _ (hpc | hpc) <;> cases hpc), by rintro _ ⟨⟩⟩
  | complete hpc =>
      refine ⟨h.queue, h.waiting, fun job hpc' => ?_⟩
      cases hpc.symm.trans hpc'
  | processEnd => exact ⟨h.queue, h.waiting, h.select⟩
  | notifyAll => exact ⟨h.queue, h.waiting, h.select⟩
  | _ => exact ⟨h.queue, by (rintro _ (hpc | hpc) <;> cases hpc), by rintro _ ⟨⟩⟩

theorem WholeNodes.uniform (h : WholeNodes s) (hwf : WellFormed s) :
    Uniform s.controller.machineUsage := by
  intro row hrow
  obtain ⟨m, hm⟩ := List.mem_iff_getElem?.mp hrow
  obtain ⟨first, second, rfl⟩ := List.length_eq_two.mp (hwf.usage.row_length row hrow)
  have hsame := h.usage m
  rw [Grid.get?_of_row hm, Grid.get?_of_row hm] at hsame
  exact ⟨first, by rw [Option.some_inj.mp hsame.symm]⟩

end Steps

/-- A machine is free or held by one job, and a job that has been waited for gets
whole free machines, no more of them than it needs. -/
structure ExclusiveNodes (s : State) : Prop where
  uniform : ∀ (m : Nat) (row : SlotAllocation), s.controller.machineUsage[m]? = some row →
    ∃ owner, row = [owner, owner]
  selection : ∀ job, s.pc = .select job → ∃ machines : List Nat,
    selectNodes s.controller.systemConfig.slots.length s.controller.systemConfig.slotSize
      job.reqCpus 0 s.controller.machineUsage [] = .ok (nodes machines) ∧
    (nodes machines).Nodup ∧
    (∀ m ∈ machines, s.controller.machineUsage[m]? = some [none, none]) ∧
    job.reqCpus ≤ (nodes machines).length * s.controller.systemConfig.slotSize ∧
    ∀ k, job.reqCpus ≤ k * (2 * s.controller.systemConfig.slotSize) → machines.length ≤ k

/-- The two invariants of a run together. -/
def NodesInStep (s : State) : Prop := WholeNodes s ∧ Waited s

theorem exclusiveNodes_of {s : State} (hwf : WellFormed s) (h : WholeNodes s)
    (hwaited : Waited s) : ExclusiveNodes s := by
  have huniform := h.uniform hwf
  refine ⟨fun m row hrow => huniform row (List.mem_of_getElem? hrow), fun job hpc => ?_⟩
  obtain ⟨hpos, havailable⟩ := hwaited.select job hpc
  rw [hwf.slots] at havailable ⊢
  simp only [ressourceAvailable, bind_eq_ok] at havailable
  obtain ⟨k, hk, havailable⟩ := havailable
  have hroom : job.reqCpus ≤ k := by simpa using havailable
  rw [freeCpus_uniform hwf.slots huniform hk] at hroom
  obtain ⟨m', machines, hselect, hcollected, henough, hneeded⟩ :=
    selectNodes_ok huniform (m := 0) (List.drop_zero) Collected.nil (by simpa using hpos)
      (by simpa using hroom)
  refine ⟨machines, hselect, nodup_nodes hcollected.nodup, hcollected.free, ?_, ?_⟩
  · rw [length_nodes, Nat.mul_assoc]
    exact henough
  · intro k hfits
    have hlt := Nat.lt_of_mul_lt_mul_right (hneeded.trans_le hfits)
    omega

/-- Nodes are exclusive along every run over jobs that need at least one cpu. -/
theorem exclusive_nodes (σ : Settings) (s₀ s : State) (hinit : (system σ).Init s₀)
    (hjobs : ∀ job ∈ s₀.queue, 0 < job.reqCpus)
    (hs : ((system σ).startingAt s₀).Reachable s) : ExclusiveNodes s := by
  have hreach : ∀ t, ((system σ).startingAt s₀).Reachable t → WellFormed t := fun t ht =>
    reachable_wellFormed (System.ReachableVia.append (.init hinit) ht)
  have hinv : NodesInStep s := by
    refine hs.invariant ?_ ?_
    · rintro s rfl
      obtain ⟨machines, systemConfig, vmLocations, queue, _, _, rfl⟩ := hinit
      refine ⟨wholeNodes_start .., hjobs, ?_, by rintro _ ⟨⟩⟩
      rintro _ (hpc | hpc) <;> cases hpc
    · intro s action s' hs h _ hstep
      have ht := step_trans hstep
      exact ⟨h.1.trans (hreach s hs) ht, h.2.trans ht⟩
  exact exclusiveNodes_of (hreach s hs) hinv.1 hinv.2

/-- Two machines of four cpus each; the first job takes one of them, the second one
gets the other. -/
theorem exclusive_nodes_secondJob : ∃ s, s.pc = .select ⟨3, 1, "", true⟩ ∧
    s.controller.machineUsage = [[some 0, some 0], [none, none]] ∧ ExclusiveNodes s := by
  have hrun : (((system (plainSettings .cgroup)).startingAt
      (start ["a", "b"] ⟨[⟨[0, 1], []⟩, ⟨[2, 3], []⟩]⟩ []
        [⟨4, 1, "", true⟩, ⟨3, 1, "", true⟩])).run
      (start ["a", "b"] ⟨[⟨[0, 1], []⟩, ⟨[2, 3], []⟩]⟩ []
        [⟨4, 1, "", true⟩, ⟨3, 1, "", true⟩])
      [.schedule, .schedule, .schedule, .schedule, .schedule]).map
        (fun s => (s.pc, s.controller.machineUsage)) =
      .ok (.select ⟨3, 1, "", true⟩, [[some 0, some 0], [none, none]]) := by
    decide +kernel
  obtain ⟨s, hrun, heq⟩ := map_eq_ok.mp hrun
  obtain ⟨hpc, husage⟩ := Prod.mk.inj heq
  exact ⟨s, hpc, husage, exclusive_nodes (plainSettings .cgroup) _ s
    ⟨_, _, _, _, rfl, rfl, rfl⟩ (by decide)
    (System.run_reachable (fun _ _ => trivial) (.init rfl) hrun)⟩

end Poncos.MultiAppConsec
