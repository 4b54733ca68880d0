import Poncos.Controller.GenerateCommand

/-!
The groups of hosts the control group controller makes up from a config.  It takes two
neighbours on one machine for both of its slots, and so groups the hosts right exactly
where the slots of one machine are listed side by side.
-/

namespace Poncos.Cgroup

open Poncos.Library
open Poncos.Library.Execution

/-- The group and the machine of every host, as the loop enters them. -/
def entries (slots : Nat) : ExecuteConfig → List (Nat × Nat)
  | [] => []
  | [elem] => [(elem.2, elem.1)]
  | elem :: next :: rest =>
      if elem.1 = next.1 then
        (slots, elem.1) :: (slots, elem.1) :: entries slots rest
      else (elem.2, elem.1) :: entries slots (next :: rest)

/-- The group a slot belongs to: the last one if the config has another slot of its
machine, else the one of the slot. -/
def groupOf (slots : Nat) (config : ExecuteConfig) (elem : ExecuteConfigElem) : Nat :=
  if ∃ other ∈ config, other.1 = elem.1 ∧ other.2 ≠ elem.2 then slots else elem.2

def grouped (slots : Nat) (config : ExecuteConfig) : List (Nat × Nat) :=
  config.map fun elem => (groupOf slots config elem, elem.1)

def hostsIn (machines : List String) (entries : List (Nat × Nat)) (group : Nat) :
    List String :=
  (entries.filter fun entry => entry.1 = group).map fun entry => machines.getD entry.2 ""

theorem hostsIn_cons (machines : List String) (entry : Nat × Nat) (rest : List (Nat × Nat))
    (group : Nat) : hostsIn machines (entry :: rest) group =
      (if group = entry.1 then [machines.getD entry.2 ""] else []) ++
        hostsIn machines rest group := by
  rcases eq_or_ne entry.1 group with h | h
  · simp [hostsIn, h]
  · simp [hostsIn, h, h.symm]

/-- The lists with more hosts at the end of every group. -/
structure Entered (lists lists' : HostLists) (hosts : Nat → List String) : Prop where
  groups : lists'.hostLists.length = lists.hostLists.length
  counters : lists'.hostsPerSlot.length = lists.hostsPerSlot.length
  hosts : ∀ group old, lists.hostLists[group]? = some old →
    lists'.hostLists[group]? = some (old ++ hosts group)

theorem Entered.trans {lists lists₁ lists' : HostLists} {hosts hosts' hosts'' : Nat → List String}
    (h : Entered lists lists₁ hosts) (h' : Entered lists₁ lists' hosts')
    (heq : ∀ group, hosts'' group = hosts group ++ hosts' group) :
    Entered lists lists' hosts'' := by
  refine ⟨h'.groups.trans h.groups, h'.counters.trans h.counters, fun group old hold => ?_⟩
  rw [h'.hosts group _ (h.hosts group old hold), heq, List.append_assoc]

theorem HostLists.enter_entered {lists : HostLists} {slot : Nat} (hosts : List String)
    (hlists : slot < lists.hostLists.length) (hcounters : slot < lists.hostsPerSlot.length) :
    ∃ lists', lists.enter slot hosts = .ok lists' ∧
      Entered lists lists' fun group => if group = slot then hosts else [] := by
  have hentry := List.getElem?_eq_getElem hlists
  have hcount := List.getElem?_eq_getElem hcounters
  refine ⟨_, by
    rw [HostLists.enter, bind_of_ok (fetch_eq_ok.mpr hentry),
      bind_of_ok (store_eq_ok.mpr ⟨hlists, rfl⟩), bind_of_ok (fetch_eq_ok.mpr hcount),
      bind_of_ok (store_eq_ok.mpr ⟨hcounters, rfl⟩)], by simp, by simp, ?_⟩
  intro group old hold
  rcases eq_or_ne group slot with rfl | hne
  · rw [hentry] at hold
    cases hold
    simp [hlists]
  · simp [hne, List.getElem?_set_ne hne.symm, hold]

/-- The loop ends, with the hosts of the config in the groups of `entries`. -/
theorem groupHosts_entered {machines : List String} {slots : Nat} {config : ExecuteConfig}
    {lists : HostLists} (hrange : ∀ p ∈ config, p.1 < machines.length ∧ p.2 < slots)
    (hlists : slots < lists.hostLists.length) (hcounters : slots < lists.hostsPerSlot.length) :
    ∃ lists', groupHosts machines slots config lists = .ok lists' ∧
      Entered lists lists' (hostsIn machines (entries slots config)) := by
  fun_induction groupHosts machines slots config lists with
  | case1 lists =>
      exact ⟨lists, rfl, rfl, rfl, by simp [entries, hostsIn]⟩
  | case2 elem lists =>
      obtain ⟨hmachine, hslot⟩ := hrange elem List.mem_cons_self
      have hhost := List.getElem?_eq_getElem hmachine
      rw [bind_of_ok (fetch_eq_ok.mpr hhost)]
      obtain ⟨lists', henter, hentered⟩ := HostLists.enter_entered [machines[elem.1]]
        (hslot.trans hlists) (hslot.trans hcounters)
      refine ⟨lists', henter, hentered.groups, hentered.counters, fun group old hold => ?_⟩
      rw [hentered.hosts group old hold, entries, hostsIn_cons]
      simp [hostsIn, hhost]
  | case3 elem next rest lists ihBoth ihOne =>
      obtain ⟨hmachine, hslot⟩ := hrange elem List.mem_cons_self
      have hhost := List.getElem?_eq_getElem hmachine
      rw [bind_of_ok (fetch_eq_ok.mpr hhost), entries]
      split
      · obtain ⟨lists₁, henter, hentered⟩ := HostLists.enter_entered
          [machines[elem.1], machines[elem.1]] hlists hcounters
        rw [bind_of_ok henter]
        obtain ⟨lists', hgroup, hrest⟩ := ihBoth lists₁
          (fun p hp => hrange p (List.mem_cons_of_mem _ (List.mem_cons_of_mem _ hp)))
          (hentered.groups ▸ hlists) (hentered.counters ▸ hcounters)
        refine ⟨lists', hgroup, hentered.trans hrest fun group => ?_⟩
        rw [hostsIn_cons, hostsIn_cons]
        split
        · simp [hhost]
        · simp
      · obtain ⟨lists₁, henter, hentered⟩ := HostLists.enter_entered [machines[elem.1]]
          (hslot.trans hlists) (hslot.trans hcounters)
        rw [bind_of_ok henter]
        obtain ⟨lists', hgroup, hrest⟩ := ihOne lists₁
          (fun p hp => hrange p (List.mem_cons_of_mem _ hp))
          (hentered.groups ▸ hlists) (hentered.counters ▸ hcounters)
        refine ⟨lists', hgroup, hentered.trans hrest fun group => ?_⟩
        rw [hostsIn_cons]
        simp [hhost]

/-- The slots of one machine stand side by side. -/
def Adjacent (config : ExecuteConfig) : Prop :=
  ∀ (i j : Nat) (p q : ExecuteConfigElem), i < j → config[i]? = some p → config[j]? = some q →
    p.1 = q.1 → j = i + 1

theorem adjacent_nil : Adjacent [] := by simp [Adjacent]

theorem adjacent_cons {elem : ExecuteConfigElem} {rest : ExecuteConfig} :
    Adjacent (elem :: rest) ↔ (∀ q ∈ rest.tail, q.1 ≠ elem.1) ∧ Adjacent rest := by
  constructor
  · intro h
    refine ⟨fun q hq heq => ?_, fun i j p q hij hp hq heq => ?_⟩
    · obtain ⟨j, hj⟩ := List.mem_iff_getElem?.mp hq
      rw [List.getElem?_tail] at hj
      have := h 0 (j + 2) elem q (by omega) rfl (by simpa using hj) heq.symm
      omega
    · have := h (i + 1) (j + 1) p q (by omega) (by simpa using hp) (by simpa using hq) heq
      omega
  · rintro ⟨hfirst, hrest⟩ i j p q hij hp hq heq
    obtain ⟨j, rfl⟩ : ∃ j', j = j' + 1 := ⟨j - 1, by omega⟩
    rw [List.getElem?_cons_succ] at hq
    cases i with
    | zero =>
        obtain rfl : elem = p := by simpa using hp
        rcases Nat.eq_zero_or_pos j with rfl | hj
        · rfl
        · refine absurd heq.symm (hfirst q (List.mem_of_getElem? (i := j - 1) ?_))
          rw [List.getElem?_tail, Nat.sub_add_cancel hj]
          exact hq
    | succ i =>
        rw [List.getElem?_cons_succ] at hp
        have := hrest i j p q (by omega) hp hq heq
        omega

section TwoSlots

variable {config : ExecuteConfig}

theorem groupOf_cons {slots : Nat} {first elem : ExecuteConfigElem} {rest : ExecuteConfig}
    (h : first.1 ≠ elem.1) : groupOf slots (first :: rest) elem = groupOf slots rest elem := by
  simp only [groupOf, List.mem_cons, exists_eq_or_imp, h, false_and, false_or]

theorem groupOf_eq_slot {slots : Nat} {elem : ExecuteConfigElem}
    (h : ∀ q ∈ config, q.1 = elem.1 → q = elem) : groupOf slots config elem = elem.2 := by
  rw [groupOf, if_neg]
  rintro ⟨q, hq, hmachine, hslot⟩
  exact hslot (congrArg Prod.snd (h q hq hmachine))

theorem groupOf_eq_slots {slots : Nat} {elem other : ExecuteConfigElem} (hother : other ∈ config)
    (hmachine : other.1 = elem.1) (hne : other ≠ elem) :
    groupOf slots config elem = slots := by
  rw [groupOf, if_pos]
  exact ⟨other, hother, hmachine, fun hslot => hne (Prod.ext hmachine hslot)⟩

/-- Neighbours on one machine leave no third slot of it. -/
theorem machine_ne_of_pair {elem next : ExecuteConfigElem} {rest : ExecuteConfig}
    (hnodup : (elem :: next :: rest).Nodup) (hslots : ∀ p ∈ elem :: next :: rest, p.2 < 2)
    (heq : elem.1 = next.1) : ∀ q ∈ rest, q.1 ≠ elem.1 := by
  intro q hq hmachine
  simp only [List.nodup_cons, List.mem_cons, not_or] at hnodup
  have helem := hslots elem (by simp)
  have hnext := hslots next (by simp)
  have hlt := hslots q (by simp [hq])
  have hne : elem.2 ≠ next.2 := fun h => hnodup.1.1 (Prod.ext heq h)
  have hne' : elem.2 ≠ q.2 := fun h => hnodup.1.2 ((Prod.ext hmachine h.symm : q = elem) ▸ hq)
  have hne'' : next.2 ≠ q.2 := fun h =>
    hnodup.2.1 ((Prod.ext (hmachine.trans heq) h.symm : q = next) ▸ hq)
  omega

theorem grouped_pair {slots : Nat} {elem next : ExecuteConfigElem} {rest : ExecuteConfig}
    (hne : elem ≠ next) (heq : elem.1 = next.1) (hrest : ∀ q ∈ rest, q.1 ≠ elem.1) :
    grouped slots (elem :: next :: rest) =
      (slots, elem.1) :: (slots, elem.1) :: grouped slots rest := by
  have hfirst : groupOf slots (elem :: next :: rest) elem = slots :=
    groupOf_eq_slots (List.mem_cons_of_mem _ List.mem_cons_self) heq.symm hne.symm
  have hsecond : groupOf slots (elem :: next :: rest) next = slots :=
    groupOf_eq_slots List.mem_cons_self heq hne
  rw [grouped, List.map_cons, List.map_cons, hfirst, hsecond, ← heq, grouped]
  refine congrArg _ (congrArg _ (List.map_congr_left fun q hq => ?_))
  rw [groupOf_cons (hrest q hq).symm, groupOf_cons (heq ▸ (hrest q hq).symm)]

theorem grouped_single {slots : Nat} {elem : ExecuteConfigElem} {rest : ExecuteConfig}
    (hrest : ∀ q ∈ rest, q.1 ≠ elem.1) :
    grouped slots (elem :: rest) = (elem.2, elem.1) :: grouped slots rest := by
  have hfirst : groupOf slots (elem :: rest) elem = elem.2 := by
    refine groupOf_eq_slot fun q hq hmachine => ?_
    rcases List.mem_cons.mp hq with rfl | hq
    · rfl
    · exact absurd hmachine (hrest q hq)
  rw [grouped, List.map_cons, hfirst, grouped]
  refine congrArg _ (List.map_congr_left fun q hq => ?_)
  rw [groupOf_cons (hrest q hq).symm]

theorem entries_eq_grouped {slots : Nat} (hnodup : config.Nodup)
    (hslots : ∀ p ∈ config, p.2 < 2) (hadjacent : Adjacent config) :
    entries slots config = grouped slots config := by
  fun_induction entries slots config with
  | case1 => rfl
  | case2 elem => rw [grouped_single (by simp), grouped, List.map_nil]
  | case3 elem next rest heq ih =>
      have hrest := machine_ne_of_pair hnodup hslots heq
      have hne : elem ≠ next := by
        rintro rfl
        simp at hnodup
      rw [grouped_pair hne heq hrest, ih (List.nodup_cons.mp (List.nodup_cons.mp hnodup).2).2
        (fun p hp => hslots p (by simp [hp]))
        (adjacent_cons.mp (adjacent_cons.mp hadjacent).2).2]
  | case4 elem next rest hne ih =>
      obtain ⟨hfar, hadjacent'⟩ := adjacent_cons.mp hadjacent
      have hrest : ∀ q ∈ next :: rest, q.1 ≠ elem.1 := by
        intro q hq
        rcases List.mem_cons.mp hq with rfl | hq
        · exact Ne.symm hne
        · exact hfar q hq
      rw [grouped_single hrest, ih (List.nodup_cons.mp hnodup).2
        (fun p hp => hslots p (List.mem_cons_of_mem _ hp)) hadjacent']

/-- The hosts entered into the last group, and those that belong there. -/
def pairCount (entries : List (Nat × Nat)) : Nat := entries.countP fun entry => entry.1 = 2

theorem pairCount_grouped (config : ExecuteConfig) :
    pairCount (grouped 2 config) = config.countP fun elem => groupOf 2 config elem = 2 := by
  rw [pairCount, grouped, List.countP_map]
  rfl

theorem groupOf_cons_of_eq {elem : ExecuteConfigElem} (first : ExecuteConfigElem)
    (h : groupOf 2 config elem = 2) : groupOf 2 (first :: config) elem = 2 := by
  unfold groupOf at h ⊢
  split at h
  · rename_i hother
    obtain ⟨other, hother, hboth⟩ := hother
    exact if_pos ⟨other, List.mem_cons_of_mem _ hother, hboth⟩
  · rw [h, ite_self]

theorem pairCount_grouped_lt {elem other : ExecuteConfigElem} {rest : ExecuteConfig}
    (hother : other ∈ rest) (hmachine : other.1 = elem.1) (hne : other ≠ elem) :
    pairCount (grouped 2 rest) < pairCount (grouped 2 (elem :: rest)) := by
  have hfirst : groupOf 2 (elem :: rest) elem = 2 :=
    groupOf_eq_slots (List.mem_cons_of_mem _ hother) hmachine hne
  have hrest : rest.countP (fun q => groupOf 2 rest q = 2) ≤
      rest.countP fun q => groupOf 2 (elem :: rest) q = 2 := by
    refine List.countP_mono_left fun q hq hgroup => ?_
    rw [decide_eq_true_eq] at hgroup ⊢
    exact groupOf_cons_of_eq elem hgroup
  rw [pairCount_grouped, pairCount_grouped, List.countP_cons_of_pos (by simp [hfirst])]
  exact Nat.lt_succ_of_le hrest

/-- The loop misses a pair exactly if its slots do not stand side by side. -/
theorem pairCount_entries (hnodup : config.Nodup) (hslots : ∀ p ∈ config, p.2 < 2) :
    pairCount (entries 2 config) ≤ pairCount (grouped 2 config) ∧
      (pairCount (entries 2 config) = pairCount (grouped 2 config) → Adjacent config) := by
  fun_induction entries 2 config with
  | case1 => exact ⟨le_rfl, fun _ => adjacent_nil⟩
  | case2 elem =>
      rw [grouped_single (by simp)]
      exact ⟨le_rfl, fun _ => adjacent_cons.mpr ⟨by simp, adjacent_nil⟩⟩
  | case3 elem next rest heq ih =>
      have hrest := machine_ne_of_pair hnodup hslots heq
      have hne : elem ≠ next := by
        rintro rfl
        simp at hnodup
      obtain ⟨hle, hadjacent⟩ := ih (List.nodup_cons.mp (List.nodup_cons.mp hnodup).2).2
        fun p hp => hslots p (by simp [hp])
      rw [grouped_pair hne heq hrest]
      simp only [pairCount, List.countP_cons_of_pos, decide_true, Nat.add_le_add_iff_right,
        Nat.add_right_cancel_iff] at hle hadjacent ⊢
      refine ⟨hle, fun hcount => ?_⟩
      refine adjacent_cons.mpr ⟨hrest, adjacent_cons.mpr ⟨fun q hq => ?_, hadjacent hcount⟩⟩
      rw [← heq]
      exact hrest q (List.mem_of_mem_tail hq)
  | case4 elem next rest hne ih =>
      have helem : elem.2 ≠ 2 := (hslots elem List.mem_cons_self).ne
      obtain ⟨hle, hadjacent⟩ := ih (List.nodup_cons.mp hnodup).2
        fun p hp => hslots p (List.mem_cons_of_mem _ hp)
      have hskip : pairCount ((elem.2, elem.1) :: entries 2 (next :: rest)) =
          pairCount (entries 2 (next :: rest)) :=
        List.countP_cons_of_neg (by simpa using helem)
      rw [hskip]
      rcases Classical.em (∃ other ∈ next :: rest, other.1 = elem.1) with
        ⟨other, hother, hmachine⟩ | hfar
      · have hother' : other ≠ elem := by
          rintro rfl
          exact (List.nodup_cons.mp hnodup).1 hother
        have hlt := pairCount_grouped_lt hother hmachine hother'
        exact ⟨hle.trans hlt.le, fun hcount => absurd hcount (by omega)⟩
      · have hfar' : ∀ q ∈ next :: rest, q.1 ≠ elem.1 := fun q hq heq => hfar ⟨q, hq, heq⟩
        have hsingle : pairCount (grouped 2 (elem :: next :: rest)) =
            pairCount (grouped 2 (next :: rest)) := by
          rw [grouped_single hfar']
          exact List.countP_cons_of_neg (by simpa using helem)
        rw [hsingle]
        exact ⟨hle, fun hcount => adjacent_cons.mpr
          ⟨fun q hq => hfar' q (List.mem_of_mem_tail hq), hadjacent hcount⟩⟩

theorem grouped_perm {slots : Nat} {config' : ExecuteConfig} (hperm : config'.Perm config) :
    (grouped slots config').Perm (grouped slots config) := by
  have hgroup : groupOf slots config' = groupOf slots config := by
    funext elem
    simp only [groupOf, hperm.mem_iff]
  rw [grouped, grouped, hgroup]
  exact hperm.map _

theorem length_hostsIn (machines : List String) (entries : List (Nat × Nat)) :
    (hostsIn machines entries 2).length = pairCount entries := by
  rw [hostsIn, List.length_map, pairCount, List.countP_eq_length_filter]

end TwoSlots

def emptyLists (slots : Nat) : HostLists :=
  ⟨List.replicate (slots + 1) [], List.replicate (slots + 1) 0⟩

theorem emptyLists_counted (slots : Nat) : (emptyLists slots).Counted := by
  simp [HostLists.Counted, emptyLists]

theorem groupHosts_emptyLists {machines : List String} {slots : Nat} {config : ExecuteConfig}
    (hrange : ∀ p ∈ config, p.1 < machines.length ∧ p.2 < slots) :
    ∃ lists, groupHosts machines slots config (emptyLists slots) = .ok lists ∧
      lists.Counted ∧ lists.hostLists.length = slots + 1 ∧
      ∀ group ≤ slots, lists.hostLists[group]? =
        some (hostsIn machines (entries slots config) group) := by
  have hlists : slots < (emptyLists slots).hostLists.length := by simp [emptyLists]
  have hcounters : slots < (emptyLists slots).hostsPerSlot.length := by simp [emptyLists]
  obtain ⟨lists, hgroup, hentered⟩ := groupHosts_entered hrange hlists hcounters
  refine ⟨lists, hgroup, (groupHosts_counted (emptyLists_counted slots) hgroup).1, ?_, ?_⟩
  · rw [hentered.groups]
    simp [emptyLists]
  · intro group hle
    have hnone : (emptyLists slots).hostLists[group]? = some [] := by
      simp [emptyLists, Nat.lt_succ_of_le hle]
    simpa using hentered.hosts group [] hnone

/-- The lines of the hosts file, group by group. -/
def HostLists.lines (lists : HostLists) (processPerSlot : Nat) : List (List (String × Nat)) :=
  lists.hostLists.map fun hosts => hosts.map fun host => (host, processPerSlot)

/-- The launch in terms of the groups of hosts. -/
theorem launch_eq_ok_iff {c : Controller} {job : Job} {counter : Nat} {config : ExecuteConfig}
    {lists : HostLists} (hgroup : groupHosts c.machines c.systemConfig.slots.length config
      (emptyLists c.systemConfig.slots.length) = .ok lists) (hcounted : lists.Counted)
    {launched : Launch} :
    launch c job counter config = .ok launched ↔
      (job.reqCpus ≤ lists.hostsPerSlot.sum * c.systemConfig.slotSize ∧
        job.threadsPerProc ≠ 0 ∧ c.systemConfig.slotSize % job.threadsPerProc = 0) ∧
      launched = {
        hostsFile := (lists.lines (c.systemConfig.slotSize / job.threadsPerProc)).flatten
        programs := (lists.hostsPerSlot.filter (· ≠ 0)).map fun hosts =>
          (c.systemConfig.slotSize / job.threadsPerProc * hosts,
            " ./cgroup_wrapper.sh " ++ cmdNameFromId counter ++ " " ++ job.command) } := by
  have hused := flatMap_used lists.hostLists
    fun host => (host, c.systemConfig.slotSize / job.threadsPerProc)
  have hprograms := map_used lists.hostLists fun hosts =>
    (c.systemConfig.slotSize / job.threadsPerProc * hosts,
      " ./cgroup_wrapper.sh " ++ cmdNameFromId counter ++ " " ++ job.command)
  rw [launch]
  change (groupHosts c.machines c.systemConfig.slots.length config
    (emptyLists c.systemConfig.slots.length) >>= _) = _ ↔ _
  rw [bind_of_ok hgroup, HostLists.lines]
  rw [← hcounted] at hused hprograms
  simp only [bind_eq_ok, ensure_eq_ok, exists_const, hused, hprograms, Except.ok.injEq]
  rw [and_assoc, and_assoc]
  exact and_congr_right fun _ => and_congr_right fun _ => and_congr_right fun _ => eq_comm

/-- The groups of a config: a machine of which it has all slots is listed once for each of
them in the last group, any other machine in the group of its slot. -/
def Grouped (c : Controller) (config : ExecuteConfig) : Prop :=
  ∃ lists, groupHosts c.machines c.systemConfig.slots.length config
      (emptyLists c.systemConfig.slots.length) = .ok lists ∧ lists.Counted ∧
    lists.hostLists.length = c.systemConfig.slots.length + 1 ∧
    ∀ group ≤ c.systemConfig.slots.length, ∃ hosts, lists.hostLists[group]? = some hosts ∧
      hosts.Perm (hostsIn c.machines (grouped c.systemConfig.slots.length config) group)

/-- A relisted config is launched with the same programs, and with the same lines of the
hosts file up to their order within a group. -/
def SameLaunch (c : Controller) (job : Job) (counter : Nat) (config config' : ExecuteConfig) :
    Prop :=
  ∀ launched, launch c job counter config = .ok launched →
    ∃ launched' lists lists', launch c job counter config' = .ok launched' ∧
      launched'.programs = launched.programs ∧
      groupHosts c.machines c.systemConfig.slots.length config
        (emptyLists c.systemConfig.slots.length) = .ok lists ∧
      groupHosts c.machines c.systemConfig.slots.length config'
        (emptyLists c.systemConfig.slots.length) = .ok lists' ∧
      launched.hostsFile =
        (lists.lines (c.systemConfig.slotSize / job.threadsPerProc)).flatten ∧
      launched'.hostsFile =
        (lists'.lines (c.systemConfig.slotSize / job.threadsPerProc)).flatten ∧
      List.Forall₂ List.Perm (lists'.lines (c.systemConfig.slotSize / job.threadsPerProc))
        (lists.lines (c.systemConfig.slotSize / job.threadsPerProc))

/-- Both listings of the slots of a job are grouped right, and launched in one way. -/
structure GroupLaw (c : Controller) (config config' : ExecuteConfig) : Prop where
  grouped : Grouped c config
  grouped' : Grouped c config'
  launch : ∀ job counter, SameLaunch c job counter config config'

theorem sameLaunch_of_grouped {c : Controller} {config config' : ExecuteConfig}
    (hperm : config'.Perm config) (h : Grouped c config)
    (h' : Grouped c config') (job : Job) (counter : Nat) :
    SameLaunch c job counter config config' := by
  obtain ⟨lists, hgroup, hcounted, hlength, hgrouped⟩ := h
  obtain ⟨lists', hgroup', hcounted', hlength', hgrouped'⟩ := h'
  have hgroups : List.Forall₂ List.Perm lists'.hostLists lists.hostLists := by
    rw [List.forall₂_iff_get]
    refine ⟨hlength'.trans hlength.symm, fun i hi' hi => ?_⟩
    have hle : i ≤ c.systemConfig.slots.length := by omega
    obtain ⟨hosts, hget, hhosts⟩ := hgrouped i hle
    obtain ⟨hosts', hget', hhosts'⟩ := hgrouped' i hle
    rw [List.getElem?_eq_getElem hi] at hget
    rw [List.getElem?_eq_getElem hi'] at hget'
    rw [List.get_eq_getElem, List.get_eq_getElem, Option.some_inj.mp hget,
      Option.some_inj.mp hget']
    exact hhosts'.trans ((((grouped_perm hperm).filter _).map _).trans hhosts.symm)
  have hcounts : lists'.hostsPerSlot = lists.hostsPerSlot := by
    rw [hcounted, hcounted', ← List.forall₂_eq_eq_eq, List.forall₂_map_left_iff,
      List.forall₂_map_right_iff]
    exact hgroups.imp fun _ _ h => h.length_eq
  intro launched hlaunched
  obtain ⟨hchecks, rfl⟩ := (launch_eq_ok_iff hgroup hcounted).mp hlaunched
  refine ⟨_, lists, lists', (launch_eq_ok_iff hgroup' hcounted').mpr ⟨hcounts ▸ hchecks, rfl⟩,
    ?_, hgroup, hgroup', rfl, rfl, ?_⟩
  · rw [hcounts]
  · rw [HostLists.lines, HostLists.lines, List.forall₂_map_left_iff, List.forall₂_map_right_iff]
    exact hgroups.imp fun _ _ h => h.map _

section Config

variable {c : Controller} {config config' : ExecuteConfig}
  (hslots : c.systemConfig.slots.length = 2) (hnodup : config.Nodup)
  (hrange : ∀ p ∈ config, p.1 < c.machines.length ∧ p.2 < 2)

include hslots hnodup hrange

theorem grouped_iff_adjacent : Grouped c config ↔ Adjacent config := by
  rw [Grouped, hslots]
  obtain ⟨lists, hgroup, hcounted, hlength, hhosts⟩ := groupHosts_emptyLists hrange
  have hcount := pairCount_entries hnodup fun p hp => (hrange p hp).2
  constructor
  · rintro ⟨lists', hgroup', _, _, hgrouped⟩
    cases hgroup.symm.trans hgroup'
    obtain ⟨hosts, hget, hperm⟩ := hgrouped 2 le_rfl
    rw [hhosts 2 le_rfl] at hget
    cases hget
    have hlength := hperm.length_eq
    rw [length_hostsIn, length_hostsIn] at hlength
    exact hcount.2 hlength
  · intro hadjacent
    refine ⟨lists, hgroup, hcounted, hlength, fun group hle => ⟨_, hhosts group hle, ?_⟩⟩
    rw [entries_eq_grouped hnodup (fun p hp => (hrange p hp).2) hadjacent]

/-- A config and its listing in another order are grouped and launched alike exactly if
both list the slots of a machine side by side. -/
theorem groupLaw_iff_adjacent (hperm : config'.Perm config) :
    GroupLaw c config config' ↔ Adjacent config ∧ Adjacent config' := by
  have hrange' : ∀ p ∈ config', p.1 < c.machines.length ∧ p.2 < 2 := fun p hp =>
    hrange p (hperm.mem_iff.mp hp)
  have hgrouped := grouped_iff_adjacent hslots hnodup hrange
  have hgrouped' := grouped_iff_adjacent hslots (hperm.nodup_iff.mpr hnodup) hrange'
  rw [← hgrouped, ← hgrouped']
  constructor
  · exact fun h => ⟨h.grouped, h.grouped'⟩
  · rintro ⟨h, h'⟩
    exact ⟨h, h', fun job counter =>
      sameLaunch_of_grouped hperm h h' job counter⟩

end Config

theorem groupLaw_iff_adjacent_listedBack :
    GroupLaw (Controller.create ["a", "b"] ⟨[⟨[0], []⟩, ⟨[1], []⟩]⟩) [(0, 0), (0, 1), (1, 0)]
      [(1, 0), (0, 1), (0, 0)] := by
  have hperm : [(1, 0), (0, 1), (0, 0)].Perm [(0, 0), (0, 1), (1, 0)] := by decide
  refine (groupLaw_iff_adjacent rfl (by decide) (by decide) hperm).mpr ⟨?_, ?_⟩
  · simp [adjacent_cons, adjacent_nil]
  · simp [adjacent_cons, adjacent_nil]

/-- Both slots of `a`, with one of `b` listed between them: `a` is put into the groups of
its single slots. -/
theorem not_grouped_apart :
    groupHosts ["a", "b"] 2 [(0, 0), (1, 0), (0, 1)] (emptyLists 2) =
        .ok ⟨[["a", "b"], ["a"], []], [2, 1, 0]⟩ ∧
      ¬ Grouped (Controller.create ["a", "b"] ⟨[⟨[0], []⟩, ⟨[1], []⟩]⟩)
        [(0, 0), (1, 0), (0, 1)] ∧
      ¬ GroupLaw (Controller.create ["a", "b"] ⟨[⟨[0], []⟩, ⟨[1], []⟩]⟩)
        [(0, 0), (0, 1), (1, 0)] [(0, 0), (1, 0), (0, 1)] := by
  have hnot : ¬ Grouped (Controller.create ["a", "b"] ⟨[⟨[0], []⟩, ⟨[1], []⟩]⟩)
      [(0, 0), (1, 0), (0, 1)] := by
    intro h
    have hadjacent := (grouped_iff_adjacent rfl (by decide) (by decide)).mp h
    exact absurd (hadjacent 0 2 (0, 0) (0, 1) (by decide) rfl rfl rfl) (by decide)
  exact ⟨rfl, hnot, fun h => hnot h.grouped'⟩

end Poncos.Cgroup
