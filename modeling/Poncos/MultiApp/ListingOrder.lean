import Mathlib.Data.Set.Function
import Poncos.MultiApp.NewConfig

/-!
`generate_new_config` does not depend on the order in which the slots of the job and
the marked machines are listed, as long as the totals tell the marked machines apart.
-/

namespace Poncos.MultiApp

open Poncos.Library
open Poncos.Library.Execution

/-- The elements of `xs` at the positions `p`, in this order. -/
def reorder {α : Type*} (p : List Nat) (xs : List α) : List α := p.filterMap (xs[·]?)

theorem reorder_map {α β : Type*} (p : List Nat) (g : α → β) (xs : List α) :
    reorder p (xs.map g) = (reorder p xs).map g := by
  simp [reorder, List.map_filterMap]

theorem reorder_range {α : Type*} (xs : List α) :
    reorder (List.range xs.length) xs = xs := by
  have hget : (List.range xs.length).map (xs[·]?) = xs.map some := by
    apply List.ext_getElem
    · simp
    · intro i hi hi'
      simp only [List.length_map, List.length_range] at hi
      simp [hi]
  have hsome := congrArg (List.filterMap id) hget
  rwa [List.filterMap_map, List.filterMap_map, Function.id_comp, Function.id_comp,
    List.filterMap_some] at hsome

theorem reorder_perm {α : Type*} {p : List Nat} {xs : List α}
    (hp : p.Perm (List.range xs.length)) : (reorder p xs).Perm xs := by
  have hperm := hp.filterMap (xs[·]?)
  rwa [← reorder, ← reorder, reorder_range] at hperm

/-- How many of the machines are more loaded than `m`. -/
def loadRank (slots : Nat) (util : MembwUtil) (marked : List Nat) (m : Nat) : Nat :=
  marked.countP fun x => machineUtil slots util m < machineUtil slots util x

theorem findIdx?_eq_countP {β : Type*} [LinearOrder β] {weight : Nat → β} {xs : List Nat}
    (hsorted : xs.Pairwise fun a b => weight b ≤ weight a)
    (hinj : Set.InjOn weight {x | x ∈ xs}) {m : Nat} (hm : m ∈ xs) :
    xs.findIdx? (· = m) = some (xs.countP fun x => weight m < weight x) := by
  induction xs with
  | nil => simp at hm
  | cons x rest ih =>
      rw [List.pairwise_cons] at hsorted
      have hinj' : Set.InjOn weight {y | y ∈ rest} :=
        hinj.mono fun y hy => List.mem_cons_of_mem x hy
      rcases eq_or_ne x m with rfl | hne
      · have hzero : rest.countP (fun y => weight x < weight y) = 0 := by
          rw [List.countP_eq_zero]
          intro y hy
          simpa using hsorted.1 y hy
        simp [List.findIdx?_cons, hzero]
      · have hrest : m ∈ rest := List.mem_of_ne_of_mem hne.symm hm
        have hlt : weight m < weight x :=
          lt_of_le_of_ne (hsorted.1 m hrest) fun heq =>
            hne (hinj List.mem_cons_self (List.mem_cons_of_mem x hrest) heq.symm)
        simp [List.findIdx?_cons, hne, hlt, ih hsorted.2 hinj' hrest]

theorem find?_machine_perm {config config' : ExecuteConfig} (hperm : config'.Perm config)
    (hnodup : (config.map Prod.fst).Nodup) (m : Nat) :
    config'.find? (·.1 = m) = config.find? (·.1 = m) := by
  cases hfind : config.find? (·.1 = m) with
  | none =>
      rw [List.find?_eq_none] at hfind ⊢
      exact fun elem helem => hfind elem (hperm.mem_iff.mp helem)
  | some elem =>
      obtain rfl : elem.1 = m := by simpa using List.find?_some hfind
      exact find?_machine ((hperm.map Prod.fst).nodup_iff.mpr hnodup)
        (hperm.mem_iff.mpr (List.mem_of_find?_eq_some hfind))

theorem sortMachines_ok {S : StdSort Nat} {slots : Nat} {util : MembwUtil}
    {machineIdxs sorted : List Nat} {reverse : Bool}
    (h : sortMachinesByMembwUtil S slots util machineIdxs reverse = .ok sorted) :
    machineIdxs.length ≤ util.length ∧ sorted.Perm machineIdxs := by
  simp only [sortMachinesByMembwUtil, bind_eq_ok, ensure_eq_ok] at h
  obtain ⟨_, hlen, _, _, heq⟩ := h
  cases heq
  exact ⟨hlen, S.perm _ _⟩

section Table

variable {util : MembwUtil} {n slots : Nat} (hu : util.Rectangular n slots)

include hu

theorem findIdx?_markedSorted {S : StdSort Nat} {marked markedSorted : List Nat}
    (hsort : sortMachinesByMembwUtil S slots util marked true = .ok markedSorted)
    (hinj : Set.InjOn (machineUtil slots util) {m | m ∈ marked}) {m : Nat}
    (hm : m ∈ marked) :
    markedSorted.findIdx? (· = m) = some (loadRank slots util marked m) := by
  obtain ⟨hlen, _⟩ := sortMachines_ok hsort
  rw [hu.length_eq] at hlen
  obtain ⟨sorted, heq, hperm, hsorted⟩ := sortMachines_eq hu S true hlen
  cases hsort.symm.trans heq
  rw [findIdx?_eq_countP (by simpa using hsorted)
    (hinj.mono fun x hx => hperm.mem_iff.mp hx) (hperm.mem_iff.mpr hm), loadRank,
    hperm.countP_eq]

/-- Where the totals differ, there is one sorted list. -/
theorem sortMachines_perm (S : StdSort Nat) {marked marked' : List Nat}
    (hmarked : marked'.Perm marked)
    (hinj : Set.InjOn (machineUtil slots util) {m | m ∈ marked}) :
    sortMachinesByMembwUtil S slots util marked' true =
      sortMachinesByMembwUtil S slots util marked true := by
  rcases Nat.lt_or_ge n marked.length with hlong | hlen
  · rw [sortMachinesByMembwUtil, sortMachinesByMembwUtil, hu.length_eq, hmarked.length_eq,
      ensure, if_neg (Nat.not_le.mpr hlong)]
    rfl
  · obtain ⟨sorted, heq, hperm, hsorted⟩ := sortMachines_eq hu S true hlen
    obtain ⟨sorted', heq', hperm', hsorted'⟩ := sortMachines_eq hu S true
      (hmarked.length_eq.le.trans hlen)
    rw [heq, heq']
    refine congrArg Except.ok (List.Perm.eq_of_pairwise ?_ hsorted' hsorted
      (hperm'.trans (hmarked.trans hperm.symm)))
    intro a b ha hb hab hba
    simp only [if_true] at hab hba
    exact hinj (hmarked.mem_iff.mp (hperm'.mem_iff.mp ha)) (hperm.mem_iff.mp hb)
      (le_antisymm hba hab)

end Table

theorem matchRank_perm (slots : Nat) (util : MembwUtil) {config config' : ExecuteConfig}
    (hperm : config'.Perm config) (hnodup : (config.map Prod.fst).Nodup)
    (markedSorted candidates : List Nat) :
    matchRank slots util config' markedSorted candidates =
      matchRank slots util config markedSorted candidates := by
  funext rank
  simp only [matchRank, matchSlot, find?_machine_perm hperm hnodup]

theorem matchSlot_machine {slots : Nat} {util : MembwUtil} {oldConfig : ExecuteConfig}
    {oldMach newMach : Nat} {elem : ExecuteConfigElem}
    (h : matchSlot slots util oldConfig oldMach newMach = .ok elem) : elem.1 = newMach := by
  rw [matchSlot] at h
  split at h
  · cases h
  · simp only [bind_eq_ok] at h
    obtain ⟨_, _, _, _, _, _, _, _, _, _, _, _, _, _, _, _, heq⟩ := h
    exact congrArg Prod.fst (Except.ok.inj heq).symm

theorem matchRank_machine {slots : Nat} {util : MembwUtil} {oldConfig : ExecuteConfig}
    {markedSorted candidates : List Nat} {rank : Nat} {elem : ExecuteConfigElem}
    (h : matchRank slots util oldConfig markedSorted candidates rank = .ok elem) :
    candidates[rank]? = some elem.1 := by
  simp only [matchRank, bind_eq_ok, fetch_eq_ok] at h
  obtain ⟨_, _, _, hnew, hmatch⟩ := h
  rw [matchSlot_machine hmatch, hnew]

theorem scatterElem_ok {markedSorted : List Nat} {newConfigSorted : ExecuteConfig}
    (hlen : markedSorted.length ≤ newConfigSorted.length) (elem : ExecuteConfigElem) :
    ∃ elem', scatterElem markedSorted newConfigSorted elem = .ok elem' := by
  rw [scatterElem]
  cases hfind : markedSorted.findIdx? (· = elem.1) with
  | none => exact ⟨elem, rfl⟩
  | some rank =>
      obtain ⟨hlt, _⟩ := List.findIdx?_eq_some_iff_getElem.mp hfind
      exact ⟨newConfigSorted[rank], fetch_eq_ok.mpr (by simp [Nat.lt_of_lt_of_le hlt hlen])⟩

/-- A result of `generate_new_config`, with the sort and the matching it comes from. -/
structure Generated (S : StdSort Nat) (slots : Nat) (util : MembwUtil)
    (oldConfig : ExecuteConfig) (marked candidates markedSorted : List Nat)
    (newConfigSorted newConfig : ExecuteConfig) : Prop where
  sorted : sortMachinesByMembwUtil S slots util marked true = .ok markedSorted
  matched : (List.range marked.length).mapM
    (matchRank slots util oldConfig markedSorted candidates) = .ok newConfigSorted
  scattered : oldConfig.mapM (scatterElem markedSorted newConfigSorted) = .ok newConfig

theorem generated_of_ok {S : StdSort Nat} {slots : Nat} {util : MembwUtil}
    {oldConfig newConfig : ExecuteConfig} {marked candidates : List Nat}
    (hne : candidates ≠ [])
    (h : generateNewConfig S slots util oldConfig marked candidates = .ok newConfig) :
    ∃ markedSorted newConfigSorted, Generated S slots util oldConfig marked candidates
      markedSorted newConfigSorted newConfig := by
  rw [generateNewConfig, if_neg hne] at h
  simp only [bind_eq_ok] at h
  obtain ⟨_, _, markedSorted, hsort, newConfigSorted, hmatch, _, _, hscatter⟩ := h
  exact ⟨markedSorted, newConfigSorted, hsort, hmatch, hscatter⟩

theorem length_matched {slots : Nat} {util : MembwUtil} {oldConfig : ExecuteConfig}
    {markedSorted candidates : List Nat} {k : Nat} {newConfigSorted : ExecuteConfig}
    (h : (List.range k).mapM (matchRank slots util oldConfig markedSorted candidates) =
      .ok newConfigSorted) : newConfigSorted.length = k := by
  simpa using (mapM_eq_ok_iff.mp h).length_eq.symm

theorem getElem?_matched {slots : Nat} {util : MembwUtil} {oldConfig : ExecuteConfig}
    {markedSorted candidates : List Nat} {k : Nat} {newConfigSorted : ExecuteConfig}
    (h : (List.range k).mapM (matchRank slots util oldConfig markedSorted candidates) =
      .ok newConfigSorted) {rank : Nat} (hrank : rank < k) :
    ∃ elem, newConfigSorted[rank]? = some elem ∧
      matchRank slots util oldConfig markedSorted candidates rank = .ok elem := by
  obtain ⟨hlen, hget⟩ := List.forall₂_iff_get.mp (mapM_eq_ok_iff.mp h)
  have hlt : rank < newConfigSorted.length := by
    rw [← hlen]
    simpa using hrank
  refine ⟨newConfigSorted[rank], List.getElem?_eq_getElem hlt, ?_⟩
  simpa using hget rank (by simpa using hrank) hlt

theorem exists_slot_of_matchRank {slots : Nat} {util : MembwUtil} {oldConfig : ExecuteConfig}
    {markedSorted candidates : List Nat} {rank m : Nat} {elem : ExecuteConfigElem}
    (hm : markedSorted[rank]? = some m)
    (h : matchRank slots util oldConfig markedSorted candidates rank = .ok elem) :
    ∃ slot, (m, slot) ∈ oldConfig := by
  rw [matchRank, fetch_eq_ok.mpr hm, bind_of_ok rfl] at h
  obtain ⟨_, _, h⟩ := bind_eq_ok.mp h
  rw [matchSlot] at h
  cases hfind : oldConfig.find? (·.1 = m) with
  | none =>
      rw [hfind] at h
      cases h
  | some old =>
      obtain rfl : old.1 = m := by simpa using List.find?_some hfind
      exact ⟨old.2, List.mem_of_find?_eq_some hfind⟩

/-- The matched slots are put where the slots of the marked machines stand in the old
config. -/
theorem scatter_eq_map {markedSorted : List Nat} {newConfigSorted : ExecuteConfig}
    (hlen : markedSorted.length ≤ newConfigSorted.length) :
    ∃ g : ExecuteConfigElem → ExecuteConfigElem,
      (∀ elem, scatterElem markedSorted newConfigSorted elem = .ok (g elem)) ∧
      ∀ config : ExecuteConfig,
        config.mapM (scatterElem markedSorted newConfigSorted) = .ok (config.map g) := by
  choose g hg using scatterElem_ok hlen
  exact ⟨g, hg, fun config => mapM_eq_ok_map fun elem _ => hg elem⟩

section Table

variable {util : MembwUtil} {n slots : Nat} (hu : util.Rectangular n slots)

include hu

theorem Generated.moved {S : StdSort Nat} {oldConfig newConfig newConfigSorted : ExecuteConfig}
    {marked candidates markedSorted : List Nat}
    (h : Generated S slots util oldConfig marked candidates markedSorted newConfigSorted
      newConfig)
    (hinj : Set.InjOn (machineUtil slots util) {m | m ∈ marked}) {m : Nat} (hm : m ∈ marked) :
    ∃ k slot newMach newSlot : Nat, oldConfig[k]? = some (m, slot) ∧
      candidates[loadRank slots util marked m]? = some newMach ∧
      newConfig[k]? = some (newMach, newSlot) := by
  have hrank := findIdx?_markedSorted hu h.sorted hinj hm
  obtain ⟨_, hperm⟩ := sortMachines_ok h.sorted
  obtain ⟨hlt, heq, _⟩ := List.findIdx?_eq_some_iff_getElem.mp hrank
  have hget : markedSorted[loadRank slots util marked m]? = some m := by
    rw [List.getElem?_eq_getElem hlt]
    simpa using heq
  obtain ⟨elem, helem, hmatch⟩ := getElem?_matched h.matched (hperm.length_eq ▸ hlt)
  obtain ⟨slot, hslot⟩ := exists_slot_of_matchRank hget hmatch
  obtain ⟨k, hk⟩ := List.mem_iff_getElem?.mp hslot
  have hlen : markedSorted.length ≤ newConfigSorted.length := by
    rw [hperm.length_eq, length_matched h.matched]
  obtain ⟨g, hg, hmap⟩ := scatter_eq_map hlen
  have hnew : newConfig = oldConfig.map g := Except.ok.inj (h.scattered.symm.trans (hmap _))
  have hmoved : g (m, slot) = elem := by
    have hscatter := hg (m, slot)
    rw [scatterElem, hrank] at hscatter
    exact Option.some_inj.mp ((fetch_eq_ok.mp hscatter).symm.trans helem)
  refine ⟨k, slot, elem.1, elem.2, hk, matchRank_machine hmatch, ?_⟩
  rw [hnew, List.getElem?_map, hk, Option.map_some, hmoved]

/-- A relisted job and relisted marked machines get the same slots, in the new order of
the job, and the marked machine of every rank is exchanged for the candidate of this
rank. -/
theorem generateNewConfig_reorder (S : StdSort Nat) {oldConfig : ExecuteConfig}
    (hmachines : (oldConfig.map Prod.fst).Nodup) {p : List Nat}
    (hp : p.Perm (List.range oldConfig.length)) {marked marked' candidates : List Nat}
    (hmarked : marked'.Perm marked)
    (hinj : Set.InjOn (machineUtil slots util) {m | m ∈ marked})
    (hlen : candidates.length = marked.length) :
    generateNewConfig S slots util (reorder p oldConfig) marked' candidates =
        (generateNewConfig S slots util oldConfig marked candidates).map (reorder p) ∧
      ∀ newConfig, generateNewConfig S slots util oldConfig marked candidates =
          .ok newConfig →
        ∀ m ∈ marked, ∃ k slot newMach newSlot : Nat, oldConfig[k]? = some (m, slot) ∧
          candidates[loadRank slots util marked m]? = some newMach ∧
          newConfig[k]? = some (newMach, newSlot) := by
  constructor
  · have hperm := reorder_perm hp
    rw [generateNewConfig, generateNewConfig]
    rcases eq_or_ne candidates [] with rfl | hne
    · simp [reorder, Except.map]
    rw [if_neg hne, if_neg hne, hmarked.length_eq, sortMachines_perm hu S hmarked hinj,
      ensure_of hlen.ge, bind_of_ok rfl, bind_of_ok rfl]
    cases hsort : sortMachinesByMembwUtil S slots util marked true with
    | error fault => rfl
    | ok markedSorted =>
        rw [bind_of_ok rfl, bind_of_ok rfl, matchRank_perm slots util hperm hmachines]
        cases hmatch : (List.range marked.length).mapM
            (matchRank slots util oldConfig markedSorted candidates) with
        | error fault => rfl
        | ok newConfigSorted =>
            have hlength := length_matched hmatch
            have hle : markedSorted.length ≤ newConfigSorted.length := by
              rw [(sortMachines_ok hsort).2.length_eq, hlength]
            obtain ⟨g, _, hmap⟩ := scatter_eq_map hle
            rw [bind_of_ok rfl, bind_of_ok rfl, ensure_of hlength, bind_of_ok rfl,
              bind_of_ok rfl, hmap, hmap, ← reorder_map]
            rfl
  · intro newConfig hok m hm
    have hne : candidates ≠ [] := by
      rintro rfl
      rw [List.length_nil] at hlen
      rw [List.length_eq_zero_iff.mp hlen.symm] at hm
      exact List.not_mem_nil hm
    obtain ⟨_, _, hgenerated⟩ := generated_of_ok hne hok
    exact hgenerated.moved hu hinj hm

end Table

theorem generateNewConfig_reorder_twoMarked :
    generateNewConfig StdSort.insertion 2
        [[5 / 10, 5 / 10], [45 / 100, 5 / 10], [1 / 10, 1 / 10], [2 / 10, 2 / 10]]
        (reorder [1, 0] [(0, 0), (1, 0)]) [1, 0] [2, 3] =
      (Except.ok [(2, 0), (3, 0)] : Exec ExecuteConfig).map (reorder [1, 0]) := by
  have hu : Grid.Rectangular
      ([[5 / 10, 5 / 10], [45 / 100, 5 / 10], [1 / 10, 1 / 10], [2 / 10, 2 / 10]] :
        MembwUtil) 4 2 :=
    ⟨rfl, by simp⟩
  have hdiffer : ∀ a ∈ [0, 1], ∀ b ∈ [0, 1],
      machineUtil 2 [[5 / 10, 5 / 10], [45 / 100, 5 / 10], [1 / 10, 1 / 10], [2 / 10, 2 / 10]]
          a =
        machineUtil 2
          [[5 / 10, 5 / 10], [45 / 100, 5 / 10], [1 / 10, 1 / 10], [2 / 10, 2 / 10]] b →
      a = b := by
    decide +kernel
  have hlisted : generateNewConfig StdSort.insertion 2
      [[5 / 10, 5 / 10], [45 / 100, 5 / 10], [1 / 10, 1 / 10], [2 / 10, 2 / 10]]
      [(0, 0), (1, 0)] [0, 1] [2, 3] = .ok [(2, 0), (3, 0)] := by
    decide +kernel
  have hinj : Set.InjOn (machineUtil 2
      [[5 / 10, 5 / 10], [45 / 100, 5 / 10], [1 / 10, 1 / 10], [2 / 10, 2 / 10]])
      {m | m ∈ [0, 1]} := fun a ha b hb heq => hdiffer a ha b hb heq
  have hmachines : (([(0, 0), (1, 0)] : ExecuteConfig).map Prod.fst).Nodup := by decide
  have hp : [1, 0].Perm (List.range ([(0, 0), (1, 0)] : ExecuteConfig).length) := by decide
  have hlen : [2, 3].length = [0, 1].length := rfl
  rw [(generateNewConfig_reorder hu StdSort.insertion hmachines hp (List.Perm.swap 0 1 [])
    hinj hlen).1, hlisted]

end Poncos.MultiApp
