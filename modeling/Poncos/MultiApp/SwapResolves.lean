import Poncos.Library.SwapSequence
import Poncos.MultiApp.NewConfig

/-!
When the swap chosen by the scheduler resolves the overload.  The admission test
bounds a sum over all matched machines, but a swap leaves the larger shares of
two matched machines together, so the exact condition is on those.
-/

namespace Poncos.MultiApp

open Poncos.Library
open Poncos.Library.Execution

theorem cellUtil_swap {util util' : MembwUtil} {p q : Cell}
    (h : util.swap p q = .ok util') (x : Cell) :
    cellUtil util' x = cellUtil util (Equiv.swap p q x) := by
  rw [cellUtil, Grid.get?_swap h, cellUtil]

theorem nodeUtil_swap_of_ne {util util' : MembwUtil} {p q : Cell}
    (h : util.swap p q = .ok util') {m : Nat} (hp : m ≠ p.1) (hq : m ≠ q.1) :
    nodeUtil util' m = nodeUtil util m := by
  have hne : ∀ s, Equiv.swap p q (m, s) = (m, s) := fun s =>
    Equiv.swap_apply_of_ne_of_ne (fun heq => hp (congrArg Prod.fst heq))
      (fun heq => hq (congrArg Prod.fst heq))
  simp only [nodeUtil, cellUtil_swap h, hne]

theorem nodeUtil_swap_self {util util' : MembwUtil} {p : Cell}
    (h : util.swap p p = .ok util') (m : Nat) : nodeUtil util' m = nodeUtil util m := by
  simp only [nodeUtil, cellUtil_swap h, Equiv.swap_self, Equiv.refl_apply]

theorem nodeUtil_swap_left {util util' : MembwUtil} {p q : Cell}
    (h : util.swap p q = .ok util') (hp : p.2 < 2) (hne : p.1 ≠ q.1) :
    nodeUtil util' p.1 = cellUtil util (p.1, otherSlot p.2) + cellUtil util q := by
  have hother : Equiv.swap p q (p.1, otherSlot p.2) = (p.1, otherSlot p.2) :=
    Equiv.swap_apply_of_ne_of_ne
      (fun heq => otherSlot_ne p.2 (congrArg Prod.snd heq))
      (fun heq => hne (by rw [← heq]))
  rw [← cellUtil_add_otherSlot util' p.1 hp, cellUtil_swap h, cellUtil_swap h, hother,
    Equiv.swap_apply_left, add_comm]

theorem nodeUtil_swap_right {util util' : MembwUtil} {p q : Cell}
    (h : util.swap p q = .ok util') (hq : q.2 < 2) (hne : p.1 ≠ q.1) :
    nodeUtil util' q.1 = cellUtil util (q.1, otherSlot q.2) + cellUtil util p := by
  have hother : Equiv.swap p q (q.1, otherSlot q.2) = (q.1, otherSlot q.2) :=
    Equiv.swap_apply_of_ne_of_ne
      (fun heq => hne (by rw [← heq]))
      (fun heq => otherSlot_ne q.2 (congrArg Prod.snd heq))
  rw [← cellUtil_add_otherSlot util' q.1 hq, cellUtil_swap h, cellUtil_swap h, hother,
    Equiv.swap_apply_right, add_comm]

/-- A pair of old and new slot: either the slot stays, or it moves to another
machine. -/
structure ValidPair (n : Nat) (p : Cell × Cell) : Prop where
  old_range : p.1.1 < n ∧ p.1.2 < 2
  new_range : p.2.1 < n ∧ p.2.2 < 2
  stays_or_moves : p.1 = p.2 ∨ p.1.1 ≠ p.2.1

/-- Exchanging the two slots leaves both machines below the threshold. -/
def PairGood (util : MembwUtil) (p : Cell × Cell) : Prop :=
  if p.1 = p.2 then nodeUtil util p.1.1 < perMachineTh
  else cellUtil util (p.1.1, otherSlot p.1.2) + cellUtil util p.2 < perMachineTh ∧
    cellUtil util (p.2.1, otherSlot p.2.2) + cellUtil util p.1 < perMachineTh

/-- Two moves touch different machines; a slot that stays may lie on a machine
another one moves to. -/
def Separate (p q : Cell × Cell) : Prop :=
  p.1.1 ≠ q.1.1 ∧ (p.1.1 ≠ p.2.1 → q.1.1 ≠ q.2.1 →
    p.2.1 ≠ q.2.1 ∧ p.1.1 ≠ q.2.1 ∧ p.2.1 ≠ q.1.1)

section Loop

variable {util util' : MembwUtil} {n : Nat} {p q : Cell × Cell}

/-- The assertions after one exchange are `PairGood` before it. -/
theorem pairGood_iff (hp : ValidPair n p) (h : util.swap p.1 p.2 = .ok util') :
    PairGood util p ↔
      nodeUtil util' p.1.1 < perMachineTh ∧ nodeUtil util' p.2.1 < perMachineTh := by
  rcases p with ⟨old, new⟩
  simp only [PairGood] at *
  by_cases hstay : old = new
  · subst hstay
    simp [nodeUtil_swap_self h]
  · have hne : old.1 ≠ new.1 := hp.stays_or_moves.resolve_left hstay
    rw [if_neg hstay, nodeUtil_swap_left h hp.old_range.2 hne,
      nodeUtil_swap_right h hp.new_range.2 hne]

theorem nodeUtil_lt_of_pairGood (hp : ValidPair n p) (hgood : PairGood util p)
    (h : util.swap p.1 p.2 = .ok util') {m : Nat}
    (hm : nodeUtil util m < perMachineTh) : nodeUtil util' m < perMachineTh := by
  have hafter := (pairGood_iff hp h).mp hgood
  by_cases hold : m = p.1.1
  · exact hold ▸ hafter.1
  · by_cases hnew : m = p.2.1
    · exact hnew ▸ hafter.2
    · rw [nodeUtil_swap_of_ne h hold hnew]
      exact hm

theorem pairGood_of_separate (hp : ValidPair n p) (hq : ValidPair n q)
    (hsep : Separate p q) (hgood : PairGood util p)
    (h : util.swap p.1 p.2 = .ok util') (hqgood : PairGood util q) :
    PairGood util' q := by
  by_cases hqstay : q.1 = q.2
  · simp only [PairGood, if_pos hqstay] at hqgood ⊢
    exact nodeUtil_lt_of_pairGood hp hgood h hqgood
  · have hqmove := hq.stays_or_moves.resolve_left hqstay
    simp only [PairGood, if_neg hqstay] at hqgood ⊢
    have hsame : ∀ x : Cell, x.1 = q.1.1 ∨ x.1 = q.2.1 →
        cellUtil util' x = cellUtil util x := by
      intro x hx
      rw [cellUtil_swap h]
      by_cases hpstay : p.1 = p.2
      · rw [hpstay, Equiv.swap_self, Equiv.refl_apply]
      · have hpmove := hp.stays_or_moves.resolve_left hpstay
        obtain ⟨hnew, holdnew, hnewold⟩ := hsep.2 hpmove hqmove
        rw [Equiv.swap_apply_of_ne_of_ne]
        · rintro rfl
          rcases hx with hx | hx
          · exact hsep.1 hx
          · exact holdnew hx
        · rintro rfl
          rcases hx with hx | hx
          · exact hnewold hx
          · exact hnew hx
    rw [hsame (q.1.1, otherSlot q.1.2) (.inl rfl), hsame q.2 (.inr rfl),
      hsame (q.2.1, otherSlot q.2.2) (.inr rfl), hsame q.1 (.inl rfl)]
    exact hqgood

/-- The loop passes its assertions when every pair is good and the moves touch
different machines; it leaves every machine it visits below the threshold. -/
theorem updateMembwLoop_ok {pairs : List (Cell × Cell)} (hu : util.Rectangular n 2)
    (hvalid : ∀ p ∈ pairs, ValidPair n p) (hsep : pairs.Pairwise Separate)
    (hgood : ∀ p ∈ pairs, PairGood util p) :
    ∃ util', updateMembwLoop 2 pairs util = .ok util' ∧ util'.Rectangular n 2 ∧
      (∀ m, nodeUtil util m < perMachineTh → nodeUtil util' m < perMachineTh) ∧
      ∀ p ∈ pairs, nodeUtil util' p.1.1 < perMachineTh ∧
        nodeUtil util' p.2.1 < perMachineTh := by
  induction pairs generalizing util with
  | nil => exact ⟨util, rfl, hu, fun _ h => h, by simp⟩
  | cons p rest ih =>
      have hp := hvalid p List.mem_cons_self
      have hpgood := hgood p List.mem_cons_self
      obtain ⟨hseprest, hsep⟩ := List.pairwise_cons.mp hsep
      obtain ⟨util₁, hswap⟩ := Grid.swap_ok_of_isSome (g := util)
        ((hu.isSome_iff p.1).mpr hp.old_range) ((hu.isSome_iff p.2).mpr hp.new_range)
      have hu₁ := hu.swap hswap
      have hafter := (pairGood_iff hp hswap).mp hpgood
      obtain ⟨util', hloop, hu', hkeep, hbelow⟩ := ih hu₁
        (fun q hq => hvalid q (List.mem_cons_of_mem p hq)) hsep
        (fun q hq => pairGood_of_separate hp (hvalid q (List.mem_cons_of_mem p hq))
          (hseprest q hq) hpgood hswap (hgood q (List.mem_cons_of_mem p hq)))
      refine ⟨util', ?_, hu', ?_, ?_⟩
      · rw [updateMembwLoop, hswap, bind_of_ok rfl,
          membwUtilOfNode_two hu₁ hp.old_range.1, bind_of_ok rfl, ensure_of hafter.1,
          bind_of_ok rfl, membwUtilOfNode_two hu₁ hp.new_range.1, bind_of_ok rfl,
          ensure_of hafter.2, bind_of_ok rfl, hloop]
      · intro m hm
        exact hkeep m (nodeUtil_lt_of_pairGood hp hpgood hswap hm)
      · intro q hq
        rcases List.mem_cons.mp hq with rfl | hq
        · exact ⟨hkeep _ hafter.1, hkeep _ hafter.2⟩
        · exact hbelow q hq

/-- A machine with a slot that stays, and that no slot moves from or to, has to
be below the threshold for the loop to pass. -/
theorem nodeUtil_lt_of_updateMembwLoop {pairs : List (Cell × Cell)}
    (hu : util.Rectangular n 2) (hvalid : ∀ p ∈ pairs, ValidPair n p) {u : Cell}
    (hu_mem : (u, u) ∈ pairs)
    (hapart : ∀ p ∈ pairs, p.1 = p.2 ∨ u.1 ≠ p.1.1 ∧ u.1 ≠ p.2.1)
    (hloop : updateMembwLoop 2 pairs util = .ok util') :
    nodeUtil util u.1 < perMachineTh := by
  induction pairs generalizing util with
  | nil => simp at hu_mem
  | cons p rest ih =>
      have hp := hvalid p List.mem_cons_self
      simp only [updateMembwLoop, bind_eq_ok, ensure_eq_ok] at hloop
      obtain ⟨util₁, hswap, total, htotal, _, hlt, _, _, _, _, hrest⟩ := hloop
      have hu₁ := hu.swap hswap
      have hsame : nodeUtil util₁ u.1 = nodeUtil util u.1 := by
        rcases hapart p List.mem_cons_self with hstay | ⟨hold, hnew⟩
        · rw [hstay] at hswap
          exact nodeUtil_swap_self hswap u.1
        · exact nodeUtil_swap_of_ne hswap hold hnew
      rw [← hsame]
      rcases List.mem_cons.mp hu_mem with rfl | hmem
      · rw [membwUtilOfNode_two hu₁ hp.old_range.1] at htotal
        rw [Except.ok.inj htotal]
        exact hlt
      · exact ih hu₁ (fun q hq => hvalid q (List.mem_cons_of_mem p hq)) hmem
          (fun q hq => hapart q (List.mem_cons_of_mem p hq)) hrest

end Loop

/-- The scheduler's swap runs through and leaves every machine of the old and
the new config at most at the threshold. -/
def SwapResolves (S : StdSort Nat) (util : MembwUtil) (oldConfig : ExecuteConfig)
    (marked candidates : List Nat) : Prop :=
  ∃ newConfig util', generateNewConfig S 2 util oldConfig marked candidates = .ok newConfig ∧
    updateMembwUtil 2 util oldConfig newConfig = .ok util' ∧
    ∀ p ∈ oldConfig ++ newConfig, ∃ total,
      membwUtilOfNode 2 util' p.1 = .ok total ∧ total ≤ perMachineTh

namespace SwapInput

variable {S : StdSort Nat} {util : MembwUtil} {n : Nat} {oldConfig : ExecuteConfig}
  {marked markedSorted candidates : List Nat}
  (h : SwapInput S util n oldConfig marked markedSorted candidates)

include h

theorem elem_cases (p : ExecuteConfigElem) :
    (p.1 ∉ markedSorted ∧ reassign util markedSorted candidates p = p) ∨
      ∃ (rank : Nat) (newMach : Nat), markedSorted[rank]? = some p.1 ∧
        candidates[rank]? = some newMach ∧ newMach < n ∧
        perMachineTh < nodeUtil util p.1 ∧
        reassign util markedSorted candidates p =
          (newMach, chosenSlot util (cellUtil util p)
            (cellUtil util (p.1, otherSlot p.2)) newMach) := by
  by_cases hmem : p.1 ∈ markedSorted
  · obtain ⟨rank, hrank⟩ := List.mem_iff_getElem?.mp hmem
    obtain ⟨newMach, hnew, hlt⟩ := h.exists_candidate hrank
    exact .inr ⟨rank, newMach, hrank, hnew, hlt, (h.mem_markedSorted.mp hmem).1,
      reassign_of_rank h.markedSorted_nodup hrank hnew⟩
  · exact .inl ⟨hmem, reassign_of_not_mem hmem⟩

theorem nodeUtil_candidate_lt (hfit : PairsFit util markedSorted candidates)
    {rank newMach : Nat} (hnew : candidates[rank]? = some newMach) :
    nodeUtil util newMach < perMachineTh := by
  have hlt := (List.getElem?_eq_some_iff.mp hnew).1
  rw [← h.markedSorted_length] at hlt
  have hold := List.getElem?_eq_getElem hlt
  obtain ⟨_, _, hover⟩ := h.exists_elem hold
  have hpair := hfit rank _ _ hold hnew
  have := nodeUtil_le_heavierUtil util markedSorted[rank]
  have := nodeUtil_le_heavierUtil util newMach
  linarith

theorem candidate_not_marked (hfit : PairsFit util markedSorted candidates)
    {rank newMach : Nat} (hnew : candidates[rank]? = some newMach) :
    newMach ∉ markedSorted := by
  intro hmem
  have hover := (h.mem_markedSorted.mp hmem).1
  have hbelow := h.nodeUtil_candidate_lt hfit hnew
  linarith

theorem validPair (hfit : PairsFit util markedSorted candidates)
    {p : ExecuteConfigElem} (hp : p ∈ oldConfig) :
    ValidPair n (p, reassign util markedSorted candidates p) := by
  rcases h.elem_cases p with ⟨_, hstay⟩ | ⟨rank, newMach, hold, hnew, hlt, _, hmove⟩
  · exact ⟨h.range p hp, by simpa [hstay] using h.range p hp, .inl hstay.symm⟩
  · refine ⟨h.range p hp, ?_, .inr ?_⟩
    · simp only [hmove]
      exact ⟨hlt, chosenSlot_lt _ _ _ _⟩
    · simp only [hmove]
      intro heq
      exact h.candidate_not_marked hfit hnew (heq ▸ List.mem_of_getElem? hold)

theorem separate (hfit : PairsFit util markedSorted candidates)
    {p q : ExecuteConfigElem} (hne : p.1 ≠ q.1) :
    Separate (p, reassign util markedSorted candidates p)
      (q, reassign util markedSorted candidates q) := by
  refine ⟨hne, fun hpmove hqmove => ?_⟩
  rcases h.elem_cases p with ⟨_, hstay⟩ | ⟨i, m, hpi, hm, _, _, hpeq⟩
  · simp [hstay] at hpmove
  rcases h.elem_cases q with ⟨_, hstay⟩ | ⟨k, m', hqk, hm', _, _, hqeq⟩
  · simp [hstay] at hqmove
  simp only [hpeq, hqeq]
  refine ⟨?_, ?_, ?_⟩
  · rintro rfl
    have hlt := (List.getElem?_eq_some_iff.mp hm).1
    obtain rfl : i = k := (List.getElem?_inj hlt h.candidates_nodup).mp (hm.trans hm'.symm)
    rw [hpi, Option.some_inj] at hqk
    exact hne hqk
  · rintro rfl
    exact h.candidate_not_marked hfit hm' (List.mem_of_getElem? hpi)
  · rintro rfl
    exact h.candidate_not_marked hfit hm (List.mem_of_getElem? hqk)

theorem pairGood (hfit : PairsFit util markedSorted candidates)
    (hboundary : ∀ p ∈ oldConfig, nodeUtil util p.1 ≠ perMachineTh)
    {p : ExecuteConfigElem} (hp : p ∈ oldConfig) :
    PairGood util (p, reassign util markedSorted candidates p) := by
  rcases h.elem_cases p with ⟨hnot, hstay⟩ | ⟨rank, newMach, hold, hnew, _, _, hmove⟩
  · have hle : nodeUtil util p.1 ≤ perMachineTh := by
      by_contra hlt
      exact hnot (h.mem_markedSorted.mpr ⟨not_le.mp hlt, p.2, hp⟩)
    simp only [PairGood, hstay, if_true]
    exact lt_of_le_of_ne hle (hboundary p hp)
  · have hpair := (exchange_fits_iff util p.1 newMach (h.range p hp).2).mpr
      (hfit rank _ _ hold hnew)
    have hne : p ≠ reassign util markedSorted candidates p := by
      rw [hmove]
      intro heq
      have hmach : p.1 = newMach := congrArg Prod.fst heq
      exact h.candidate_not_marked hfit hnew (hmach ▸ List.mem_of_getElem? hold)
    simp only [PairGood, if_neg hne]
    rw [hmove]
    exact hpair

end SwapInput

theorem zip_map_self {α β : Type} (f : α → β) (as : List α) :
    as.zip (as.map f) = as.map fun a => (a, f a) := by
  induction as with
  | nil => rfl
  | cons a as ih => simp [ih]

namespace SwapInput

variable {S : StdSort Nat} {util : MembwUtil} {n : Nat} {oldConfig : ExecuteConfig}
  {marked markedSorted candidates : List Nat}
  (h : SwapInput S util n oldConfig marked markedSorted candidates)

include h

theorem validPair_of_mem (hfit : PairsFit util markedSorted candidates)
    {q : Cell × Cell}
    (hq : q ∈ oldConfig.map fun p => (p, reassign util markedSorted candidates p)) :
    ValidPair n q := by
  obtain ⟨p, hp, rfl⟩ := List.mem_map.mp hq
  exact h.validPair hfit hp

/-- A machine of the job at the threshold is neither marked nor a fitting
candidate, so the assertion on it fails. -/
theorem nodeUtil_ne_of_update (hfit : PairsFit util markedSorted candidates)
    {util' : MembwUtil}
    (hupdate : updateMembwUtil 2 util oldConfig
      (oldConfig.map (reassign util markedSorted candidates)) = .ok util')
    {p : ExecuteConfigElem} (hp : p ∈ oldConfig) :
    nodeUtil util p.1 ≠ perMachineTh := by
  intro hboundary
  simp only [updateMembwUtil, bind_eq_ok, zip_map_self] at hupdate
  obtain ⟨_, _, hloop⟩ := hupdate
  have hnot : p.1 ∉ markedSorted := by
    intro hmem
    have := (h.mem_markedSorted.mp hmem).1
    linarith
  have hstays : (p, p) ∈
      oldConfig.map fun p => (p, reassign util markedSorted candidates p) :=
    List.mem_map.mpr ⟨p, hp, by rw [reassign_of_not_mem hnot]⟩
  have hapart : ∀ q ∈ oldConfig.map fun p => (p, reassign util markedSorted candidates p),
      q.1 = q.2 ∨ p.1 ≠ q.1.1 ∧ p.1 ≠ q.2.1 := by
    intro q hq
    obtain ⟨r, _, rfl⟩ := List.mem_map.mp hq
    rcases h.elem_cases r with ⟨_, hstay⟩ | ⟨rank, newMach, hold, hnew, _, _, hmove⟩
    · exact .inl hstay.symm
    · refine .inr ⟨?_, ?_⟩
      · intro heq
        exact hnot (heq ▸ List.mem_of_getElem? hold)
      · simp only [hmove]
        rintro rfl
        have := h.nodeUtil_candidate_lt hfit hnew
        linarith
  have hlt := nodeUtil_lt_of_updateMembwLoop h.table
    (fun q hq => h.validPair_of_mem hfit hq) hstays hapart hloop
  linarith

theorem update_ok (hfit : PairsFit util markedSorted candidates)
    (hboundary : ∀ p ∈ oldConfig, nodeUtil util p.1 ≠ perMachineTh) :
    ∃ util', updateMembwUtil 2 util oldConfig
        (oldConfig.map (reassign util markedSorted candidates)) = .ok util' ∧
      util'.Rectangular n 2 ∧ ∀ p ∈ oldConfig, nodeUtil util' p.1 < perMachineTh ∧
        nodeUtil util' (reassign util markedSorted candidates p).1 < perMachineTh := by
  have hsep : (oldConfig.map fun p =>
      (p, reassign util markedSorted candidates p)).Pairwise Separate := by
    rw [List.pairwise_map]
    exact (List.pairwise_map.mp h.machines).imp fun hne => h.separate hfit hne
  have hgood : ∀ q ∈ oldConfig.map fun p => (p, reassign util markedSorted candidates p),
      PairGood util q := by
    intro q hq
    obtain ⟨p, hp, rfl⟩ := List.mem_map.mp hq
    exact h.pairGood hfit hboundary hp
  obtain ⟨util', hloop, hu', _, hbelow⟩ := updateMembwLoop_ok h.table
    (fun q hq => h.validPair_of_mem hfit hq) hsep hgood
  refine ⟨util', ?_, hu', ?_⟩
  · rw [updateMembwUtil, ensure_of (by simp), bind_of_ok rfl, zip_map_self, hloop]
  · intro p hp
    have hmem := List.mem_map_of_mem
      (f := fun p => (p, reassign util markedSorted candidates p)) hp
    exact hbelow (p, reassign util markedSorted candidates p) hmem

end SwapInput

/-- The swap resolves the overload exactly when, for every rank, the larger slot
utilisation of the marked machine and the larger one of the candidate are
together below the threshold, and no machine of the job sits exactly at it. -/
theorem swapResolves_iff {S : StdSort Nat} {util : MembwUtil} {n : Nat}
    {oldConfig : ExecuteConfig} {marked markedSorted candidates : List Nat}
    (h : SwapInput S util n oldConfig marked markedSorted candidates) :
    SwapResolves S util oldConfig marked candidates ↔
      PairsFit util markedSorted candidates ∧
        ∀ p ∈ oldConfig, nodeUtil util p.1 ≠ perMachineTh := by
  constructor
  · rintro ⟨newConfig, util', hgenerate, hupdate, _⟩
    obtain ⟨hfit, rfl⟩ := h.generateNewConfig_iff.mp hgenerate
    exact ⟨hfit, fun p hp => h.nodeUtil_ne_of_update hfit hupdate hp⟩
  · rintro ⟨hfit, hboundary⟩
    have hgenerate := h.generateNewConfig_iff.mpr ⟨hfit, rfl⟩
    obtain ⟨util', hupdate, hu', hbelow⟩ := h.update_ok hfit hboundary
    refine ⟨_, util', hgenerate, hupdate, ?_⟩
    intro p hp
    rcases List.mem_append.mp hp with hp | hp
    · exact ⟨_, membwUtilOfNode_two hu' (h.range p hp).1, (hbelow p hp).1.le⟩
    · obtain ⟨q, hq, rfl⟩ := List.mem_map.mp hp
      exact ⟨_, membwUtilOfNode_two hu' (h.validPair hfit hq).new_range.1,
        (hbelow q hq).2.le⟩

/-- A job on the first slots of two machines, the first of them overloaded; the third
machine takes its slot without strain. -/
theorem swapResolves_lightMachine :
    SwapResolves StdSort.insertion [[3 / 5, 2 / 5], [1 / 10, 1 / 10], [1 / 10, 1 / 20]]
      [(0, 0), (1, 0)] [0] [2] := by
  have hinput : SwapInput StdSort.insertion
      [[3 / 5, 2 / 5], [1 / 10, 1 / 10], [1 / 10, 1 / 20]] 3
      [(0, 0), (1, 0)] [0] [0] [2] :=
    ⟨⟨rfl, by simp⟩, by simp, by simp, by decide +kernel, by decide +kernel,
      by decide +kernel, by simp⟩
  refine (swapResolves_iff hinput).mpr ⟨?_, by decide +kernel⟩
  intro rank oldMach newMach hold hnew
  cases rank with
  | zero =>
      cases hold
      cases hnew
      decide +kernel
  | succ rank => simp at hold

/-- The aggregate bound admits the only candidate, but the larger shares of the
two machines do not fit together: the assertion on the pair fails. -/
theorem not_swapResolves_heavyPair :
    (∀ row ∈ ([[4 / 5, 1 / 5], [1 / 10, 1 / 2]] : MembwUtil), ∀ x ∈ row, 0 ≤ x) ∧
      SwapInput StdSort.insertion [[4 / 5, 1 / 5], [1 / 10, 1 / 2]] 2
        [(0, 0)] [0] [0] [1] ∧
      ¬ SwapResolves StdSort.insertion [[4 / 5, 1 / 5], [1 / 10, 1 / 2]]
        [(0, 0)] [0] [1] := by
  refine ⟨by decide +kernel, ⟨⟨rfl, by simp⟩, by simp, by simp, by decide +kernel,
    by decide +kernel, by decide +kernel, by simp⟩, ?_⟩
  rintro ⟨newConfig, util', hgenerate, _⟩
  have hfails : generateNewConfig StdSort.insertion 2
      [[4 / 5, 1 / 5], [1 / 10, 1 / 2]] [(0, 0)] [0] [1] = .error .assertion := by
    decide +kernel
  cases hfails.symm.trans hgenerate

end Poncos.MultiApp
