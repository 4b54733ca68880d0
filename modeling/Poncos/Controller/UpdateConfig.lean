import Poncos.Controller.State
import Poncos.Library.SwapSequence

/-!
`controllerT::update_config`.  The loop rewrites the occupancy table and the
configs in place, and the opposing job may be the job that is being moved.  One
pass of the loop relabels both tables by the same transposition of slots; this
is all that later modules use.
-/

namespace Poncos.Controller

open Poncos.Library
open Poncos.Library.Execution

/-- The two tables the loop of `update_config` rewrites.  Row `j` of `configs` is
the config of job `j`. -/
structure Placement where
  usage : MachineUsage
  configs : Grid ExecuteConfigElem
  deriving DecidableEq, Repr

/-- One pass of the loop, for position `i` of job `id` and its new slot `nc`. -/
def updateStep (id i : Nat) (nc : ExecuteConfigElem) (t : Placement) :
    Exec Placement := do
  let oc ← t.configs.read (id, i)
  let opJobId ← t.usage.read nc
  let usage ← t.usage.swap oc nc
  match opJobId with
  | none => .ok ⟨usage, t.configs.put (id, i) nc⟩
  | some opJobId =>
      let opConfig ← fetch t.configs opJobId
      match opConfig.findIdx? (· = nc) with
      | none => .error .assertion
      | some k =>
          -- `opc` and `oc` are references into one table, and may be the same entry
          let configs ← t.configs.swap (opJobId, k) (id, i)
          .ok ⟨usage, configs⟩

def updateLoop (id : Nat) : Nat → ExecuteConfig → Placement → Exec Placement
  | _, [], t => .ok t
  | i, nc :: rest, t => do
      let t ← updateStep id i nc t
      updateLoop id (i + 1) rest t

def updateConfig (id : Nat) (newConfig : ExecuteConfig) (c : Controller) :
    Exec Controller := do
  let oldConfig ← fetch c.idToConfig id
  ensure (newConfig.length = oldConfig.length)
  let t ← updateLoop id 0 newConfig ⟨c.machineUsage, c.idToConfig⟩
  let oldConfig ← fetch t.configs id
  ensure (oldConfig = newConfig)
  .ok { c with machineUsage := t.usage, idToConfig := t.configs }

/-- The occupancy table shows exactly the slots of the configs of the jobs in
`R`, and no such slot is listed twice. -/
structure Placed (R : Nat → Prop) (t : Placement) : Prop where
  owner_iff : ∀ p j, t.usage.get? p = some (some j) ↔
    R j ∧ ∃ i, t.configs.get? (j, i) = some p
  inj : ∀ j i k p, R j → t.configs.get? (j, i) = some p →
    t.configs.get? (j, k) = some p → i = k

namespace Placed

variable {R : Nat → Prop} {t t' : Placement}

theorem owner_of_config (ht : Placed R t) {j i : Nat} {p : Cell} (hj : R j)
    (hp : t.configs.get? (j, i) = some p) : t.usage.get? p = some (some j) :=
  (ht.owner_iff p j).mpr ⟨hj, i, hp⟩

theorem cell_unique (ht : Placed R t) {j j' i i' : Nat} {p : Cell} (hj : R j)
    (hj' : R j') (hp : t.configs.get? (j, i) = some p)
    (hp' : t.configs.get? (j', i') = some p) : j = j' ∧ i = i' := by
  have howner := ht.owner_of_config hj hp
  have howner' := ht.owner_of_config hj' hp'
  rw [howner] at howner'
  obtain rfl : j = j' := by simpa using howner'
  exact ⟨rfl, ht.inj j i i' p hj hp hp'⟩

/-- Relabelling the slots of both tables by one permutation keeps them in step. -/
theorem relabel (ht : Placed R t) (σ : Equiv.Perm Cell)
    (husage : ∀ p, t'.usage.get? (σ p) = t.usage.get? p)
    (hconfigs : ∀ j i, R j →
      t'.configs.get? (j, i) = (t.configs.get? (j, i)).map σ) : Placed R t' := by
  constructor
  · intro p j
    have hp := husage (σ.symm p)
    rw [Equiv.apply_symm_apply] at hp
    rw [hp, ht.owner_iff]
    refine and_congr_right fun hj => exists_congr fun i => ?_
    rw [hconfigs j i hj, Option.map_eq_some_iff]
    constructor
    · intro h
      exact ⟨_, h, σ.apply_symm_apply p⟩
    · rintro ⟨q, hq, rfl⟩
      simpa using hq
  · intro j i k p hj hi hk
    rw [hconfigs j i hj, Option.map_eq_some_iff] at hi
    rw [hconfigs j k hj, Option.map_eq_some_iff] at hk
    obtain ⟨q, hq, rfl⟩ := hi
    obtain ⟨q', hq', heq⟩ := hk
    obtain rfl := σ.injective heq
    exact ht.inj j i k _ hj hq hq'

end Placed

/-- What one pass does to the tables: slot `nc` and the slot `oc` of the moved
position change places, in the occupancy and in the config of every job in `R`,
and position `i` of job `id` ends up at `nc`. -/
structure StepEffect (R : Nat → Prop) (id i : Nat) (oc nc : Cell)
    (t t' : Placement) : Prop where
  usage : ∀ p, t'.usage.get? p = t.usage.get? (Equiv.swap oc nc p)
  configs : ∀ j k, R j →
    t'.configs.get? (j, k) = (t.configs.get? (j, k)).map (Equiv.swap oc nc)
  others : ∀ j, ¬ R j → j ≠ id → t'.configs[j]? = t.configs[j]?
  stale : ¬ R id → ∀ m, m ≠ i → t'.configs.get? (id, m) = t.configs.get? (id, m)
  moved : t'.configs.get? (id, i) = some nc
  isSome_eq : ∀ q, (t'.configs.get? q).isSome = (t.configs.get? q).isSome
  length_eq : t'.configs.length = t.configs.length
  inRange : (t.usage.get? nc).isSome

/-- The job that is moved is in `R`, or its positions from `i` on name distinct
free slots, as the stale config of a completed job does. -/
def Movable (R : Nat → Prop) (id i : Nat) (t : Placement) : Prop :=
  R id ∨ ∀ m p, i ≤ m → t.configs.get? (id, m) = some p →
    t.usage.get? p = some none ∧
      ∀ m', i ≤ m' → t.configs.get? (id, m') = some p → m' = m

section Step

variable {R : Nat → Prop} {t t' : Placement} {id i : Nat} {oc nc : Cell}

theorem config_ne_oc (ht : Placed R t) (hmov : Movable R id i t)
    (hoc : t.configs.get? (id, i) = some oc) {j k : Nat} (hj : R j)
    (hne : (j, k) ≠ (id, i)) : t.configs.get? (j, k) ≠ some oc := by
  intro hjk
  rcases hmov with hid | hidle
  · obtain ⟨rfl, rfl⟩ := ht.cell_unique hj hid hjk hoc
    exact hne rfl
  · have hfree := (hidle i oc le_rfl hoc).1
    rw [ht.owner_of_config hj hjk] at hfree
    simp at hfree

theorem updateStep_effect_free (ht : Placed R t) (hmov : Movable R id i t)
    (hoc : t.configs.get? (id, i) = some oc) (hnc : t.usage.get? nc = some none)
    {usage : MachineUsage} (hswap : t.usage.swap oc nc = .ok usage) :
    StepEffect R id i oc nc t ⟨usage, t.configs.put (id, i) nc⟩ := by
  have hsome : (t.configs.get? (id, i)).isSome := by simp [hoc]
  have hnever : ∀ j k, R j → t.configs.get? (j, k) ≠ some nc := by
    intro j k hj hjk
    rw [ht.owner_of_config hj hjk] at hnc
    simp at hnc
  refine ⟨Grid.get?_swap hswap, ?_, ?_, ?_, Grid.get?_put_self nc hsome,
    fun q => Grid.isSome_get?_put _ _ q _, Grid.length_put _ _ _, by simp [hnc]⟩
  · intro j k hj
    by_cases hcell : (j, k) = (id, i)
    · rw [hcell, Grid.get?_put_self nc hsome, hoc]
      simp
    · rw [Grid.get?_put_of_ne nc (Ne.symm hcell)]
      cases hjk : t.configs.get? (j, k) with
      | none => rfl
      | some p =>
          have hpoc : p ≠ oc := fun h =>
            config_ne_oc ht hmov hoc hj hcell (h ▸ hjk)
          have hpnc : p ≠ nc := fun h => hnever j k hj (h ▸ hjk)
          simp [Equiv.swap_apply_of_ne_of_ne hpoc hpnc]
  · intro j _ hjid
    exact Grid.getElem?_put_of_ne nc (fun h => hjid h.symm)
  · intro _ m hm
    exact Grid.get?_put_of_ne nc (by simpa using hm.symm)

theorem updateStep_effect_taken (ht : Placed R t) (hmov : Movable R id i t)
    (hoc : t.configs.get? (id, i) = some oc) {op k : Nat}
    (hnc : t.usage.get? nc = some (some op))
    (hk : t.configs.get? (op, k) = some nc)
    {usage : MachineUsage} (hswap : t.usage.swap oc nc = .ok usage)
    {configs : Grid ExecuteConfigElem}
    (hconfigs : t.configs.swap (op, k) (id, i) = .ok configs) :
    StepEffect R id i oc nc t ⟨usage, configs⟩ := by
  have hop : R op := ((ht.owner_iff nc op).mp hnc).1
  refine ⟨Grid.get?_swap hswap, ?_, ?_, ?_, ?_, Grid.isSome_get?_swap hconfigs,
    Grid.length_swap hconfigs, by simp [hnc]⟩
  · intro j m hj
    rw [Grid.get?_swap hconfigs]
    by_cases hcell : (j, m) = (id, i)
    · rw [hcell, Equiv.swap_apply_right, hk, hoc]
      simp
    · by_cases hcell' : (j, m) = (op, k)
      · rw [hcell', Equiv.swap_apply_left, hk, hoc]
        simp
      · rw [Equiv.swap_apply_of_ne_of_ne hcell' hcell]
        cases hjm : t.configs.get? (j, m) with
        | none => rfl
        | some p =>
            have hpoc : p ≠ oc := fun h =>
              config_ne_oc ht hmov hoc hj hcell (h ▸ hjm)
            have hpnc : p ≠ nc := by
              rintro rfl
              obtain ⟨rfl, rfl⟩ := ht.cell_unique hj hop hjm hk
              exact hcell' rfl
            simp [Equiv.swap_apply_of_ne_of_ne hpoc hpnc]
  · intro j hj hjid
    have hjop : op ≠ j := fun h => hj (h ▸ hop)
    exact Grid.getElem?_swap_of_ne hconfigs hjop (fun h => hjid h.symm)
  · intro hid m hm
    have hopid : op ≠ id := fun h => hid (h ▸ hop)
    rw [Grid.get?_swap hconfigs]
    congr 1
    exact Equiv.swap_apply_of_ne_of_ne (by simp [hopid.symm]) (by simpa using hm)
  · rw [Grid.get?_swap hconfigs, Equiv.swap_apply_right, hk]

/-- Every pass that returns has the effect of one transposition. -/
theorem updateStep_effect (ht : Placed R t) (hmov : Movable R id i t)
    (hoc : t.configs.get? (id, i) = some oc)
    (hstep : updateStep id i nc t = .ok t') : StepEffect R id i oc nc t t' := by
  simp only [updateStep, bind_eq_ok, Grid.read_eq_ok] at hstep
  obtain ⟨oc', hoc', op, hop, usage, hswap, hstep⟩ := hstep
  obtain rfl : oc = oc' := by simpa [hoc] using hoc'
  cases op with
  | none =>
      cases hstep
      exact updateStep_effect_free ht hmov hoc hop hswap
  | some op =>
      simp only [bind_eq_ok, fetch_eq_ok] at hstep
      obtain ⟨opConfig, hrow, hstep⟩ := hstep
      cases hfind : opConfig.findIdx? (· = nc) with
      | none => simp [hfind] at hstep
      | some k =>
          simp only [hfind, bind_eq_ok] at hstep
          obtain ⟨configs, hconfigs, hstep⟩ := hstep
          cases hstep
          obtain ⟨hlt, hk, _⟩ := List.findIdx?_eq_some_iff_getElem.mp hfind
          have hentry : t.configs.get? (op, k) = some nc := by
            rw [Grid.get?_eq_some_iff]
            exact ⟨opConfig, hrow, by simpa [List.getElem?_eq_getElem hlt] using hk⟩
          exact updateStep_effect_taken ht hmov hoc hop hentry hswap hconfigs

theorem updateStep_ok (ht : Placed R t) (hmov : Movable R id i t)
    (hoc : t.configs.get? (id, i) = some oc) (hnc : (t.usage.get? nc).isSome) :
    ∃ t', updateStep id i nc t = .ok t' := by
  have hocUsage : (t.usage.get? oc).isSome := by
    rcases hmov with hid | hidle
    · simp [ht.owner_of_config hid hoc]
    · simp [(hidle i oc le_rfl hoc).1]
  obtain ⟨op, hop⟩ := Option.isSome_iff_exists.mp hnc
  obtain ⟨usage, hswap⟩ := Grid.swap_ok_of_isSome hocUsage hnc
  cases op with
  | none => exact ⟨⟨usage, t.configs.put (id, i) nc⟩, by simp [updateStep, hoc, hop, hswap]⟩
  | some op =>
      obtain ⟨_, m, hm⟩ := (ht.owner_iff nc op).mp hop
      obtain ⟨opConfig, hrow, hentry⟩ := Grid.get?_eq_some_iff.mp hm
      cases hfind : opConfig.findIdx? (· = nc) with
      | none =>
          have hmem : nc ∈ opConfig := List.mem_of_getElem? hentry
          simpa using List.findIdx?_eq_none_iff.mp hfind nc hmem
      | some k =>
          obtain ⟨hlt, hk, _⟩ := List.findIdx?_eq_some_iff_getElem.mp hfind
          have hcell : (t.configs.get? (op, k)).isSome := by
            rw [Option.isSome_iff_exists]
            exact ⟨nc, Grid.get?_eq_some_iff.mpr ⟨opConfig, hrow, by
              simpa [List.getElem?_eq_getElem hlt] using hk⟩⟩
          obtain ⟨configs, hconfigs⟩ :=
            Grid.swap_ok_of_isSome hcell (q := (id, i)) (by simp [hoc])
          exact ⟨⟨usage, configs⟩, by
            simp [updateStep, hoc, hop, hswap, fetch, hrow, hfind, hconfigs]⟩

theorem StepEffect.placed (h : StepEffect R id i oc nc t t') (ht : Placed R t) :
    Placed R t' :=
  ht.relabel (Equiv.swap oc nc) (fun p => by rw [h.usage, Equiv.swap_apply_self])
    h.configs

theorem StepEffect.movable (h : StepEffect R id i oc nc t t')
    (hoc : t.configs.get? (id, i) = some oc) (hmov : Movable R id i t) :
    Movable R id (i + 1) t' := by
  by_cases hid : R id
  · exact .inl hid
  · rcases hmov with hid' | hidle
    · exact absurd hid' hid
    · refine .inr fun m p hm hp => ?_
      rw [h.stale hid m (by omega)] at hp
      obtain ⟨hfree, hunique⟩ := hidle m p (by omega) hp
      refine ⟨?_, fun m' hm' hp' => ?_⟩
      · have hpoc : p ≠ oc := by
          rintro rfl
          have := hunique i le_rfl hoc
          omega
        rw [h.usage]
        by_cases hpnc : p = nc
        · rw [hpnc, Equiv.swap_apply_right]
          exact (hidle i oc le_rfl hoc).1
        · rw [Equiv.swap_apply_of_ne_of_ne hpoc hpnc, hfree]
      · rw [h.stale hid m' (by omega)] at hp'
        exact hunique m' (by omega) hp'

/-- A slot other than the two exchanged ones is named at a later position of the
moved job only if it was named there before. -/
theorem StepEffect.config_ne (h : StepEffect R id i oc nc t t') {p : Cell}
    (hpoc : p ≠ oc) (hpnc : p ≠ nc) {m : Nat} (hm : i < m)
    (hp : t.configs.get? (id, m) ≠ some p) : t'.configs.get? (id, m) ≠ some p := by
  by_cases hid : R id
  · rw [h.configs id m hid]
    intro hmap
    obtain ⟨q, hq, hqp⟩ := Option.map_eq_some_iff.mp hmap
    obtain rfl : q = p := by
      rw [← Equiv.swap_apply_of_ne_of_ne hpoc hpnc] at hqp
      exact (Equiv.swap oc nc).injective hqp
    exact hp hq
  · rw [h.stale hid m (by omega)]
    exact hp

end Step

/-- What the loop does from position `i` on: one permutation `σ` relabels both
tables, and it moves only slots that are new slots or slots of the moved job. -/
structure LoopEffect (R : Nat → Prop) (id i : Nat) (newConfig : ExecuteConfig)
    (t t' : Placement) (σ : Equiv.Perm Cell) : Prop where
  usage : ∀ p, t'.usage.get? (σ p) = t.usage.get? p
  configs : ∀ j k, R j →
    t'.configs.get? (j, k) = (t.configs.get? (j, k)).map σ
  others : ∀ j, ¬ R j → j ≠ id → t'.configs[j]? = t.configs[j]?
  isSome_eq : ∀ q, (t'.configs.get? q).isSome = (t.configs.get? q).isSome
  length_eq : t'.configs.length = t.configs.length
  support : ∀ p, p ∉ newConfig → (∀ m, i ≤ m → t.configs.get? (id, m) ≠ some p) →
    σ p = p

section Loop

variable {R : Nat → Prop} {t t' : Placement} {id i : Nat} {newConfig : ExecuteConfig}

theorem entry_of_updateStep {nc : ExecuteConfigElem} (hstep : updateStep id i nc t = .ok t') :
    ∃ oc, t.configs.get? (id, i) = some oc := by
  simp only [updateStep, bind_eq_ok, Grid.read_eq_ok] at hstep
  obtain ⟨oc, hoc, _⟩ := hstep
  exact ⟨oc, hoc⟩

/-- One round of the loop, and the rest of it from the tables it leaves. -/
theorem updateLoop_cons {nc : ExecuteConfigElem} {rest : ExecuteConfig} (ht : Placed R t)
    (hmov : Movable R id i t) (hloop : updateLoop id i (nc :: rest) t = .ok t') :
    ∃ oc t₁, t.configs.get? (id, i) = some oc ∧ StepEffect R id i oc nc t t₁ ∧
      updateLoop id (i + 1) rest t₁ = .ok t' := by
  simp only [updateLoop, bind_eq_ok] at hloop
  obtain ⟨t₁, hstep, hrest⟩ := hloop
  obtain ⟨oc, hoc⟩ := entry_of_updateStep hstep
  exact ⟨oc, t₁, hoc, updateStep_effect ht hmov hoc hstep, hrest⟩

theorem updateLoop_effect (ht : Placed R t) (hmov : Movable R id i t)
    (hloop : updateLoop id i newConfig t = .ok t') :
    ∃ σ, LoopEffect R id i newConfig t t' σ := by
  induction newConfig generalizing i t with
  | nil =>
      cases hloop
      exact ⟨1, by simp, by simp, by simp, by simp, rfl, by simp⟩
  | cons nc rest ih =>
      obtain ⟨oc, t₁, hoc, heffect, hrest⟩ := updateLoop_cons ht hmov hloop
      obtain ⟨τ, hτ⟩ := ih (heffect.placed ht) (heffect.movable hoc hmov) hrest
      refine ⟨τ * Equiv.swap oc nc, ?_, ?_, ?_, ?_, ?_, ?_⟩
      · intro p
        rw [Equiv.Perm.mul_apply, hτ.usage, heffect.usage, Equiv.swap_apply_self]
      · intro j k hj
        rw [hτ.configs j k hj, heffect.configs j k hj, Option.map_map]
        rfl
      · intro j hj hjid
        rw [hτ.others j hj hjid, heffect.others j hj hjid]
      · intro q
        rw [hτ.isSome_eq, heffect.isSome_eq]
      · rw [hτ.length_eq, heffect.length_eq]
      · intro p hp hrow
        have hpnc : p ≠ nc := by
          rintro rfl
          exact hp List.mem_cons_self
        have hpoc : p ≠ oc := by
          rintro rfl
          exact hrow i le_rfl hoc
        rw [Equiv.Perm.mul_apply, Equiv.swap_apply_of_ne_of_ne hpoc hpnc]
        refine hτ.support p (fun h => hp (List.mem_cons_of_mem nc h)) ?_
        intro m hm
        exact heffect.config_ne hpoc hpnc (by omega) (hrow m (by omega))

theorem updateLoop_ok (ht : Placed R t) (hmov : Movable R id i t)
    (hrow : ∀ m, i ≤ m → m < i + newConfig.length → (t.configs.get? (id, m)).isSome)
    (hrange : ∀ nc ∈ newConfig, (t.usage.get? nc).isSome) :
    ∃ t', updateLoop id i newConfig t = .ok t' := by
  induction newConfig generalizing i t with
  | nil => exact ⟨t, rfl⟩
  | cons nc rest ih =>
      obtain ⟨oc, hoc⟩ := Option.isSome_iff_exists.mp
        (hrow i le_rfl (by simp))
      obtain ⟨t₁, hstep⟩ := updateStep_ok ht hmov hoc (hrange nc List.mem_cons_self)
      have heffect := updateStep_effect ht hmov hoc hstep
      obtain ⟨t', hrest⟩ := ih (heffect.placed ht) (heffect.movable hoc hmov)
        (fun m hm hlt => by
          rw [heffect.isSome_eq]
          exact hrow m (by omega) (by simp only [List.length_cons]; omega))
        (fun p hp => by
          rw [heffect.usage]
          by_cases hpoc : p = oc
          · rw [hpoc, Equiv.swap_apply_left]
            exact hrange nc List.mem_cons_self
          · by_cases hpnc : p = nc
            · rw [hpnc, Equiv.swap_apply_right]
              have := heffect.inRange
              rcases hmov with hid | hidle
              · simp [ht.owner_of_config hid hoc]
              · simp [(hidle i oc le_rfl hoc).1]
            · rw [Equiv.swap_apply_of_ne_of_ne hpoc hpnc]
              exact hrange p (List.mem_cons_of_mem nc hp))
      exact ⟨t', by simp [updateLoop, hstep, hrest]⟩

/-- For distinct new slots every position of the moved job ends at its new slot:
a later pass no longer touches a slot that an earlier one assigned. -/
theorem updateLoop_moved (ht : Placed R t) (hid : R id) (hnodup : newConfig.Nodup)
    (hloop : updateLoop id i newConfig t = .ok t') :
    ∀ m nc, newConfig[m]? = some nc → t'.configs.get? (id, i + m) = some nc := by
  induction newConfig generalizing i t with
  | nil => simp
  | cons nc rest ih =>
      obtain ⟨oc, t₁, hoc, heffect, hrest⟩ := updateLoop_cons ht (.inl hid) hloop
      have ht₁ := heffect.placed ht
      obtain ⟨hnot, hnodup⟩ := List.nodup_cons.mp hnodup
      intro m p hp
      cases m with
      | zero =>
          obtain rfl : nc = p := by simpa using hp
          obtain ⟨σ, hσ⟩ := updateLoop_effect ht₁ (.inl hid) hrest
          have hfix : σ nc = nc := hσ.support nc hnot fun m hm hentry => by
            have := ht₁.inj id (i) m nc hid heffect.moved hentry
            omega
          rw [Nat.add_zero, hσ.configs id i hid, heffect.moved]
          simp [hfix]
      | succ m =>
          have := ih ht₁ hnodup hrest m p (by simpa using hp)
          rwa [show i + (m + 1) = i + 1 + m by omega]

end Loop

end Poncos.Controller
