import Poncos.Controller.Consistency
import Poncos.Library.SeparateMoves

/-!
`update_config` for moves that touch pairwise different slots.  No pass of the
loop changes a slot that a later one reads, so both tables are exchanged along the
config the job had before the call, and every position of every job follows.  The
same holds for any moves of a completed job, whose config no exchange rewrites.
-/

namespace Poncos.Controller

open Poncos.Library
open Poncos.Library.Execution

section Loop

variable {R : Nat → Prop} {t t' : Placement} {id i : Nat}
  {moves : List (ExecuteConfigElem × ExecuteConfigElem)}

/-- A position of the moved job keeps its slot over a pass for another position
that touches two other slots. -/
theorem StepEffect.config_eq {oc nc p : Cell} (h : StepEffect R id i oc nc t t') {m : Nat}
    (hm : m ≠ i) (hoc : p ≠ oc) (hnc : p ≠ nc)
    (hp : t.configs.get? (id, m) = some p) : t'.configs.get? (id, m) = some p := by
  rcases Classical.em (R id) with hid | hid
  · rw [h.configs id m hid, hp, Option.map_some, Equiv.swap_apply_of_ne_of_ne hoc hnc]
  · rw [h.stale hid m hm, hp]

theorem StepEffect.pending {p : Cell × Cell}
    {rest : List (ExecuteConfigElem × ExecuteConfigElem)}
    (h : StepEffect R id i p.1 p.2 t t') (hmoves : SeparateMoves (p :: rest) ∨ ¬ R id)
    (hrow : ∀ (k : Nat) (q : Cell × Cell), (p :: rest)[k]? = some q →
      t.configs.get? (id, i + k) = some q.1)
    (k : Nat) (q : Cell × Cell) (hq : rest[k]? = some q) :
    t'.configs.get? (id, i + 1 + k) = some q.1 := by
  have hentry := hrow (k + 1) q hq
  rw [show i + (k + 1) = i + 1 + k by omega] at hentry
  rcases hmoves with hmoves | hstale
  · have hapart := (hmoves.head_apart (List.mem_of_getElem? hq)).symm
    exact h.config_eq (by omega) hapart.1.1 hapart.1.2 hentry
  · rw [h.stale hstale _ (by omega), hentry]

theorem updateLoop_separate (ht : Placed R t) (hmov : Movable R id i t)
    (hmoves : SeparateMoves moves ∨ ¬ R id)
    (hrow : ∀ (k : Nat) (p : Cell × Cell), moves[k]? = some p →
      t.configs.get? (id, i + k) = some p.1)
    (hloop : updateLoop id i (moves.map Prod.snd) t = .ok t') :
    (∀ x, t'.usage.get? x = t.usage.get? (swapSeq moves x)) ∧
      ∀ j k, R j → t'.configs.get? (j, k) =
        (t.configs.get? (j, k)).map (swapSeq moves).symm := by
  induction moves generalizing i t with
  | nil =>
      cases hloop
      exact ⟨fun _ => rfl, fun _ _ _ => (congrFun Option.map_id _).symm⟩
  | cons p rest ih =>
      obtain ⟨oc, t₁, hoc, heffect, hrest⟩ := updateLoop_cons ht hmov hloop
      obtain rfl : oc = p.1 := Option.some_inj.mp (hoc.symm.trans (hrow 0 p rfl))
      obtain ⟨husage, hconfigs⟩ := ih (heffect.placed ht) (heffect.movable hoc hmov)
        (hmoves.imp_left SeparateMoves.tail) (heffect.pending hmoves hrow) hrest
      refine ⟨fun x => ?_, fun j k hj => ?_⟩
      · rw [husage, heffect.usage, swapSeq_cons, Equiv.Perm.mul_apply]
      · rw [hconfigs j k hj, heffect.configs j k hj, Option.map_map]
        rfl

/-- A position that was dealt with stays where it is. -/
theorem updateLoop_keeps (ht : Placed R t) (hmov : Movable R id i t)
    (hmoves : SeparateMoves moves)
    (hrow : ∀ (k : Nat) (p : Cell × Cell), moves[k]? = some p →
      t.configs.get? (id, i + k) = some p.1)
    (hloop : updateLoop id i (moves.map Prod.snd) t = .ok t') {m : Nat} {q : Cell}
    (hm : m < i) (hq : t.configs.get? (id, m) = some q)
    (hapart : ∀ p ∈ moves, q ≠ p.1 ∧ q ≠ p.2) : t'.configs.get? (id, m) = some q := by
  induction moves generalizing i t with
  | nil =>
      cases hloop
      exact hq
  | cons p rest ih =>
      obtain ⟨oc, t₁, hoc, heffect, hrest⟩ := updateLoop_cons ht hmov hloop
      obtain rfl : oc = p.1 := Option.some_inj.mp (hoc.symm.trans (hrow 0 p rfl))
      obtain ⟨hfst, hsnd⟩ := hapart p List.mem_cons_self
      exact ih (heffect.placed ht) (heffect.movable hoc hmov) hmoves.tail
        (heffect.pending (.inl hmoves) hrow) hrest (by omega)
        (heffect.config_eq (by omega) hfst hsnd hq)
        fun r hr => hapart r (List.mem_cons_of_mem p hr)

theorem updateLoop_arrives (ht : Placed R t) (hmov : Movable R id i t)
    (hmoves : SeparateMoves moves)
    (hrow : ∀ (k : Nat) (p : Cell × Cell), moves[k]? = some p →
      t.configs.get? (id, i + k) = some p.1)
    (hloop : updateLoop id i (moves.map Prod.snd) t = .ok t') {k : Nat} {p : Cell × Cell}
    (hp : moves[k]? = some p) : t'.configs.get? (id, i + k) = some p.2 := by
  induction moves generalizing i t k with
  | nil => simp at hp
  | cons q rest ih =>
      obtain ⟨oc, t₁, hoc, heffect, hrest⟩ := updateLoop_cons ht hmov hloop
      obtain rfl : oc = q.1 := Option.some_inj.mp (hoc.symm.trans (hrow 0 q rfl))
      have hplaced := heffect.placed ht
      have hmovable := heffect.movable hoc hmov
      cases k with
      | zero =>
          cases hp
          exact updateLoop_keeps hplaced hmovable hmoves.tail
            (heffect.pending (.inl hmoves) hrow) hrest (by omega) heffect.moved
            fun r hr => (hmoves.head_apart hr).2
      | succ k =>
          rw [show i + (k + 1) = i + 1 + k by omega]
          exact ih hplaced hmovable hmoves.tail (heffect.pending (.inl hmoves) hrow) hrest hp

end Loop

section Update

variable {c c' : Controller} {id : Nat} {oldConfig newConfig : ExecuteConfig}

theorem entry_of_zip (hrow : c.idToConfig[id]? = some oldConfig) {k : Nat}
    {p : Cell × Cell} (hp : (oldConfig.zip newConfig)[k]? = some p) :
    c.placement.configs.get? (id, 0 + k) = some p.1 := by
  rw [Nat.zero_add, Grid.get?_of_row (g := c.placement.configs) hrow]
  exact (List.getElem?_zip_eq_some.mp hp).1

/-- Both tables after the call, for the running jobs and the occupancy. -/
theorem updateConfig_separate (hc : c.Consistent) (hmov : c.MovableJob id)
    (hrow : c.idToConfig[id]? = some oldConfig)
    (hlen : oldConfig.length = newConfig.length)
    (hmoves : SeparateMoves (oldConfig.zip newConfig) ∨ ¬ c.Running id)
    (hupdate : c.updateConfig id newConfig = .ok c') :
    (∀ x, c'.machineUsage.get? x =
      c.machineUsage.get? (swapSeq (oldConfig.zip newConfig) x)) ∧
      ∀ j k, c.Running j → c'.placement.configs.get? (j, k) =
        (c.placement.configs.get? (j, k)).map (swapSeq (oldConfig.zip newConfig)).symm := by
  simp only [updateConfig, bind_eq_ok, fetch_eq_ok, ensure_eq_ok] at hupdate
  obtain ⟨_, _, _, _, t, hloop, _, _, _, _, h⟩ := hupdate
  cases h
  refine updateLoop_separate hc.placed hmov hmoves (fun k p => entry_of_zip hrow) ?_
  rw [List.map_snd_zip (by omega)]
  exact hloop

/-- The call passes the assertions of both loops. -/
theorem updateConfig_separate_ok (hc : c.Consistent) (hmov : c.MovableJob id)
    (hrow : c.idToConfig[id]? = some oldConfig)
    (hlen : oldConfig.length = newConfig.length)
    (hmoves : SeparateMoves (oldConfig.zip newConfig))
    (hrange : ∀ nc ∈ newConfig, (c.machineUsage.get? nc).isSome) :
    ∃ c', c.updateConfig id newConfig = .ok c' := by
  have hcell := Grid.get?_of_row (g := c.placement.configs) hrow
  obtain ⟨t, hloop⟩ := updateLoop_ok hc.placed hmov (entries_isSome hrow hlen.symm) hrange
  obtain ⟨_, heffect⟩ := updateLoop_effect hc.placed hmov hloop
  have hloop' : updateLoop id 0 ((oldConfig.zip newConfig).map Prod.snd) c.placement =
      .ok t := by
    rw [List.map_snd_zip (by omega)]
    exact hloop
  have hentry : ∀ m, t.configs.get? (id, m) = newConfig[m]? := by
    intro m
    rcases lt_or_ge m newConfig.length with hm | hm
    · have hzip : (oldConfig.zip newConfig)[m]? = some (oldConfig[m], newConfig[m]) := by
        simp [List.getElem?_zip_eq_some, hm]
      have harrive := updateLoop_arrives hc.placed hmov hmoves
        (fun k p => entry_of_zip hrow) hloop' hzip
      rw [Nat.zero_add] at harrive
      rw [harrive, List.getElem?_eq_getElem hm]
    · have hnone := heffect.isSome_eq (id, m)
      rw [hcell, List.getElem?_eq_none (by omega)] at hnone
      rw [List.getElem?_eq_none hm]
      simpa using hnone
  have hid : id < t.configs.length := by
    rw [heffect.length_eq]
    exact (List.getElem?_eq_some_iff.mp hrow).1
  have hrow' : t.configs[id]? = some newConfig := by
    rw [List.getElem?_eq_getElem hid, Option.some_inj]
    apply List.ext_getElem?
    intro m
    rw [← hentry m, Grid.get?_of_row (List.getElem?_eq_getElem hid)]
  refine ⟨{ c with machineUsage := t.usage, idToConfig := t.configs }, ?_⟩
  rw [updateConfig, fetch_eq_ok.mpr hrow, bind_of_ok rfl, ensure_of hlen.symm, bind_of_ok rfl]
  change updateLoop id 0 newConfig c.placement >>= _ = _
  rw [hloop, bind_of_ok rfl, fetch_eq_ok.mpr hrow', bind_of_ok rfl, ensure_of rfl,
    bind_of_ok rfl]

end Update

end Poncos.Controller
