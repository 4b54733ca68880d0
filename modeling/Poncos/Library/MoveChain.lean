import Poncos.Library.SwapSequence

/-!
Moves read as a relation between positions.  Move `k` follows move `i` when it
starts where `i` ends; a position leaves when the moves that follow it end
outside all starting places.  When an earlier move is followed by a later one
that leaves, carrying the moves out as exchanges from left to right puts foreign
content at some destination.
-/

namespace Poncos.Library

variable {α : Type*}

/-- The moves that follow position `k` end outside the starting places. -/
inductive Leaves (moves : List (α × α)) : Nat → Prop
  | out {k : Nat} {p : α × α} : moves[k]? = some p → p.2 ∉ moves.map Prod.fst →
      Leaves moves k
  | follow {k q : Nat} {p r : α × α} : moves[k]? = some p → moves[q]? = some r →
      p.2 = r.1 → Leaves moves q → Leaves moves k

/-- No move is followed by a later one that leaves. -/
def NoChainOut (moves : List (α × α)) : Prop :=
  ∀ (i k : Nat) (p r : α × α), i < k → moves[i]? = some p → moves[k]? = some r →
    p.2 = r.1 → ¬ Leaves moves k

theorem index_unique {β : Type*} {xs : List α} {f : α → β}
    (hnodup : (xs.map f).Nodup) {i k : Nat} {a b : α} (hi : xs[i]? = some a)
    (hk : xs[k]? = some b) (heq : f a = f b) : i = k := by
  have hi' : (xs.map f)[i]? = some (f a) := by simp [hi]
  have hk' : (xs.map f)[k]? = some (f a) := by simp [hk, heq]
  have hlt := (List.getElem?_eq_some_iff.mp hi').1
  exact (List.getElem?_inj hlt hnodup).mp (hi'.trans hk'.symm)

theorem exists_follow_of_not_leaves {moves : List (α × α)} {k : Nat} {p : α × α}
    (hp : moves[k]? = some p) (hk : ¬ Leaves moves k) :
    ∃ (q : Nat) (r : α × α), moves[q]? = some r ∧ p.2 = r.1 ∧ ¬ Leaves moves q := by
  by_contra hnone
  apply hk
  rcases Classical.em (p.2 ∈ moves.map Prod.fst) with hmem | hout
  · obtain ⟨r, hr, hrp⟩ := List.mem_map.mp hmem
    obtain ⟨q, hq⟩ := List.mem_iff_getElem?.mp hr
    refine .follow hp hq hrp.symm ?_
    by_contra hstays
    exact hnone ⟨q, r, hq, hrp.symm, hstays⟩
  · exact .out hp hout

theorem Leaves.of_follow {moves : List (α × α)} (hfst : (moves.map Prod.fst).Nodup)
    {k q : Nat} {p r : α × α} (hk : Leaves moves k) (hp : moves[k]? = some p)
    (hr : moves[q]? = some r) (heq : p.2 = r.1) : Leaves moves q := by
  cases hk with
  | out hp' hout =>
      rw [Option.some_inj.mp (hp'.symm.trans hp), heq] at hout
      exact absurd (List.mem_map_of_mem (List.mem_of_getElem? hr)) hout
  | follow hp' hr' heq' hleaves =>
      rw [Option.some_inj.mp (hp'.symm.trans hp)] at heq'
      rw [index_unique hfst hr hr' (heq.symm.trans heq')]
      exact hleaves

variable [DecidableEq α]

theorem swapSeq_take_succ {moves : List (α × α)} {k : Nat} {p : α × α}
    (hp : moves[k]? = some p) :
    swapSeq (moves.take (k + 1)) = swapSeq (moves.take k) * Equiv.swap p.1 p.2 := by
  rw [List.take_add_one, hp]
  exact swapSeq_concat _ _

theorem swapSeq_take_of_forall_ne {moves : List (α × α)} {x : α} {j m : Nat}
    (hjm : j ≤ m)
    (h : ∀ k p, j ≤ k → k < m → moves[k]? = some p → x ≠ p.1 ∧ x ≠ p.2) :
    swapSeq (moves.take m) x = swapSeq (moves.take j) x := by
  induction m, hjm using Nat.le_induction with
  | base => rfl
  | succ m hjm ih =>
      have hrest := ih fun k p hjk hkm => h k p hjk (by omega)
      cases hm : moves[m]? with
      | none => rwa [List.take_add_one, hm, Option.toList_none, List.append_nil]
      | some p =>
          have hp := h m p hjm (by omega) hm
          rw [swapSeq_take_succ hm, Equiv.Perm.mul_apply,
            Equiv.swap_apply_of_ne_of_ne hp.1 hp.2, hrest]

section Chains

variable {moves : List (α × α)} (hfst : (moves.map Prod.fst).Nodup)
  (hsnd : (moves.map Prod.snd).Nodup)

include hfst

/-- A starting place is left alone after its own exchange, up to the move that
ends there. -/
theorem swapSeq_take_start {k m : Nat} {r : α × α} (hr : moves[k]? = some r)
    (hkm : k < m)
    (hother : ∀ j p, k < j → j < m → moves[j]? = some p → r.1 ≠ p.2) :
    swapSeq (moves.take m) r.1 = swapSeq (moves.take k) r.2 := by
  rw [swapSeq_take_of_forall_ne (Nat.succ_le_of_lt hkm), swapSeq_take_succ hr,
    Equiv.Perm.mul_apply, Equiv.swap_apply_left]
  intro j p hkj hjm hp
  refine ⟨?_, hother j p (by omega) hjm hp⟩
  intro heq
  have := index_unique hfst hr hp heq
  omega

include hsnd

/-- Where the final content of the destination of a leaving position starts, if
only the moves before it are carried out; or some destination ends with foreign
content. -/
theorem Leaves.origin {k : Nat} (hk : Leaves moves k) :
    ∀ p, moves[k]? = some p →
      swapSeq (moves.take k) p.2 ∉ moves.map Prod.fst ∨
        ∃ x ∈ moves.map Prod.snd, swapSeq moves x ∉ moves.map Prod.fst := by
  induction hk with
  | @out k p hp hout =>
      intro p' hp'
      obtain rfl : p = p' := by simpa [hp] using hp'
      left
      rw [swapSeq_take_of_forall_ne (Nat.zero_le k)]
      · exact hout
      · intro j q _ hjk hq
        refine ⟨?_, ?_⟩
        · intro heq
          exact hout (heq ▸ List.mem_map_of_mem (List.mem_of_getElem? hq))
        · intro heq
          have := index_unique hsnd hp hq heq
          omega
  | @follow k q p r hp hr heq _ ih =>
      intro p' hp'
      obtain rfl : p = p' := by simpa [hp] using hp'
      have honly : ∀ j s, j ≠ k → moves[j]? = some s → r.1 ≠ s.2 := by
        intro j s hjk hs hrs
        exact hjk (index_unique hsnd hs hp (hrs ▸ heq).symm)
      rcases ih r hr with hforeign | hfound
      · rcases lt_trichotomy q k with hqk | rfl | hkq
        · left
          rw [heq, swapSeq_take_start hfst hr hqk
            fun j s _ hjk hs => honly j s (by omega) hs]
          exact hforeign
        · obtain rfl : p = r := by simpa [hp] using hr
          exact .inl hforeign
        · right
          refine ⟨p.2, List.mem_map_of_mem (List.mem_of_getElem? hp), ?_⟩
          have hlt := (List.getElem?_eq_some_iff.mp hr).1
          have hall := swapSeq_take_start hfst hr hlt
            fun j s hqj _ hs => honly j s (by omega) hs
          rw [List.take_length] at hall
          rw [heq, hall]
          exact hforeign
      · exact .inr hfound

/-- A chain that leaves, started by an earlier move, puts foreign content at
some destination. -/
theorem exists_foreign_of_chain {i k : Nat} {p r : α × α} (hik : i < k)
    (hp : moves[i]? = some p) (hr : moves[k]? = some r) (heq : p.2 = r.1)
    (hk : Leaves moves k) :
    ∃ x ∈ moves.map Prod.snd, swapSeq moves x ∉ moves.map Prod.fst := by
  rcases hk.origin hfst hsnd r hr with hforeign | hfound
  · refine ⟨p.2, List.mem_map_of_mem (List.mem_of_getElem? hp), ?_⟩
    have hlt := (List.getElem?_eq_some_iff.mp hr).1
    have hall := swapSeq_take_start hfst hr hlt fun j s hkj _ hs hrs => by
      have := index_unique hsnd hp hs (heq.trans hrs)
      omega
    rw [List.take_length] at hall
    rw [heq, hall]
    exact hforeign
  · exact hfound

end Chains

end Poncos.Library
