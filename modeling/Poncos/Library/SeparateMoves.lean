import Poncos.Library.SwapSequence

/-!
Exchanges that touch pairwise different places: each of them acts as if it were
alone.
-/

namespace Poncos.Library

variable {α : Type*} {moves moves' : List (α × α)}

/-- Two exchanges without a common place. -/
def Apart (p r : α × α) : Prop :=
  (p.1 ≠ r.1 ∧ p.1 ≠ r.2) ∧ p.2 ≠ r.1 ∧ p.2 ≠ r.2

theorem Apart.symm {p r : α × α} (h : Apart p r) : Apart r p :=
  ⟨⟨Ne.symm h.1.1, Ne.symm h.2.1⟩, Ne.symm h.1.2, Ne.symm h.2.2⟩

def SeparateMoves (moves : List (α × α)) : Prop := moves.Pairwise Apart

namespace SeparateMoves

theorem tail {p : α × α} (h : SeparateMoves (p :: moves)) : SeparateMoves moves :=
  (List.pairwise_cons.mp h).2

theorem head_apart {p r : α × α} (h : SeparateMoves (p :: moves)) (hr : r ∈ moves) :
    Apart p r :=
  (List.pairwise_cons.mp h).1 r hr

theorem perm (h : SeparateMoves moves) (hperm : moves.Perm moves') : SeparateMoves moves' :=
  (hperm.pairwise_iff Apart.symm).mp h

theorem filter (h : SeparateMoves moves) (keep : α × α → Bool) :
    SeparateMoves (moves.filter keep) :=
  List.Pairwise.filter keep h

variable [DecidableEq α]

theorem swapSeq_apply (h : SeparateMoves moves) {p : α × α} (hp : p ∈ moves) {x : α}
    (hx : x = p.1 ∨ x = p.2) : swapSeq moves x = Equiv.swap p.1 p.2 x := by
  induction moves with
  | nil => simp at hp
  | cons q rest ih =>
      rw [swapSeq_cons, Equiv.Perm.mul_apply]
      rcases List.mem_cons.mp hp with rfl | hp
      · rw [swapSeq_apply_of_forall_ne]
        intro r hr
        have hapart := h.head_apart hr
        rcases hx with rfl | rfl
        · exact hapart.1
        · exact hapart.2
      · rw [ih h.tail hp]
        have hapart := (h.head_apart hp).symm
        apply Equiv.swap_apply_of_ne_of_ne
        · rcases hx with rfl | rfl
          · rw [Equiv.swap_apply_left]
            exact hapart.2.1
          · rw [Equiv.swap_apply_right]
            exact hapart.1.1
        · rcases hx with rfl | rfl
          · rw [Equiv.swap_apply_left]
            exact hapart.2.2
          · rw [Equiv.swap_apply_right]
            exact hapart.1.2

theorem swapSeq_fst (h : SeparateMoves moves) {p : α × α} (hp : p ∈ moves) :
    swapSeq moves p.1 = p.2 := by
  rw [h.swapSeq_apply hp (.inl rfl), Equiv.swap_apply_left]

theorem swapSeq_snd (h : SeparateMoves moves) {p : α × α} (hp : p ∈ moves) :
    swapSeq moves p.2 = p.1 := by
  rw [h.swapSeq_apply hp (.inr rfl), Equiv.swap_apply_right]

/-- A place is exchanged by one of the moves, or left alone. -/
theorem cases (h : SeparateMoves moves) (x : α) :
    (∃ p ∈ moves, x = p.1 ∧ swapSeq moves x = p.2) ∨
      (∃ p ∈ moves, x = p.2 ∧ swapSeq moves x = p.1) ∨
      (∀ p ∈ moves, x ≠ p.1 ∧ x ≠ p.2) ∧ swapSeq moves x = x := by
  rcases Classical.em (∃ p ∈ moves, x = p.1) with ⟨p, hp, rfl⟩ | hfst
  · exact .inl ⟨p, hp, rfl, h.swapSeq_fst hp⟩
  rcases Classical.em (∃ p ∈ moves, x = p.2) with ⟨p, hp, rfl⟩ | hsnd
  · exact .inr (.inl ⟨p, hp, rfl, h.swapSeq_snd hp⟩)
  have hnone : ∀ p ∈ moves, x ≠ p.1 ∧ x ≠ p.2 :=
    fun p hp => ⟨fun hx => hfst ⟨p, hp, hx⟩, fun hx => hsnd ⟨p, hp, hx⟩⟩
  exact .inr (.inr ⟨hnone, swapSeq_apply_of_forall_ne hnone⟩)

end SeparateMoves

/-- Moves from distinct places to distinct places are separate if a place that is moved
to is not moved from. -/
theorem separateMoves_of_fresh (hfst : (moves.map Prod.fst).Nodup)
    (hsnd : (moves.map Prod.snd).Nodup)
    (hfresh : ∀ p ∈ moves, p.1 ≠ p.2 → p.2 ∉ moves.map Prod.fst) : SeparateMoves moves := by
  have hmeet : ∀ p ∈ moves, ∀ q ∈ moves, p.1 ≠ q.1 → p.1 ≠ q.2 := by
    intro p hp q hq hne heq
    rcases Classical.em (q.1 = q.2) with hstay | hmove
    · exact hne (heq.trans hstay.symm)
    · exact hfresh q hq hmove (heq ▸ List.mem_map_of_mem hp)
  refine ((List.pairwise_map.mp hfst).and (List.pairwise_map.mp hsnd)).imp_of_mem ?_
  rintro p q hp hq ⟨hne, hne'⟩
  exact ⟨⟨hne, hmeet p hp q hq hne⟩, (hmeet q hq p hp hne.symm).symm, hne'⟩

end Poncos.Library
