import Mathlib.Algebra.Group.End
import Mathlib.Data.List.Basic
import Poncos.Library.Grid

/-!
Sequences of pairwise exchanges.  Running them over a table composes the table
with one permutation, so two tables exchanged along the same sequence stay
aligned, and a place that no later exchange mentions keeps its content.
-/

namespace Poncos.Library

open Poncos.Library.Execution

variable {α β : Type*} [DecidableEq α]

/-- The permutation that sends a place to the place its final content started
from, when the listed exchanges are carried out from left to right. -/
def swapSeq : List (α × α) → Equiv.Perm α
  | [] => 1
  | p :: ps => Equiv.swap p.1 p.2 * swapSeq ps

@[simp] theorem swapSeq_nil : swapSeq ([] : List (α × α)) = 1 := rfl

theorem swapSeq_cons (p : α × α) (ps : List (α × α)) :
    swapSeq (p :: ps) = Equiv.swap p.1 p.2 * swapSeq ps := rfl

/-- Exchanging a place with itself changes nothing. -/
theorem swapSeq_cons_self {p : α × α} (h : p.1 = p.2) (ps : List (α × α)) :
    swapSeq (p :: ps) = swapSeq ps := by
  rw [swapSeq_cons, h, Equiv.swap_self]
  exact one_mul (swapSeq ps)

theorem swapSeq_append (ps qs : List (α × α)) :
    swapSeq (ps ++ qs) = swapSeq ps * swapSeq qs := by
  induction ps with
  | nil => simp
  | cons p ps ih => simp [swapSeq_cons, ih, mul_assoc]

theorem swapSeq_concat (ps : List (α × α)) (p : α × α) :
    swapSeq (ps ++ [p]) = swapSeq ps * Equiv.swap p.1 p.2 := by
  simp [swapSeq_append, swapSeq_cons]

theorem swapSeq_apply_of_forall_ne {ps : List (α × α)} {x : α}
    (h : ∀ p ∈ ps, x ≠ p.1 ∧ x ≠ p.2) : swapSeq ps x = x := by
  induction ps with
  | nil => rfl
  | cons p ps ih =>
      have htail := ih fun q hq => h q (List.mem_cons_of_mem p hq)
      have hhead := h p List.mem_cons_self
      rw [swapSeq_cons, Equiv.Perm.mul_apply, htail,
        Equiv.swap_apply_of_ne_of_ne hhead.1 hhead.2]

namespace Grid

def swaps : List (Cell × Cell) → Grid β → Exec (Grid β)
  | [], g => .ok g
  | p :: ps, g => do swaps ps (← g.swap p.1 p.2)

theorem get?_swaps {ps : List (Cell × Cell)} {g g' : Grid β}
    (h : swaps ps g = .ok g') (x : Cell) : g'.get? x = g.get? (swapSeq ps x) := by
  induction ps generalizing g with
  | nil =>
      cases h
      rfl
  | cons p ps ih =>
      simp only [swaps, bind_eq_ok] at h
      obtain ⟨g₁, hswap, hrest⟩ := h
      rw [ih hrest, get?_swap hswap, swapSeq_cons, Equiv.Perm.mul_apply]

theorem isSome_get?_swaps {ps : List (Cell × Cell)} {g g' : Grid β}
    (h : swaps ps g = .ok g') (x : Cell) : (g'.get? x).isSome = (g.get? x).isSome := by
  induction ps generalizing g with
  | nil =>
      cases h
      rfl
  | cons p ps ih =>
      simp only [swaps, bind_eq_ok] at h
      obtain ⟨g₁, hswap, hrest⟩ := h
      rw [ih hrest, isSome_get?_swap hswap]

end Grid

end Poncos.Library
