import Mathlib.Data.List.Sort
import Mathlib.Order.Basic

/-!
An unstable comparison sort, as a parameter.  Only its documented contract is
assumed: for a strict weak order the result is a permutation of the input in
which no element compares below an earlier one.  Where two elements are
equivalent their order is left open.
-/

namespace Poncos.Library

variable {α β : Type*}

/-- Irreflexive comparisons whose complement is transitive. -/
structure StrictWeak (lt : α → α → Bool) : Prop where
  asymm : ∀ a b, lt a b = true → lt b a = false
  trans : ∀ a b c, lt b a = false → lt c b = false → lt c a = false

theorem strictWeak_lt_key [LinearOrder β] (key : α → β) :
    StrictWeak fun a b => decide (key a < key b) := by
  constructor
  · intro a b h
    simp only [decide_eq_true_eq, decide_eq_false_iff_not, not_lt] at h ⊢
    exact h.le
  · intro a b c hab hbc
    simp only [decide_eq_false_iff_not, not_lt] at hab hbc ⊢
    exact hab.trans hbc

theorem strictWeak_gt_key [LinearOrder β] (key : α → β) :
    StrictWeak fun a b => decide (key b < key a) :=
  strictWeak_lt_key fun a => OrderDual.toDual (key a)

structure StdSort (α : Type*) where
  sort : (α → α → Bool) → List α → List α
  perm : ∀ lt xs, (sort lt xs).Perm xs
  sorted : ∀ lt xs, StrictWeak lt →
    (sort lt xs).Pairwise fun a b => lt b a = false

namespace StdSort

variable (S : StdSort α)

@[simp] theorem length_sort (lt : α → α → Bool) (xs : List α) :
    (S.sort lt xs).length = xs.length :=
  (S.perm lt xs).length_eq

@[simp] theorem mem_sort {lt : α → α → Bool} {xs : List α} {a : α} :
    a ∈ S.sort lt xs ↔ a ∈ xs :=
  (S.perm lt xs).mem_iff

def insertion : StdSort α where
  sort lt xs := xs.insertionSort fun a b => lt b a = false
  perm lt xs := List.perm_insertionSort _ xs
  sorted lt xs hlt := by
    have : Std.Total (fun a b : α => lt b a = false) := ⟨fun a b => by
      cases hba : lt b a with
      | false => exact .inl rfl
      | true => exact .inr (hlt.asymm b a hba)⟩
    have : IsTrans α (fun a b : α => lt b a = false) :=
      ⟨fun a b c hab hbc => hlt.trans a b c hab hbc⟩
    exact List.pairwise_insertionSort _ xs

end StdSort

end Poncos.Library
