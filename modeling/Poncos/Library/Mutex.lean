import Mathlib.Logic.Basic

/-!
One mutex and the threads that act as its owners: what taking it, giving it up and
steps of threads that do not become owners preserve.
-/

namespace Poncos.Library.Mutex

variable {ι : Type*}

/-- Every thread that acts as an owner is the holder of the mutex. -/
def Sound (mutex : Option ι) (Owner : ι → Prop) : Prop := ∀ t, Owner t → mutex = some t

namespace Sound

variable {mutex : Option ι} {Owner Owner' : ι → Prop} {t t' : ι}

theorem unique (h : Sound mutex Owner) (ht : Owner t) (ht' : Owner t') : t = t' :=
  Option.some_inj.mp ((h t ht).symm.trans (h t' ht'))

theorem keep (h : Sound mutex Owner) (hsub : ∀ u, Owner' u → Owner u) :
    Sound mutex Owner' :=
  fun u hu => h u (hsub u hu)

theorem take (h : Sound none Owner) (hsub : ∀ u, Owner' u → u = t ∨ Owner u) :
    Sound (some t) Owner' := by
  intro u hu
  rcases hsub u hu with rfl | hold
  · rfl
  · cases h u hold

/-- The holder gives the mutex up, and no other thread becomes an owner. -/
theorem drop (h : Sound mutex Owner) (ht : Owner t)
    (hsub : ∀ u, Owner' u → u ≠ t ∧ Owner u) : Sound none Owner' := by
  intro u hu
  obtain ⟨hne, hold⟩ := hsub u hu
  exact absurd (h.unique hold ht) hne

end Sound

end Poncos.Library.Mutex
