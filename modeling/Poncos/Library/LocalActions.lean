import Poncos.Library.SeparateMoves

/-!
Actions on a store that each read and write two places.  If the actions of a list
touch pairwise different places, every one of them acts as if it were alone, in
whatever order they are carried out.
-/

namespace Poncos.Library

variable {τ α β : Type*} {touch : τ → α × α} {act : τ → (α → β) → α → β}

/-- `act t` writes the places of `touch t` only, and reads no others for it. -/
structure ActsOn (touch : τ → α × α) (act : τ → (α → β) → α → β) : Prop where
  frame : ∀ t g x, x ≠ (touch t).1 → x ≠ (touch t).2 → act t g x = g x
  reads : ∀ t g g' x, x = (touch t).1 ∨ x = (touch t).2 →
    g (touch t).1 = g' (touch t).1 → g (touch t).2 = g' (touch t).2 → act t g x = act t g' x

def actAll (act : τ → (α → β) → α → β) : List τ → (α → β) → α → β
  | [], g => g
  | t :: ts, g => actAll act ts (act t g)

namespace ActsOn

theorem actAll_frame (h : ActsOn touch act) {ts : List τ} {g : α → β} {x : α}
    (hx : ∀ t ∈ ts, x ≠ (touch t).1 ∧ x ≠ (touch t).2) : actAll act ts g x = g x := by
  induction ts generalizing g with
  | nil => rfl
  | cons t rest ih =>
      obtain ⟨hfst, hsnd⟩ := hx t List.mem_cons_self
      rw [actAll, ih fun u hu => hx u (List.mem_cons_of_mem t hu), h.frame t g x hfst hsnd]

theorem actAll_alone (h : ActsOn touch act) {ts : List τ}
    (hseparate : SeparateMoves (ts.map touch)) {t : τ} (ht : t ∈ ts) {g : α → β} {x : α}
    (hx : x = (touch t).1 ∨ x = (touch t).2) : actAll act ts g x = act t g x := by
  induction ts generalizing g with
  | nil => cases ht
  | cons u rest ih =>
      rw [List.map_cons] at hseparate
      rcases List.mem_cons.mp ht with rfl | hrest
      · rw [actAll]
        apply h.actAll_frame
        intro v hv
        have hapart := hseparate.head_apart (List.mem_map_of_mem hv)
        rcases hx with rfl | rfl
        · exact hapart.1
        · exact hapart.2
      · have hapart := (hseparate.head_apart (List.mem_map_of_mem hrest)).symm
        rw [actAll, ih hseparate.tail hrest]
        exact h.reads t _ g x hx (h.frame u g _ hapart.1.1 hapart.1.2)
          (h.frame u g _ hapart.2.1 hapart.2.2)

end ActsOn

end Poncos.Library
