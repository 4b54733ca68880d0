import Mathlib.Data.List.Forall2

/-!
Computations that either return a value or stop at a fault.  A failed run-time
check, an access outside a sequence and an operation that is not enabled are
kept apart, so that a statement can name the fault it excludes.
-/

namespace Poncos.Library.Execution

/-- Why a computation stopped. -/
inductive Fault where
  | assertion
  | outOfRange
  | disabled
  deriving DecidableEq, Repr

abbrev Exec := Except Fault

universe u

variable {α β : Type u}

@[simp] theorem bind_eq_ok {x : Exec α} {f : α → Exec β} {b : β} :
    (x >>= f) = .ok b ↔ ∃ a, x = .ok a ∧ f a = .ok b := by
  cases x <;> simp [bind, Except.bind]

theorem bind_of_ok {x : Exec α} {f : α → Exec β} {a : α} (hx : x = .ok a) :
    (x >>= f) = f a := by
  subst hx
  rfl

theorem bind_eq_error {x : Exec α} {f : α → Exec β} {fault : Fault} :
    (x >>= f) = .error fault ↔
      x = .error fault ∨ ∃ a, x = .ok a ∧ f a = .error fault := by
  cases x <;> simp [bind, Except.bind]

theorem bind_ne_error {x : Exec α} {f : α → Exec β} {fault : Fault} (hx : x ≠ .error fault)
    (hf : ∀ a, x = .ok a → f a ≠ .error fault) : (x >>= f) ≠ .error fault := by
  intro h
  rcases bind_eq_error.mp h with h | ⟨a, ha, h⟩
  · exact hx h
  · exact hf a ha h

theorem ne_error_of_ok {x : Exec α} {fault : Fault} (h : ∃ a, x = .ok a) :
    x ≠ .error fault := by
  obtain ⟨a, rfl⟩ := h
  rintro ⟨⟩

@[simp] theorem pure_eq_ok {a b : α} : (pure a : Exec α) = .ok b ↔ a = b := by
  simp [pure, Except.pure]

@[simp] theorem map_eq_ok {x : Exec α} {f : α → β} {b : β} :
    x.map f = .ok b ↔ ∃ a, x = .ok a ∧ f a = b := by
  cases x <;> simp [Except.map]

def ensure (p : Prop) [Decidable p] : Exec Unit :=
  if p then .ok () else .error .assertion

@[simp] theorem ensure_eq_ok {p : Prop} [Decidable p] {u : Unit} :
    ensure p = .ok u ↔ p := by
  unfold ensure
  split <;> simp_all

theorem ensure_of {p : Prop} [Decidable p] (hp : p) : ensure p = .ok () :=
  ensure_eq_ok.mpr hp

theorem ensure_inRange {p : Prop} [Decidable p] : ensure p ≠ .error .outOfRange := by
  unfold ensure
  split <;> rintro ⟨⟩

/-- The guard of a step: the computation is not enabled where it fails. -/
def require (p : Prop) [Decidable p] : Exec Unit :=
  if p then .ok () else .error .disabled

@[simp] theorem require_eq_ok {p : Prop} [Decidable p] {u : Unit} :
    require p = .ok u ↔ p := by
  unfold require
  split <;> simp_all

theorem require_of {p : Prop} [Decidable p] (hp : p) : require p = .ok () :=
  require_eq_ok.mpr hp

theorem require_inRange {p : Prop} [Decidable p] : require p ≠ .error .outOfRange := by
  unfold require
  split <;> rintro ⟨⟩

def fetch (xs : List α) (i : Nat) : Exec α :=
  match xs[i]? with
  | some a => .ok a
  | none => .error .outOfRange

@[simp] theorem fetch_eq_ok {xs : List α} {i : Nat} {a : α} :
    fetch xs i = .ok a ↔ xs[i]? = some a := by
  unfold fetch
  cases xs[i]? <;> simp

def store (xs : List α) (i : Nat) (a : α) : Exec (List α) :=
  if i < xs.length then .ok (xs.set i a) else .error .outOfRange

@[simp] theorem store_eq_ok {xs ys : List α} {i : Nat} {a : α} :
    store xs i a = .ok ys ↔ i < xs.length ∧ xs.set i a = ys := by
  unfold store
  split
  · rename_i hi
    simp [hi]
  · rename_i hi
    simp [hi]

theorem mapM_eq_ok_iff {f : α → Exec β} {xs : List α} {ys : List β} :
    xs.mapM f = .ok ys ↔ List.Forall₂ (fun x y => f x = .ok y) xs ys := by
  induction xs generalizing ys with
  | nil => cases ys <;> simp
  | cons x xs ih =>
      simp only [List.mapM_cons, bind_eq_ok, pure_eq_ok, ih]
      constructor
      · rintro ⟨y, hy, ys, hys, rfl⟩
        exact .cons hy hys
      · rintro (_ | ⟨hy, hys⟩)
        exact ⟨_, hy, _, hys, rfl⟩

theorem exists_of_forall₂ {R : α → β → Prop} {xs : List α} {ys : List β}
    (h : List.Forall₂ R xs ys) {x : α} (hx : x ∈ xs) : ∃ y ∈ ys, R x y := by
  induction h with
  | nil => cases hx
  | cons hhead _ ih =>
      rcases List.mem_cons.mp hx with rfl | hx
      · exact ⟨_, List.mem_cons_self, hhead⟩
      · obtain ⟨y, hy, hxy⟩ := ih hx
        exact ⟨y, List.mem_cons_of_mem _ hy, hxy⟩

theorem pairwise_of_forall₂ {R : α → β → Prop} {S : α → α → Prop} {T : β → β → Prop}
    {xs : List α} {ys : List β} (h : List.Forall₂ R xs ys) (hxs : xs.Pairwise S)
    (himp : ∀ x x' y y', R x y → R x' y' → S x x' → T y y') : ys.Pairwise T := by
  induction h with
  | nil => exact .nil
  | cons hhead htail ih =>
      obtain ⟨hfirst, hrest⟩ := List.pairwise_cons.mp hxs
      refine List.pairwise_cons.mpr ⟨fun y hy => ?_, ih hrest⟩
      obtain ⟨x, hx, hxy⟩ := exists_of_forall₂ htail.flip hy
      exact himp _ _ _ _ hhead hxy (hfirst x hx)

theorem exists_of_mapM_eq_ok {f : α → Exec β} {xs : List α} {ys : List β}
    (h : xs.mapM f = .ok ys) {x : α} (hx : x ∈ xs) : ∃ y, f x = .ok y := by
  obtain ⟨y, _, hy⟩ := exists_of_forall₂ (mapM_eq_ok_iff.mp h) hx
  exact ⟨y, hy⟩

/-- Two passes over one list whose results agree at every place. -/
theorem map_eq_of_mapM_eq_ok {γ : Type u} {f : α → Exec β} {g : α → Exec γ} {p : β → γ}
    {xs : List α} {bs : List β} {cs : List γ}
    (h : ∀ x b c, f x = .ok b → g x = .ok c → p b = c) (hf : xs.mapM f = .ok bs)
    (hg : xs.mapM g = .ok cs) : bs.map p = cs := by
  rw [mapM_eq_ok_iff] at hf hg
  induction hf generalizing cs with
  | nil =>
      cases hg
      rfl
  | cons hhead _ ih =>
      cases hg with
      | cons hhead' htail => rw [List.map_cons, h _ _ _ hhead hhead', ih htail]

theorem mapM_eq_ok_map {f : α → Exec β} {g : α → β} {xs : List α}
    (h : ∀ x ∈ xs, f x = .ok (g x)) : xs.mapM f = .ok (xs.map g) := by
  rw [mapM_eq_ok_iff, List.forall₂_map_right_iff, List.forall₂_same]
  exact h

/-- If every computation returns one known value under a condition of its own,
the sequence returns exactly when all conditions hold. -/
theorem mapM_eq_ok_iff_map {f : α → Exec β} {g : α → β} {P : α → Prop} {xs : List α}
    {ys : List β} (h : ∀ x ∈ xs, ∀ y, f x = .ok y ↔ P x ∧ y = g x) :
    xs.mapM f = .ok ys ↔ (∀ x ∈ xs, P x) ∧ ys = xs.map g := by
  induction xs generalizing ys with
  | nil => cases ys <;> simp
  | cons x xs ih =>
      have hhead := h x List.mem_cons_self
      have htail := @ih
      simp only [List.mapM_cons, bind_eq_ok, pure_eq_ok, hhead,
        htail fun y hy => h y (List.mem_cons_of_mem x hy), List.forall_mem_cons,
        List.map_cons]
      constructor
      · rintro ⟨_, ⟨hx, rfl⟩, _, ⟨hxs, rfl⟩, rfl⟩
        exact ⟨⟨hx, hxs⟩, rfl⟩
      · rintro ⟨⟨hx, hxs⟩, rfl⟩
        exact ⟨_, ⟨hx, rfl⟩, _, ⟨hxs, rfl⟩, rfl⟩

end Poncos.Library.Execution
