import Mathlib.Data.Prod.Basic
import Mathlib.Logic.Equiv.Basic
import Poncos.Library.Execution

/-!
Two-dimensional tables stored as rows of cells.  Everything later modules need
to know about a table is said by `Grid.get?`: the write operations have their
read-over-write equation, and exchanging two cells is composition with a
transposition of the cell addresses.
-/

namespace Poncos.Library

open Poncos.Library.Execution

/-- A row index and a column index. -/
abbrev Cell := Nat × Nat

abbrev Grid (α : Type*) := List (List α)

namespace Grid

variable {α : Type*}

def get? (g : Grid α) (p : Cell) : Option α :=
  g[p.1]?.bind fun row => row[p.2]?

def put (g : Grid α) (p : Cell) (a : α) : Grid α :=
  g.modify p.1 fun row => row.set p.2 a

theorem get?_put (g : Grid α) (p q : Cell) (a : α) :
    (g.put p a).get? q = if p = q ∧ (g.get? p).isSome then some a else g.get? q := by
  rcases p with ⟨pr, pc⟩
  rcases q with ⟨qr, qc⟩
  simp only [put, get?, List.getElem?_modify, Prod.mk.injEq]
  by_cases hrow : pr = qr
  · subst hrow
    cases hg : g[pr]? with
    | none => simp
    | some row =>
        by_cases hcol : pc = qc
        · subst hcol
          by_cases hlt : pc < row.length
          · simp [hlt]
          · simp [hlt]
        · simp [hcol]
  · simp [hrow]

theorem get?_put_self {g : Grid α} {p : Cell} (a : α) (hp : (g.get? p).isSome) :
    (g.put p a).get? p = some a := by
  simp [get?_put, hp]

theorem get?_put_of_ne {g : Grid α} {p q : Cell} (a : α) (hne : p ≠ q) :
    (g.put p a).get? q = g.get? q := by
  simp [get?_put, hne]

@[simp] theorem isSome_get?_put (g : Grid α) (p q : Cell) (a : α) :
    ((g.put p a).get? q).isSome = (g.get? q).isSome := by
  rw [get?_put]
  split
  · rename_i h
    rw [← h.1, h.2]
    rfl
  · rfl

@[simp] theorem length_put (g : Grid α) (p : Cell) (a : α) :
    (g.put p a).length = g.length := by
  simp [put]

theorem getElem?_put_of_ne {g : Grid α} {p : Cell} {r : Nat} (a : α) (hr : p.1 ≠ r) :
    (g.put p a)[r]? = g[r]? := by
  simp [put, hr]

theorem get?_eq_some_iff {g : Grid α} {p : Cell} {a : α} :
    g.get? p = some a ↔ ∃ row, g[p.1]? = some row ∧ row[p.2]? = some a := by
  simp [get?, Option.bind_eq_some_iff]

theorem get?_of_row {g : Grid α} {r : Nat} {row : List α} (hrow : g[r]? = some row)
    (m : Nat) : g.get? (r, m) = row[m]? := by
  simp [get?, hrow]

theorem row_eq_of_get? {g : Grid α} {r : Nat} {row : List α} (hr : r < g.length)
    (hcells : ∀ m, g.get? (r, m) = row[m]?) : g[r]? = some row := by
  rw [List.getElem?_eq_getElem hr, Option.some_inj]
  apply List.ext_getElem?
  intro m
  rw [← hcells m, get?_of_row (List.getElem?_eq_getElem hr)]

def read (g : Grid α) (p : Cell) : Exec α :=
  match g.get? p with
  | some a => .ok a
  | none => .error .outOfRange

@[simp] theorem read_eq_ok {g : Grid α} {p : Cell} {a : α} :
    g.read p = .ok a ↔ g.get? p = some a := by
  unfold read
  cases g.get? p <;> simp

def swap (g : Grid α) (p q : Cell) : Exec (Grid α) := do
  let a ← g.read p
  let b ← g.read q
  .ok ((g.put p b).put q a)

theorem swap_ok_of_isSome {g : Grid α} {p q : Cell} (hp : (g.get? p).isSome)
    (hq : (g.get? q).isSome) : ∃ g', g.swap p q = .ok g' := by
  obtain ⟨a, ha⟩ := Option.isSome_iff_exists.mp hp
  obtain ⟨b, hb⟩ := Option.isSome_iff_exists.mp hq
  exact ⟨(g.put p b).put q a, by simp [swap, ha, hb]⟩

theorem isSome_of_swap {g g' : Grid α} {p q : Cell} (h : g.swap p q = .ok g') :
    (g.get? p).isSome ∧ (g.get? q).isSome := by
  simp only [swap, bind_eq_ok, read_eq_ok] at h
  obtain ⟨a, ha, b, hb, _⟩ := h
  exact ⟨by simp [ha], by simp [hb]⟩

/-- Exchanging two cells composes the table with a transposition. -/
theorem get?_swap {g g' : Grid α} {p q : Cell} (h : g.swap p q = .ok g') (x : Cell) :
    g'.get? x = g.get? (Equiv.swap p q x) := by
  simp only [swap, bind_eq_ok, read_eq_ok] at h
  obtain ⟨a, ha, b, hb, h⟩ := h
  cases h
  rw [get?_put, isSome_get?_put, get?_put]
  by_cases hxq : q = x
  · subst hxq
    simp [ha, hb]
  · by_cases hxp : p = x
    · subst hxp
      simp [ha, hb, hxq]
    · rw [Equiv.swap_apply_of_ne_of_ne (Ne.symm hxp) (Ne.symm hxq)]
      simp [hxp, hxq]

theorem isSome_get?_swap {g g' : Grid α} {p q : Cell} (h : g.swap p q = .ok g')
    (x : Cell) : (g'.get? x).isSome = (g.get? x).isSome := by
  simp only [swap, bind_eq_ok, read_eq_ok] at h
  obtain ⟨a, _, b, _, h⟩ := h
  cases h
  simp

theorem length_swap {g g' : Grid α} {p q : Cell} (h : g.swap p q = .ok g') :
    g'.length = g.length := by
  simp only [swap, bind_eq_ok, read_eq_ok] at h
  obtain ⟨a, _, b, _, h⟩ := h
  cases h
  simp

theorem getElem?_swap_of_ne {g g' : Grid α} {p q : Cell} (h : g.swap p q = .ok g')
    {r : Nat} (hp : p.1 ≠ r) (hq : q.1 ≠ r) : g'[r]? = g[r]? := by
  simp only [swap, bind_eq_ok, read_eq_ok] at h
  obtain ⟨a, _, b, _, h⟩ := h
  cases h
  rw [getElem?_put_of_ne a hq, getElem?_put_of_ne b hp]

structure Rectangular (g : Grid α) (rows columns : Nat) : Prop where
  length_eq : g.length = rows
  row_length : ∀ row ∈ g, row.length = columns

theorem Rectangular.isSome_iff {g : Grid α} {rows columns : Nat}
    (hg : g.Rectangular rows columns) (p : Cell) :
    (g.get? p).isSome ↔ p.1 < rows ∧ p.2 < columns := by
  unfold get?
  cases hrow : g[p.1]? with
  | none =>
      have hp : g.length ≤ p.1 := List.getElem?_eq_none_iff.mp hrow
      have hlen := hg.length_eq
      constructor
      · simp
      · rintro ⟨hlt, _⟩
        omega
  | some row =>
      obtain ⟨hp, hmem⟩ := List.getElem?_eq_some_iff.mp hrow
      have hlen := hg.length_eq
      have hcols := hg.row_length row (hmem ▸ List.getElem_mem hp)
      simp only [Option.bind_some, isSome_getElem?, hcols]
      exact ⟨fun h => ⟨by omega, h⟩, fun h => h.2⟩

theorem Rectangular.put {g : Grid α} {rows columns : Nat}
    (hg : g.Rectangular rows columns) (p : Cell) (a : α) :
    (g.put p a).Rectangular rows columns := by
  refine ⟨by simp [hg.length_eq], ?_⟩
  intro row hrow
  obtain ⟨i, hi, rfl⟩ := List.mem_iff_getElem.mp hrow
  simp only [Grid.put, List.getElem_modify]
  simp only [length_put] at hi
  split
  · simpa using hg.row_length _ (List.getElem_mem hi)
  · exact hg.row_length _ (List.getElem_mem hi)

theorem Rectangular.swap {g g' : Grid α} {rows columns : Nat}
    (hg : g.Rectangular rows columns) {p q : Cell} (h : g.swap p q = .ok g') :
    g'.Rectangular rows columns := by
  simp only [Grid.swap, bind_eq_ok, read_eq_ok] at h
  obtain ⟨a, _, b, _, h⟩ := h
  cases h
  exact (hg.put p b).put q a

theorem rectangular_replicate (rows : Nat) (row : List α) :
    Rectangular (List.replicate rows row) rows row.length :=
  ⟨by simp, fun r hr => by rw [(List.mem_replicate.mp hr).2]⟩

end Grid

end Poncos.Library
