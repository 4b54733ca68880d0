import Mathlib.Algebra.Group.Nat.Defs
import Mathlib.Data.List.Forall2

/-!
Documents as trees of scalars, sequences and maps, what is emitted into a map and loaded
from it key by key, and the two directions of a conversion together: what was emitted is
loaded as it was, and what is accepted is a value that can be emitted.
-/

namespace Poncos.Library.Document

inductive Node where
  | null
  | scalar (text : String)
  | sequence (items : List Node)
  | map (entries : List (String × Node))

/-- Why a document is not loaded. -/
inductive LoadError where
  | badSubscript
  | badConversion
  | invalidNode
  | runtime (what : String)
  deriving DecidableEq, Repr

abbrev Load := Except LoadError

section Load

variable {α β : Type} {x : Load α} {f : α → Load β}

theorem load_bind_ok {b : β} : (x >>= f) = .ok b ↔ ∃ a, x = .ok a ∧ f a = .ok b := by
  cases x <;> simp [bind, Except.bind]

theorem map_some_eq_ok {a : α} : some <$> x = .ok (some a) ↔ x = .ok a := by
  cases x <;> simp [Functor.map, Except.map]

theorem load_bind_of {a : α} (hx : x = .ok a) : (x >>= f) = f a := by
  subst hx
  rfl

end Load

/-- The value under a key; a scalar has no keys to ask for. -/
def Node.get : Node → String → Load (Option Node)
  | .scalar _, _ => .error .badSubscript
  | .map entries, key => .ok (entries.lookup key)
  | .null, _ => .ok none
  | .sequence _, _ => .ok none

/-- A map while it is filled: a new node is no map before it has its first entry. -/
abbrev Entries := List (String × Node)

namespace Entries

def node : Entries → Node
  | [] => .null
  | entries => .map entries

def get? (entries : Entries) (key : String) : Option Node := entries.lookup key

/-- An entry that exists keeps its place. -/
def set (entries : Entries) (key : String) (value : Node) : Entries :=
  match entries with
  | [] => [(key, value)]
  | entry :: rest =>
      if entry.1 = key then (key, value) :: rest else entry :: set rest key value

/-- Only what is missing is added. -/
def merge (lhs : Entries) : Entries → Entries
  | [] => lhs
  | entry :: rest =>
      merge (if (lhs.get? entry.1).isSome then lhs else lhs.set entry.1 entry.2) rest

@[simp] theorem get?_nil (key : String) : get? [] key = none := rfl

@[simp] theorem get?_cons (entry : String × Node) (rest : Entries) (key : String) :
    get? (entry :: rest) key = if key = entry.1 then some entry.2 else get? rest key := by
  rw [get?, List.lookup_cons]
  split <;> split <;> simp_all [get?]

@[simp] theorem get?_set (entries : Entries) (key : String) (value : Node) (key' : String) :
    (entries.set key value).get? key' = if key' = key then some value else entries.get? key' := by
  induction entries with
  | nil => rw [set, get?_cons]
  | cons entry rest ih =>
      rw [set]
      split
      · rename_i hkey
        rw [get?_cons, get?_cons, hkey]
        split <;> rfl
      · rename_i hkey
        rw [get?_cons, get?_cons, ih]
        split
        · rename_i hkey'
          rw [if_neg (hkey' ▸ hkey)]
        · rfl

@[simp] theorem get?_merge (lhs rhs : Entries) (key : String) :
    (lhs.merge rhs).get? key = (lhs.get? key).or (rhs.get? key) := by
  induction rhs generalizing lhs with
  | nil => rw [merge, get?_nil, Option.or_none]
  | cons entry rest ih =>
      rw [merge, ih, get?_cons]
      rcases Classical.em (key = entry.1) with rfl | hkey
      · split
        · rename_i hsome
          obtain ⟨value, hvalue⟩ := Option.isSome_iff_exists.mp hsome
          rw [hvalue, Option.some_or, Option.some_or]
        · rename_i hnone
          rw [Option.not_isSome_iff_eq_none.mp hnone, get?_set, if_pos rfl, if_pos rfl,
            Option.some_or, Option.none_or]
      · rw [if_neg hkey]
        split
        · rfl
        · rw [get?_set, if_neg hkey]

@[simp] theorem get?_ite {p : Prop} [Decidable p] (lhs rhs : Entries) (key : String) :
    (if p then lhs else rhs).get? key = if p then lhs.get? key else rhs.get? key := by
  split <;> rfl

@[simp] theorem get_node (entries : Entries) (key : String) :
    entries.node.get key = .ok (entries.get? key) := by
  cases entries <;> rfl

end Entries

/-- A type with its two conversions, and the values that exist in the code.  `decode`
gives nothing where the conversion is refused, and fails where it raises an error. -/
structure Codec (α : Type) where
  encode : α → Node
  decode : Node → Load (Option α)
  Valid : α → Prop
  decode_encode : ∀ a, Valid a → decode (encode a) = .ok (some a)
  valid_of_decode : ∀ node a, decode node = .ok (some a) → Valid a

namespace Codec

variable {α : Type}

/-- The value of a node; a refusal is an error. -/
def as (codec : Codec α) (node : Node) : Load α := do
  match ← codec.decode node with
  | some a => .ok a
  | none => .error .badConversion

/-- A refusal gives the fallback. -/
def asOr (codec : Codec α) (fallback : α) (node : Node) : Load α := do
  match ← codec.decode node with
  | some a => .ok a
  | none => .ok fallback

variable (codec : Codec α)

theorem as_encode {a : α} (ha : codec.Valid a) : codec.as (codec.encode a) = .ok a := by
  rw [as, codec.decode_encode a ha]
  rfl

theorem asOr_encode {a : α} (ha : codec.Valid a) (fallback : α) :
    codec.asOr fallback (codec.encode a) = .ok a := by
  rw [asOr, codec.decode_encode a ha]
  rfl

variable {codec}

theorem valid_of_as {node : Node} {a : α} (h : codec.as node = .ok a) : codec.Valid a := by
  simp only [as, load_bind_ok] at h
  obtain ⟨b, hdecode, h⟩ := h
  cases b with
  | none => cases h
  | some b =>
      cases h
      exact codec.valid_of_decode node _ hdecode

theorem valid_of_asOr {node : Node} {a fallback : α} (hfallback : codec.Valid fallback)
    (h : codec.asOr fallback node = .ok a) : codec.Valid a := by
  simp only [asOr, load_bind_ok] at h
  obtain ⟨b, hdecode, h⟩ := h
  cases b with
  | none =>
      cases h
      exact hfallback
  | some b =>
      cases h
      exact codec.valid_of_decode node _ hdecode

end Codec

def Codec.string : Codec String where
  encode := .scalar
  decode
    | .scalar text => .ok (some text)
    | _ => .ok none
  Valid _ := True
  decode_encode _ _ := rfl
  valid_of_decode _ _ _ := trivial

section Compound

variable {α : Type}

theorem mapM_as_encode (codec : Codec α) {xs : List α} (hxs : ∀ x ∈ xs, codec.Valid x) :
    (xs.map codec.encode).mapM codec.as = .ok xs := by
  induction xs with
  | nil => rfl
  | cons x xs ih =>
      rw [List.map_cons, List.mapM_cons,
        load_bind_of (codec.as_encode (hxs x List.mem_cons_self)),
        load_bind_of (ih fun y hy => hxs y (List.mem_cons_of_mem x hy))]
      rfl

theorem valid_of_mapM_as {codec : Codec α} {nodes : List Node} {xs : List α}
    (h : nodes.mapM codec.as = .ok xs) : ∀ x ∈ xs, codec.Valid x := by
  induction nodes generalizing xs with
  | nil =>
      cases h
      simp
  | cons node nodes ih =>
      simp only [List.mapM_cons, load_bind_ok] at h
      obtain ⟨y, hy, ys, hys, h⟩ := h
      cases h
      intro x hx
      rcases List.mem_cons.mp hx with rfl | hx
      · exact Codec.valid_of_as hy
      · exact ih hys x hx

/-- An element that is refused is an error. -/
def Codec.vector (codec : Codec α) : Codec (List α) where
  encode xs := .sequence (xs.map codec.encode)
  decode
    | .sequence items => some <$> items.mapM codec.as
    | _ => .ok none
  Valid xs := ∀ x ∈ xs, codec.Valid x
  decode_encode _ hxs := map_some_eq_ok.mpr (mapM_as_encode codec hxs)
  valid_of_decode node _ h := by
    cases node with
    | sequence items => exact valid_of_mapM_as (map_some_eq_ok.mp h)
    | _ => cases h

theorem mapM_as_eq_ok {codec : Codec α} {items : List Node} {xs : List α} :
    items.mapM codec.as = .ok xs ↔
      List.Forall₂ (fun item x => codec.as item = .ok x) items xs := by
  induction items generalizing xs with
  | nil =>
      rw [List.mapM_nil, List.forall₂_nil_left_iff]
      exact ⟨fun h => (Except.ok.inj h).symm, fun h => h ▸ rfl⟩
  | cons item items ih =>
      simp only [List.mapM_cons, load_bind_ok, List.forall₂_cons_left_iff, ih]
      constructor
      · rintro ⟨x, hx, rest, hrest, h⟩
        cases h
        exact ⟨x, rest, hx, hrest, rfl⟩
      · rintro ⟨x, rest, hx, hrest, rfl⟩
        exact ⟨x, hx, rest, hrest, rfl⟩

/-- A sequence is accepted as a whole: its items one for one and in order. -/
theorem vector_as {codec : Codec α} {node : Node} {xs : List α} :
    (Codec.vector codec).as node = .ok xs ↔ ∃ items, node = .sequence items ∧
      List.Forall₂ (fun item x => codec.as item = .ok x) items xs := by
  rw [Codec.as, Codec.vector]
  cases node with
  | sequence items =>
      simp only [Node.sequence.injEq, exists_eq_left', ← mapM_as_eq_ok]
      cases items.mapM codec.as <;> simp [Functor.map, Except.map, bind, Except.bind]
  | _ => simp [bind, Except.bind]

/-- A record emitted into a map and loaded from it: whatever `load` raises is a refusal. -/
def Codec.record (emit : α → Entries) (load : Node → Load α) (Valid : α → Prop)
    (hload : ∀ a, Valid a → load (emit a).node = .ok a)
    (hvalid : ∀ node a, load node = .ok a → Valid a) : Codec α where
  encode a := (emit a).node
  decode node :=
    match load node with
    | .ok a => .ok (some a)
    | .error _ => .ok none
  Valid := Valid
  decode_encode a ha := by rw [hload a ha]
  valid_of_decode node a h := by
    split at h
    · rename_i b hb
      cases h
      exact hvalid node _ hb
    · cases h

theorem as_record {emit : α → Entries} {load : Node → Load α} {Valid : α → Prop}
    {hload : ∀ a, Valid a → load (emit a).node = .ok a}
    {hvalid : ∀ node a, load node = .ok a → Valid a} {node : Node} {a : α} :
    (Codec.record emit load Valid hload hvalid).as node = .ok a ↔ load node = .ok a := by
  rw [Codec.as, Codec.record]
  cases h : load node <;> simp [h, load_bind_ok]

end Compound

section Fields

variable {α : Type} {codec : Codec α} {entries : Entries} {key : String}

/-- The value under a key that has to be there. -/
def loadField (codec : Codec α) (node : Node) (key : String) : Load α := do
  match ← node.get key with
  | some value => codec.as value
  | none => .error .invalidNode

/-- The value under a key, or the fallback. -/
def loadFieldOr (codec : Codec α) (fallback : α) (node : Node) (key : String) : Load α := do
  match ← node.get key with
  | some value => codec.asOr fallback value
  | none => .ok fallback

/-- An entry for a value that is set. -/
def emitOptional (codec : Codec α) (tag : String) : Option α → Entries
  | some value => [(tag, codec.encode value)]
  | none => []

/-- A missing key leaves the value as it was. -/
def loadOptional (codec : Codec α) (old : Option α) (node : Node) (tag : String) :
    Load (Option α) := do
  match ← node.get tag with
  | some value => some <$> codec.as value
  | none => .ok old

@[simp] theorem get?_emitOptional (tag : String) (value : Option α) :
    (emitOptional codec tag value).get? key =
      if key = tag then value.map codec.encode else none := by
  cases value <;> simp [emitOptional]

theorem loadField_of (value : α) (h : entries.get? key = some (codec.encode value))
    (hvalue : codec.Valid value) : loadField codec entries.node key = .ok value := by
  rw [loadField, Entries.get_node, load_bind_of rfl, h]
  exact codec.as_encode hvalue

theorem loadField_eq_ok {node : Node} {value : α} : loadField codec node key = .ok value ↔
    ∃ found, node.get key = .ok (some found) ∧ codec.as found = .ok value := by
  rw [loadField]
  rcases node.get key with _ | _ | found <;> simp [bind, Except.bind]

theorem loadFieldOr_of (value : α) {fallback : α} (h : entries.get? key = some (codec.encode value))
    (hvalue : codec.Valid value) : loadFieldOr codec fallback entries.node key = .ok value := by
  rw [loadFieldOr, Entries.get_node, load_bind_of rfl, h]
  exact codec.asOr_encode hvalue fallback

theorem loadFieldOr_none {fallback : α} (h : entries.get? key = none) :
    loadFieldOr codec fallback entries.node key = .ok fallback := by
  rw [loadFieldOr, Entries.get_node, load_bind_of rfl, h]

theorem loadOptional_of (value : Option α) (h : entries.get? key = value.map codec.encode)
    (hvalue : ∀ a ∈ value, codec.Valid a) :
    loadOptional codec none entries.node key = .ok value := by
  rw [loadOptional, Entries.get_node, load_bind_of rfl, h]
  cases value with
  | none => rfl
  | some a => exact map_some_eq_ok.mpr (codec.as_encode (hvalue a rfl))

theorem valid_of_loadField {node : Node} {value : α} (h : loadField codec node key = .ok value) :
    codec.Valid value := by
  simp only [loadField, load_bind_ok] at h
  obtain ⟨found, _, h⟩ := h
  cases found with
  | none => cases h
  | some found => exact Codec.valid_of_as h

theorem valid_of_loadFieldOr {node : Node} {value fallback : α}
    (hfallback : codec.Valid fallback) (h : loadFieldOr codec fallback node key = .ok value) :
    codec.Valid value := by
  simp only [loadFieldOr, load_bind_ok] at h
  obtain ⟨found, _, h⟩ := h
  cases found with
  | none =>
      cases h
      exact hfallback
  | some found => exact Codec.valid_of_asOr hfallback h

theorem valid_of_loadOptional {node : Node} {old value : Option α}
    (hold : ∀ a ∈ old, codec.Valid a) (h : loadOptional codec old node key = .ok value) :
    ∀ a ∈ value, codec.Valid a := by
  simp only [loadOptional, load_bind_ok] at h
  obtain ⟨found, _, h⟩ := h
  cases found with
  | none =>
      cases h
      exact hold
  | some found =>
      rintro a rfl
      exact Codec.valid_of_as (map_some_eq_ok.mp h)

end Fields

end Poncos.Library.Document
