import Mathlib.Data.List.Basic
import Mathlib.Data.List.Infix

/-!
Regular expressions as a backtracking matcher reads them: the matches at a place in the
order in which they are tried, and the replacement of the first one, place after place.
-/

namespace Poncos.Library.Regex

inductive Expression where
  | empty
  | char (accepts : Char → Bool)
  | many (accepts : Char → Bool)
  | seq (first second : Expression)
  | group (number : Nat) (inner : Expression)

/-- A match: what it takes, what its groups took, the last one first, and what is left. -/
structure Match where
  taken : List Char
  groups : List (Nat × List Char)
  rest : List Char
  deriving DecidableEq, Repr

namespace Match

def append (first second : Match) : Match :=
  ⟨first.taken ++ second.taken, second.groups ++ first.groups, second.rest⟩

def cons (c : Char) (m : Match) : Match := { m with taken := c :: m.taken }

def mark (number : Nat) (m : Match) : Match :=
  { m with groups := (number, m.taken) :: m.groups }

/-- The same match in a longer text. -/
def extend (later : List Char) (m : Match) : Match := { m with rest := m.rest ++ later }

end Match

/-- A class any number of times, as often as possible first. -/
def longest (accepts : Char → Bool) : List Char → List Match
  | [] => [⟨[], [], []⟩]
  | c :: text =>
      (if accepts c then (longest accepts text).map (Match.cons c) else []) ++
        [⟨[], [], c :: text⟩]

def Expression.run : Expression → List Char → List Match
  | .empty, text => [⟨[], [], text⟩]
  | .char _, [] => []
  | .char accepts, c :: text => if accepts c then [⟨[c], [], text⟩] else []
  | .many accepts, text => longest accepts text
  | .seq first second, text =>
      (first.run text).flatMap fun m => (second.run m.rest).map m.append
  | .group number inner, text => (inner.run text).map (Match.mark number)

/-- A text that stands for itself. -/
def literal : List Char → Expression
  | [] => .empty
  | c :: text => .seq (.char fun d => d == c) (literal text)

def times : Nat → Expression → Expression
  | 0, _ => .empty
  | n + 1, r => .seq r (times n r)

/-- The characters of which an expression can take one. -/
def Expression.takes : Expression → Char → Bool
  | .empty, _ => false
  | .char accepts, c => accepts c
  | .many accepts, c => accepts c
  | .seq first second, c => first.takes c || second.takes c
  | .group _ inner, c => inner.takes c

section Run

variable {r : Expression} {accepts : Char → Bool} {text later : List Char} {m : Match} {c : Char}

theorem mem_run_char :
    m ∈ (Expression.char accepts).run text ↔
      ∃ c rest, text = c :: rest ∧ accepts c = true ∧ m = ⟨[c], [], rest⟩ := by
  cases text with
  | nil => simp [Expression.run]
  | cons c text =>
      rw [Expression.run]
      split
      · simp_all
      · simp_all

theorem mem_run_seq {first second : Expression} :
    m ∈ (Expression.seq first second).run text ↔
      ∃ front ∈ first.run text, ∃ back ∈ second.run front.rest, front.append back = m := by
  simp only [Expression.run, List.mem_flatMap, List.mem_map]

theorem mem_run_group {number : Nat} :
    m ∈ (Expression.group number r).run text ↔ ∃ inner ∈ r.run text, inner.mark number = m := by
  simp only [Expression.run, List.mem_map]

theorem taken_append_longest (h : m ∈ longest accepts text) : m.taken ++ m.rest = text := by
  induction text generalizing m with
  | nil =>
      rw [longest, List.mem_singleton] at h
      rw [h]
      rfl
  | cons c text ih =>
      rw [longest, List.mem_append, List.mem_singleton] at h
      rcases h with h | rfl
      · split at h
        · obtain ⟨m, hm, rfl⟩ := List.mem_map.mp h
          exact congrArg (c :: ·) (ih hm)
        · cases h
      · rfl

theorem taken_append_rest (h : m ∈ r.run text) : m.taken ++ m.rest = text := by
  induction r generalizing text m with
  | empty =>
      rw [Expression.run, List.mem_singleton] at h
      rw [h]
      rfl
  | char accepts =>
      cases text with
      | nil => cases h
      | cons c text =>
          rw [Expression.run] at h
          split at h
          · rw [List.mem_singleton.mp h]
            rfl
          · cases h
  | many accepts => exact taken_append_longest h
  | seq first second ihFirst ihSecond =>
      obtain ⟨m, hm, h⟩ := List.mem_flatMap.mp h
      obtain ⟨m', hm', rfl⟩ := List.mem_map.mp h
      rw [Match.append, List.append_assoc, ihSecond hm', ihFirst hm]
  | group number inner ih =>
      obtain ⟨m, hm, rfl⟩ := List.mem_map.mp h
      rw [← ih hm]
      rfl

theorem longest_barrier (h : accepts c = false) :
    longest accepts (text ++ c :: later) =
      (longest accepts text).map (Match.extend (c :: later)) := by
  induction text with
  | nil => simp [longest, h, Match.extend]
  | cons d text ih =>
      rw [List.cons_append, longest, longest, ih, List.map_append]
      split
      · rw [List.map_map, List.map_map]
        rfl
      · rfl

/-- A character that is in no class of an expression ends all its matches. -/
theorem run_barrier (h : r.takes c = false) :
    r.run (text ++ c :: later) = (r.run text).map (Match.extend (c :: later)) := by
  induction r generalizing text with
  | empty => rfl
  | char accepts =>
      cases text with
      | nil =>
          rw [Expression.takes] at h
          simp [Expression.run, h]
      | cons d text =>
          rw [List.cons_append, Expression.run, Expression.run]
          split <;> rfl
  | many accepts => exact longest_barrier h
  | seq first second ihFirst ihSecond =>
      rw [Expression.takes, Bool.or_eq_false_iff] at h
      rw [Expression.run, Expression.run, ihFirst h.1, List.flatMap_map, List.map_flatMap]
      refine List.flatMap_congr fun m _ => ?_
      rw [Match.extend, ihSecond h.2, List.map_map, List.map_map]
      rfl
  | group number inner ih =>
      rw [Expression.run, Expression.run, ih h, List.map_map, List.map_map]
      rfl

theorem run_literal (text later : List Char) :
    (literal text).run (text ++ later) = [⟨text, [], later⟩] := by
  induction text with
  | nil => rfl
  | cons c text ih =>
      rw [literal, List.cons_append, Expression.run, Expression.run, if_pos (beq_self_eq_true c),
        List.flatMap_singleton, ih]
      rfl

theorem run_literal_of_not {word : List Char} (h : ¬ word <+: text) :
    (literal word).run text = [] := by
  induction word generalizing text with
  | nil => exact absurd List.nil_prefix h
  | cons c word ih =>
      cases text with
      | nil => rfl
      | cons d text =>
          rw [literal, Expression.run, Expression.run]
          split
          · rename_i heq
            rw [beq_iff_eq] at heq
            rw [List.flatMap_singleton, ih, List.map_nil]
            intro hprefix
            exact h (List.cons_prefix_cons.mpr ⟨heq.symm, hprefix⟩)
          · rfl

/-- Of the lengths of a repetition only one is left where only one place goes on. -/
theorem longest_flatMap {β : Type} {f : Match → List β} {front back : List Char}
    (hfront : ∀ c ∈ front, accepts c = true)
    (hf : ∀ m : Match, m.rest <:+ front ++ back → m.rest ≠ back → f m = []) :
    (longest accepts (front ++ back)).flatMap f = f ⟨front, [], back⟩ := by
  induction front generalizing f with
  | nil =>
      cases back with
      | nil => simp [longest]
      | cons c back =>
          rw [List.nil_append, longest, List.flatMap_append, List.flatMap_singleton]
          suffices hnone : ∀ m ∈ (if accepts c then (longest accepts back).map (Match.cons c)
              else []), f m = [] by
            rw [List.flatMap_eq_nil_iff.mpr hnone, List.nil_append]
          intro m hm
          split at hm
          · obtain ⟨shorter, hshorter, rfl⟩ := List.mem_map.mp hm
            have htext := taken_append_longest hshorter
            refine hf _ ⟨c :: shorter.taken, congrArg (c :: ·) htext⟩ fun heq => ?_
            have hlength := congrArg List.length htext
            rw [List.length_append, show shorter.rest = c :: back from heq,
              List.length_cons] at hlength
            omega
          · cases hm
  | cons c front ih =>
      rw [List.forall_mem_cons] at hfront
      rw [List.cons_append, longest, if_pos hfront.1, List.flatMap_append, List.flatMap_map,
        List.flatMap_singleton, ih hfront.2, hf ⟨[], [], c :: (front ++ back)⟩ List.suffix_rfl,
        List.append_nil]
      · rfl
      · intro heq
        have hlength := congrArg List.length heq
        simp only [List.length_cons, List.length_append] at hlength
        omega
      · exact fun m hm hne => hf (Match.cons c m) (hm.trans (List.suffix_cons c _)) hne

end Run

/-- No match at any place. -/
def untouched (r : Expression) : List Char → Bool
  | [] => true
  | c :: text => (r.run (c :: text)).isEmpty && untouched r text

/-- The groups in a format: a number of one or two digits after a `$`; a `$&` is the whole
match and a `$$` is a `$`. -/
inductive Pending where
  | nothing
  | mark
  | digit (n : Nat)

def groupText (groups : List (Nat × List Char)) (n : Nat) : List Char :=
  (groups.lookup n).getD []

def expandFrom (taken : List Char) (groups : List (Nat × List Char)) :
    Pending → List Char → List Char
  | .nothing, [] => []
  | .mark, [] => ['$']
  | .digit n, [] => groupText groups n
  | .nothing, c :: format =>
      if c = '$' then expandFrom taken groups .mark format
      else c :: expandFrom taken groups .nothing format
  | .mark, c :: format =>
      if c = '$' then '$' :: expandFrom taken groups .nothing format
      else if c = '&' then taken ++ expandFrom taken groups .nothing format
      else if c.isDigit then expandFrom taken groups (.digit (c.toNat - '0'.toNat)) format
      else '$' :: c :: expandFrom taken groups .nothing format
  | .digit n, c :: format =>
      if c.isDigit then
        groupText groups (10 * n + (c.toNat - '0'.toNat)) ++
          expandFrom taken groups .nothing format
      else if c = '$' then groupText groups n ++ expandFrom taken groups .mark format
      else groupText groups n ++ c :: expandFrom taken groups .nothing format

def expand (format : List Char) (m : Match) : List Char :=
  expandFrom m.taken m.groups .nothing format

/-- From the left, every match is replaced; `skip` characters are part of the last one.  A
match that takes nothing is passed over. -/
def replaceFrom (r : Expression) (format : List Char) : Nat → List Char → List Char
  | _, [] => []
  | skip + 1, _ :: text => replaceFrom r format skip text
  | 0, c :: text =>
      match (r.run (c :: text)).head? with
      | none => c :: replaceFrom r format 0 text
      | some m =>
          if m.taken = [] then c :: replaceFrom r format 0 text
          else expand format m ++ replaceFrom r format (m.taken.length - 1) text

def replace (r : Expression) (format text : List Char) : List Char := replaceFrom r format 0 text

section Replace

variable {r : Expression} {format text later : List Char} {c : Char}

theorem replaceFrom_barrier (h : r.takes c = false) {skip : Nat} (hskip : skip ≤ text.length) :
    replaceFrom r format skip (text ++ c :: later) =
      replaceFrom r format skip text ++ c :: replaceFrom r format 0 later := by
  induction text generalizing skip with
  | nil =>
      obtain rfl := Nat.le_zero.mp hskip
      have hrun := @run_barrier r [] later c h
      rw [List.nil_append] at hrun ⊢
      rw [replaceFrom, replaceFrom, hrun, List.head?_map]
      rcases hhead : (r.run []).head? with _ | m
      · rfl
      · have htaken := taken_append_rest (List.mem_of_mem_head? hhead)
        simp only [Option.map_some, Match.extend, (List.append_eq_nil_iff.mp htaken).1,
          if_true, List.nil_append]
  | cons d text ih =>
      cases skip with
      | succ skip =>
          rw [List.cons_append, replaceFrom, replaceFrom, ih (Nat.le_of_succ_le_succ hskip)]
      | zero =>
          have hrun := @run_barrier r (d :: text) later c h
          rw [List.cons_append] at hrun ⊢
          rw [replaceFrom, replaceFrom, hrun, List.head?_map]
          rcases hhead : (r.run (d :: text)).head? with _ | m
          · simp only [Option.map_none, ih (Nat.zero_le _), List.cons_append]
          · have hlength := congrArg List.length
              (taken_append_rest (List.mem_of_mem_head? hhead))
            rw [List.length_append, List.length_cons] at hlength
            simp only [Option.map_some, Match.extend]
            split
            · rw [ih (Nat.zero_le _), List.cons_append]
            · rw [ih (by omega), List.append_assoc]
              rfl

/-- What stands before and after such a character is replaced on its own. -/
theorem replace_barrier (h : r.takes c = false) :
    replace r format (text ++ c :: later) =
      replace r format text ++ c :: replace r format later :=
  replaceFrom_barrier h (Nat.zero_le _)

theorem replace_of_untouched (h : untouched r text = true) : replace r format text = text := by
  induction text with
  | nil => rfl
  | cons c text ih =>
      rw [untouched, Bool.and_eq_true, List.isEmpty_iff] at h
      rw [replace, replaceFrom, h.1]
      exact congrArg (c :: ·) (ih h.2)

/-- Before the first match, nothing changes. -/
theorem replace_append {front : List Char}
    (h : ∀ suffix, suffix <:+ front → suffix ≠ [] → r.run (suffix ++ text) = []) :
    replace r format (front ++ text) = front ++ replace r format text := by
  induction front with
  | nil => rfl
  | cons c front ih =>
      have hnone := h (c :: front) List.suffix_rfl (List.cons_ne_nil _ _)
      rw [List.cons_append] at hnone
      rw [List.cons_append, replace, replaceFrom, hnone]
      refine congrArg (c :: ·) (ih fun suffix hsuffix => h suffix ?_)
      exact hsuffix.trans (List.suffix_cons c front)

/-- A match of the whole text. -/
theorem replace_whole {m : Match} (h : (r.run text).head? = some m) (htaken : m.taken = text)
    (hne : text ≠ []) : replace r format text = expand format m := by
  have hall : ∀ text : List Char, replaceFrom r format text.length text = [] := by
    intro text
    induction text with
    | nil => rfl
    | cons c text ih => exact ih
  obtain ⟨c, text, rfl⟩ := List.exists_cons_of_ne_nil hne
  rw [replace, replaceFrom, h]
  simp only [htaken, reduceCtorEq, if_false, List.length_cons, Nat.add_sub_cancel]
  rw [hall, List.append_nil]

/-- The lines of a text are replaced one by one. -/
theorem replace_lines (h : r.takes c = false) (lines : List (List Char)) :
    replace r format ([c].intercalate lines) =
      [c].intercalate (lines.map (replace r format)) := by
  induction lines with
  | nil => rfl
  | cons line lines ih =>
      cases lines with
      | nil => simp [List.intercalate]
      | cons next lines =>
          rw [List.map_cons] at ih
          rw [List.intercalate_cons_cons, List.append_assoc, List.singleton_append,
            replace_barrier h, ih, List.map_cons, List.map_cons, List.intercalate_cons_cons,
            List.append_assoc, List.singleton_append]

end Replace

section Expand

variable {taken name : List Char} {groups : List (Nat × List Char)}

theorem expandFrom_plain (h : '$' ∉ name) (format : List Char) :
    expandFrom taken groups .nothing (name ++ format) =
      name ++ expandFrom taken groups .nothing format := by
  induction name with
  | nil => rfl
  | cons c name ih =>
      rw [List.mem_cons, not_or] at h
      rw [List.cons_append, expandFrom, if_neg (Ne.symm h.1), ih h.2]
      rfl

/-- A text between two groups; a digit in front of it would be part of the number. -/
theorem expand_between {m : Match} (h : '$' ∉ name)
    (hdigit : ∀ c, name.head? = some c → c.isDigit = false) :
    expand ('$' :: '1' :: (name ++ ['$', '3'])) m =
      groupText m.groups 1 ++ name ++ groupText m.groups 3 := by
  have hlast : ∀ taken groups, expandFrom taken groups .nothing ['$', '3'] =
      groupText groups 3 := fun _ _ => rfl
  have hfirst : ∀ taken groups format, expandFrom taken groups .nothing ('$' :: '1' :: format) =
      expandFrom taken groups (.digit 1) format := fun _ _ _ => rfl
  rw [expand, hfirst]
  cases name with
  | nil =>
      rw [List.append_nil]
      rfl
  | cons c name =>
      rw [List.mem_cons, not_or] at h
      rw [List.cons_append, expandFrom, if_neg (by simp [hdigit c rfl]), if_neg (Ne.symm h.1),
        expandFrom_plain h.2, hlast]
      simp

theorem expand_plain {m : Match} (h : '$' ∉ name) : expand name m = name := by
  have hplain := @expandFrom_plain m.taken name m.groups h []
  rwa [List.append_nil, expandFrom, List.append_nil] at hplain

end Expand

end Poncos.Library.Regex
