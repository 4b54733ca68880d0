import Mathlib.Data.List.Forall2
import Mathlib.Data.List.Basic

/-!
Topics and the regular expressions made from them.  A filter is compared with a topic as
an expression over characters, while its wildcards are meant for the levels between the
slashes.
-/

namespace Poncos.Mqtt

/-- What a character of a filter becomes: itself, `.`, `[^/]*`, or
`[^/]*(?:/[^/]*)*$`. -/
inductive Item where
  | literal (c : Char)
  | any
  | segment
  | rest
  deriving DecidableEq, Repr

/-- The other characters with a meaning in an expression. -/
def syntaxCharacters : List Char := ['^', '$', '\\', '*', '?', '(', ')', '[', ']', '{', '}', '|']

def Item.ofChar (c : Char) : Option Item :=
  if c = '+' then some .segment
  else if c = '#' then some .rest
  else if c = '.' then some .any
  else if c ∈ syntaxCharacters then none
  else some (.literal c)

/-- `topic_to_regex`, for filters without the other syntax characters. -/
def topicToRegex (topic : String) : Option (List Item) := topic.toList.mapM Item.ofChar

/-- What `[^/]*` may leave of a text. -/
def afterSegment : List Char → List (List Char)
  | [] => [[]]
  | c :: text => (c :: text) :: if c = '/' then [] else afterSegment text

/-- `std::regex_match`.  The dot takes no line break, and nothing is left after the
anchor. -/
def regexMatch : List Item → List Char → Bool
  | [], text => text.isEmpty
  | .segment :: items, text => (afterSegment text).any fun left => regexMatch items left
  | .rest :: items, _ => regexMatch items []
  | .literal _ :: _, [] => false
  | .literal c :: items, d :: text => c == d && regexMatch items text
  | .any :: _, [] => false
  | .any :: items, d :: text => d != '\n' && d != '\r' && regexMatch items text

section Matching

variable {items : List Item} {text : List Char}

theorem mem_afterSegment {left : List Char} :
    left ∈ afterSegment text ↔ ∃ level, '/' ∉ level ∧ text = level ++ left := by
  induction text with
  | nil =>
      simp only [afterSegment, List.mem_singleton]
      constructor
      · rintro rfl
        exact ⟨[], List.not_mem_nil, rfl⟩
      · rintro ⟨level, _, h⟩
        exact (List.append_eq_nil_iff.mp h.symm).2
  | cons c text ih =>
      rw [afterSegment, List.mem_cons]
      constructor
      · rintro (rfl | h)
        · exact ⟨[], List.not_mem_nil, rfl⟩
        · split at h
          · cases h
          · rename_i hc
            obtain ⟨level, hlevel, rfl⟩ := ih.mp h
            exact ⟨c :: level, by simp [hlevel, Ne.symm hc], rfl⟩
      · rintro ⟨level, hlevel, h⟩
        cases level with
        | nil => exact .inl h.symm
        | cons d level =>
            obtain ⟨rfl, rfl⟩ := List.cons_eq_cons.mp h
            rw [List.mem_cons, not_or] at hlevel
            rw [if_neg (Ne.symm hlevel.1)]
            exact .inr (ih.mpr ⟨level, hlevel.2, rfl⟩)

theorem regexMatch_nil : regexMatch [] text = true ↔ text = [] := by
  rw [regexMatch, List.isEmpty_iff]

theorem regexMatch_segment : regexMatch (.segment :: items) text = true ↔
    ∃ level left, '/' ∉ level ∧ text = level ++ left ∧ regexMatch items left = true := by
  rw [regexMatch, List.any_eq_true]
  constructor
  · rintro ⟨left, hleft, h⟩
    obtain ⟨level, hlevel, htext⟩ := mem_afterSegment.mp hleft
    exact ⟨level, left, hlevel, htext, h⟩
  · rintro ⟨level, left, hlevel, htext, h⟩
    exact ⟨left, mem_afterSegment.mpr ⟨level, hlevel, htext⟩, h⟩

theorem regexMatch_literal {c : Char} : regexMatch (.literal c :: items) text = true ↔
    ∃ left, text = c :: left ∧ regexMatch items left = true := by
  cases text with
  | nil => simp [regexMatch]
  | cons d text =>
      simp only [regexMatch, Bool.and_eq_true, beq_iff_eq, List.cons_eq_cons]
      constructor
      · rintro ⟨rfl, h⟩
        exact ⟨text, ⟨rfl, rfl⟩, h⟩
      · rintro ⟨left, ⟨rfl, rfl⟩, h⟩
        exact ⟨rfl, h⟩

theorem regexMatch_literals {name : List Char} :
    regexMatch (name.map .literal ++ items) text = true ↔
      ∃ left, text = name ++ left ∧ regexMatch items left = true := by
  induction name generalizing text with
  | nil => simp
  | cons c name ih =>
      rw [List.map_cons, List.cons_append, regexMatch_literal]
      constructor
      · rintro ⟨left, rfl, h⟩
        obtain ⟨left, rfl, hleft⟩ := ih.mp h
        exact ⟨left, rfl, hleft⟩
      · rintro ⟨left, htext, h⟩
        exact ⟨name ++ left, htext, ih.mpr ⟨left, rfl, h⟩⟩

end Matching

/-- A level of a filter. -/
inductive Level where
  | name (text : List Char)
  | single
  | multi
  deriving DecidableEq, Repr

def Level.text : Level → List Char
  | .name text => text
  | .single => ['+']
  | .multi => ['#']

/-- A character that stands for itself, inside a level. -/
def IsPlain (c : Char) : Prop := c ≠ '/' ∧ Item.ofChar c = some (.literal c)

instance : DecidablePred IsPlain := fun _ => inferInstanceAs (Decidable (_ ∧ _))

/-- The levels of a filter: there is one, and only the last may be `#`. -/
def WellFormed : List Level → Prop
  | [] => False
  | level :: filter =>
      (∀ text, level = .name text → ∀ c ∈ text, IsPlain c) ∧
        (filter ≠ [] → level ≠ .multi ∧ WellFormed filter)

/-- What a filter is meant for.  `#` stands for the levels from its place on, and for
none of them as well. -/
def Covers : List Level → List (List Char) → Prop
  | [], levels => levels = []
  | .name text :: filter, levels => ∃ rest, levels = text :: rest ∧ Covers filter rest
  | .single :: filter, levels => ∃ level rest, levels = level :: rest ∧ Covers filter rest
  | .multi :: _, _ => True

def filterText (filter : List Level) : List Char := ['/'].intercalate (filter.map Level.text)

theorem filterText_cons {level : Level} {filter : List Level} (h : filter ≠ []) :
    filterText (level :: filter) = level.text ++ '/' :: filterText filter := by
  obtain ⟨next, filter, rfl⟩ := List.exists_cons_of_ne_nil h
  simp [filterText, List.intercalate]

theorem filterText_singleton {level : Level} : filterText [level] = level.text := by
  simp [filterText, List.intercalate]

theorem mapM_plain {name : List Char} (h : ∀ c ∈ name, IsPlain c) :
    name.mapM Item.ofChar = some (name.map .literal) := by
  induction name with
  | nil => rfl
  | cons c name ih =>
      rw [List.forall_mem_cons] at h
      simp [List.mapM_cons, h.1.2, ih h.2]

/-- A topic is one level, or one level and a slash before the others. -/
theorem splitOn_cases (text : List Char) :
    ('/' ∉ text ∧ text.splitOn '/' = [text]) ∨
      ∃ level left, '/' ∉ level ∧ text = level ++ '/' :: left ∧
        text.splitOn '/' = level :: left.splitOn '/' := by
  rcases Classical.em ('/' ∈ text) with h | h
  · obtain ⟨level, left, rfl, hlevel⟩ := List.eq_append_cons_of_mem h
    exact .inr ⟨level, left, hlevel, rfl, List.splitOn_append_cons_self_of_not_mem hlevel left⟩
  · exact .inl ⟨h, List.splitOn_eq_singleton h⟩

/-- What a level but `#` takes of a topic. -/
def Level.Takes : Level → List Char → Prop
  | .name text, level => level = text
  | .single, _ => True
  | .multi, _ => False

def Level.items : Level → List Item
  | .name text => text.map .literal
  | .single => [.segment]
  | .multi => [.rest]

theorem Level.mapM_text {level : Level} (h : ∀ text, level = .name text → ∀ c ∈ text, IsPlain c) :
    level.text.mapM Item.ofChar = some level.items := by
  cases level with
  | name text => exact mapM_plain (h text rfl)
  | single => rfl
  | multi => rfl

theorem covers_cons {level : Level} {filter : List Level} {text : List Char}
    {levels : List (List Char)} (h : level ≠ .multi) :
    Covers (level :: filter) (text :: levels) ↔ level.Takes text ∧ Covers filter levels := by
  cases level with
  | name name =>
      simp only [Covers, Level.Takes, List.cons_eq_cons]
      constructor
      · rintro ⟨rest, ⟨rfl, rfl⟩, h⟩
        exact ⟨rfl, h⟩
      · rintro ⟨rfl, hcovers⟩
        exact ⟨levels, ⟨rfl, rfl⟩, hcovers⟩
  | single =>
      simp only [Covers, Level.Takes, List.cons_eq_cons, true_and]
      constructor
      · rintro ⟨_, rest, ⟨rfl, rfl⟩, h⟩
        exact h
      · intro h
        exact ⟨text, levels, ⟨rfl, rfl⟩, h⟩
  | multi => exact absurd rfl h

/-- An expression that begins with a level and a slash takes the first level of a topic. -/
theorem regexMatch_level {level : Level} {items : List Item} {text : List Char}
    (hplain : ∀ text, level = .name text → ∀ c ∈ text, IsPlain c) (h : level ≠ .multi) :
    regexMatch (level.items ++ .literal '/' :: items) text = true ↔
      ∃ taken left, '/' ∉ taken ∧ text = taken ++ '/' :: left ∧ level.Takes taken ∧
        regexMatch items left = true := by
  cases level with
  | name name =>
      rw [Level.items, regexMatch_literals]
      simp only [regexMatch_literal, Level.Takes]
      constructor
      · rintro ⟨_, rfl, left, rfl, hmatch⟩
        exact ⟨name, left, fun hslash => (hplain name rfl _ hslash).1 rfl, rfl, rfl, hmatch⟩
      · rintro ⟨_, left, _, rfl, rfl, hmatch⟩
        exact ⟨_, rfl, left, rfl, hmatch⟩
  | single =>
      rw [Level.items, List.singleton_append, regexMatch_segment]
      simp only [regexMatch_literal, Level.Takes, true_and]
      constructor
      · rintro ⟨taken, _, htaken, rfl, left, rfl, hmatch⟩
        exact ⟨taken, left, htaken, rfl, hmatch⟩
      · rintro ⟨taken, left, htaken, rfl, hmatch⟩
        exact ⟨taken, _, htaken, rfl, left, rfl, hmatch⟩
  | multi => exact absurd rfl h

theorem regexMatch_last {level : Level} {text : List Char}
    (hplain : ∀ text, level = .name text → ∀ c ∈ text, IsPlain c) :
    regexMatch level.items text = true ↔
      Covers [level] (text.splitOn '/') ∧ 1 ≤ (text.splitOn '/').length := by
  have hlength : 1 ≤ (text.splitOn '/').length :=
    List.length_pos_of_ne_nil (List.splitOn_ne_nil '/' text)
  rw [and_iff_left hlength]
  have hsingle : ∀ taken, '/' ∉ taken → (text.splitOn '/' = [taken] ↔ text = taken) := by
    intro taken htaken
    constructor
    · intro h
      rw [← @List.intercalate_splitOn _ text _ _ '/', h]
      simp [List.intercalate]
    · rintro rfl
      exact List.splitOn_eq_singleton htaken
  cases level with
  | name name =>
      have hname : '/' ∉ name := fun hslash => (hplain name rfl _ hslash).1 rfl
      rw [Level.items, ← List.append_nil (name.map _), regexMatch_literals]
      simp only [regexMatch_nil, Covers, exists_eq_right, hsingle name hname, List.append_nil]
  | single =>
      rw [Level.items, regexMatch_segment]
      simp only [regexMatch_nil, Covers]
      constructor
      · rintro ⟨taken, _, htaken, rfl, rfl⟩
        rw [List.append_nil] at *
        exact ⟨taken, [], List.splitOn_eq_singleton htaken, rfl⟩
      · rintro ⟨taken, _, hsplit, rfl⟩
        rcases splitOn_cases text with ⟨htext, _⟩ | ⟨_, left, _, _, hsplit'⟩
        · exact ⟨text, [], htext, (List.append_nil text).symm, rfl⟩
        · rw [hsplit'] at hsplit
          exact absurd (List.cons_eq_cons.mp hsplit).2 (List.splitOn_ne_nil '/' left)
  | multi => simp [Level.items, regexMatch, Covers]

/-- A filter whose wildcards fill their levels is compared with the topics it is meant
for, but for the topics that have fewer levels than the filter. -/
theorem regexMatch_covers {filter : List Level} (h : WellFormed filter) :
    ∃ items, (filterText filter).mapM Item.ofChar = some items ∧ ∀ text : List Char,
      regexMatch items text = true ↔
        Covers filter (text.splitOn '/') ∧ filter.length ≤ (text.splitOn '/').length := by
  induction filter with
  | nil => exact absurd h id
  | cons level filter ih =>
      rcases Classical.em (filter = []) with rfl | hne
      · rw [filterText_singleton]
        exact ⟨level.items, Level.mapM_text h.1, fun text => regexMatch_last h.1⟩
      · obtain ⟨hmulti, hrest⟩ := h.2 hne
        obtain ⟨items, hitems, hmatch⟩ := ih hrest
        refine ⟨level.items ++ .literal '/' :: items, ?_, fun text => ?_⟩
        · rw [filterText_cons hne, List.mapM_append, Level.mapM_text h.1, List.mapM_cons, hitems]
          rfl
        · rw [regexMatch_level h.1 hmulti]
          have hpos : 0 < filter.length := List.length_pos_of_ne_nil hne
          rcases splitOn_cases text with ⟨htext, hsplit⟩ | ⟨taken, left, htaken, rfl, hsplit⟩
          · rw [hsplit]
            constructor
            · rintro ⟨taken, left, _, rfl, _⟩
              exact absurd (by simp) htext
            · rintro ⟨_, hlength⟩
              simp only [List.length_cons, List.length_nil] at hlength
              omega
          · rw [hsplit, covers_cons hmulti, List.length_cons, List.length_cons,
              Nat.add_le_add_iff_right, and_assoc, ← hmatch]
            constructor
            · rintro ⟨taken', left', htaken', htext, htakes, hleft⟩
              have hsame : taken :: left.splitOn '/' = taken' :: left'.splitOn '/' := by
                rw [← List.splitOn_append_cons_self_of_not_mem htaken left, htext,
                  List.splitOn_append_cons_self_of_not_mem htaken']
              obtain rfl := (List.cons_eq_cons.mp hsame).1
              obtain rfl := (List.cons_eq_cons.mp (List.append_cancel_left htext)).2
              exact ⟨htakes, hleft⟩
            · rintro ⟨htakes, hleft⟩
              exact ⟨taken, left, htaken, rfl, htakes, hleft⟩

/-- The subscriptions with wildcards: the client compares a topic level by level, but
for the level above a `#`, whose topic it does not take. -/
theorem filter_covers {filter : List Level} (h : WellFormed filter) :
    ∃ regex, topicToRegex (String.ofList (filterText filter)) = some regex ∧
      ∀ topic : String, regexMatch regex topic.toList = true ↔
        Covers filter (topic.toList.splitOn '/') ∧
          filter.length ≤ (topic.toList.splitOn '/').length := by
  obtain ⟨regex, hregex, hmatch⟩ := regexMatch_covers h
  refine ⟨regex, ?_, fun topic => hmatch topic.toList⟩
  rw [topicToRegex, String.toList_ofList, hregex]

theorem filter_covers_wildcard : ∃ regex, topicToRegex "wildcard/#" = some regex ∧
    regexMatch regex "wildcard".toList = false ∧
    regexMatch regex "wildcard/topic-1".toList = true := by
  have hplain : ("wildcard".toList.all fun c => decide (IsPlain c)) = true := by decide
  have hfilter : WellFormed [.name "wildcard".toList, .multi] := by
    refine ⟨fun text htext c hc => ?_, fun _ => ⟨by simp, by simp, by simp⟩⟩
    cases htext
    exact of_decide_eq_true (List.all_eq_true.mp hplain c hc)
  obtain ⟨regex, hregex, hmatch⟩ := filter_covers hfilter
  refine ⟨regex, hregex, Bool.eq_false_iff.mpr fun h => ?_, (hmatch _).mpr ?_⟩
  · have hlength := ((hmatch "wildcard").mp h).2
    rw [List.splitOn_eq_singleton (by decide)] at hlength
    exact absurd hlength (by decide)
  · have hsplit : "wildcard/topic-1".toList.splitOn '/' =
        ["wildcard".toList, "topic-1".toList] := by
      change ("wildcard".toList ++ '/' :: "topic-1".toList).splitOn '/' = _
      rw [List.splitOn_append_cons_self_of_not_mem (by decide),
        List.splitOn_eq_singleton (by decide)]
    rw [hsplit]
    exact ⟨⟨_, rfl, trivial⟩, by decide⟩

/-- A character of a name without wildcards; a dot is one. -/
def IsName (c : Char) : Prop := c ≠ '+' ∧ c ≠ '#' ∧ c ∉ syntaxCharacters

instance : DecidablePred IsName := fun _ => inferInstanceAs (Decidable (_ ∧ _ ∧ _))

/-- The characters that one character of a name is compared with. -/
def StandsFor (c d : Char) : Prop := if c = '.' then d ≠ '\n' ∧ d ≠ '\r' else c = d

instance : DecidableRel StandsFor := fun c _ =>
  inferInstanceAs (Decidable (if c = '.' then _ else _))

theorem StandsFor.self {c : Char} (h : c ≠ '.') : StandsFor c c := by
  rw [StandsFor, if_neg h]

/-- A name stands for the texts of its length that agree with it outside its dots. -/
theorem regexMatch_name {name : List Char} (h : ∀ c ∈ name, IsName c) :
    ∃ items, name.mapM Item.ofChar = some items ∧ ∀ text,
      regexMatch items text = true ↔ List.Forall₂ StandsFor name text := by
  induction name with
  | nil =>
      refine ⟨[], rfl, fun text => ?_⟩
      rw [regexMatch_nil, List.forall₂_nil_left_iff]
  | cons c name ih =>
      obtain ⟨⟨hplus, hhash, hsyntax⟩, hname⟩ := List.forall_mem_cons.mp h
      obtain ⟨items, hitems, hmatch⟩ := ih hname
      rcases Classical.em (c = '.') with rfl | hdot
      · refine ⟨.any :: items, by simp [List.mapM_cons, Item.ofChar, hitems], fun text => ?_⟩
        cases text with
        | nil => simp [regexMatch]
        | cons d text => simp [regexMatch, hmatch, StandsFor]
      · refine ⟨.literal c :: items, ?_, fun text => ?_⟩
        · simp [List.mapM_cons, Item.ofChar, hplus, hhash, hdot, hsyntax, hitems]
        · cases text with
          | nil => simp [regexMatch]
          | cons d text => simp [regexMatch, hmatch, StandsFor, hdot]

theorem standsFor_append {before after name text : List Char} (hbefore : '.' ∉ before)
    (hafter : '.' ∉ after) :
    List.Forall₂ StandsFor (before ++ name ++ after) (before ++ text ++ after) ↔
      List.Forall₂ StandsFor name text := by
  have hself : ∀ chars : List Char, '.' ∉ chars → List.Forall₂ StandsFor chars chars :=
    fun chars hchars => List.forall₂_same.mpr fun c hc => .self fun hdot => hchars (hdot ▸ hc)
  constructor
  · intro h
    have hlength : name.length = text.length := by simpa using h.length_eq
    rw [List.append_assoc, List.append_assoc] at h
    have h := List.forall₂_take name.length (List.forall₂_drop before.length h)
    rw [List.drop_left, List.drop_left, List.take_left, hlength, List.take_left] at h
    exact h
  · intro h
    exact List.rel_append (List.rel_append (hself before hbefore) h) (hself after hafter)

theorem standsFor_getElem? {name text : List Char} {c : Char} {i : Nat} (hc : c ≠ '.')
    (h : List.Forall₂ StandsFor name text) (hi : name[i]? = some c) : text[i]? = some c := by
  induction h generalizing i with
  | nil => cases hi
  | cons hhead _ ih =>
      cases i with
      | zero =>
          obtain rfl := Option.some_inj.mp hi
          rw [StandsFor, if_neg hc] at hhead
          rw [hhead]
          rfl
      | succ i => exact ih hi

theorem standsFor_getLast? {name text : List Char} {c : Char} (hc : c ≠ '.')
    (h : List.Forall₂ StandsFor name text) (hlast : name.getLast? = some c) :
    text.getLast? = some c := by
  rw [← List.head?_reverse, List.head?_eq_getElem?] at *
  exact standsFor_getElem? hc (List.forall₂_reverse_iff.mpr h) hlast

end Poncos.Mqtt
