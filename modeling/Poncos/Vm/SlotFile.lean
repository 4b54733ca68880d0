import Poncos.Controller.State
import Poncos.Library.Regex
import Poncos.Messages.Container

/-!
The slot files and what `generate_start_task` makes of them: the description of a virtual
machine, with its name, image, uuid and address in place of those in the file.
-/

namespace Poncos.Vm

open Poncos.Library.Regex

structure PoolElem where
  name : String
  macAddr : String
  deriving DecidableEq, Repr

/-- What a dot takes. -/
def isAny (c : Char) : Bool := c != '\n' && c != '\r'

def isLowerHex (c : Char) : Bool := c.isDigit || (decide ('a' ≤ c) && decide (c ≤ 'f'))

def isHex (c : Char) : Bool := isLowerHex c || (decide ('A' ≤ c) && decide (c ≤ 'F'))

def isSeparator (c : Char) : Bool := c == ':' || c == '-'

def openName : List Char := ['<', 'n', 'a', 'm', 'e', '>']

def closeName : List Char := ['<', '/', 'n', 'a', 'm', 'e', '>']

def openSource : List Char :=
  ['<', 's', 'o', 'u', 'r', 'c', 'e', ' ', 'f', 'i', 'l', 'e', '=', '"']

def oldImage : List Char := ['p', 'a', 'r', 'a', 's', 't', 'a', 't', 'i', 'o', 'n', '-']

def closeSource : List Char := ['.', 'q', 'c', 'o', 'w', '2', '"', '/', '>']

def nameRegex : Expression :=
  .seq (.group 1 (literal openName))
    (.seq (.group 2 (.seq (.char isAny) (.many isAny))) (.group 3 (literal closeName)))

def diskRegex : Expression :=
  .seq (.group 1 (.seq (.many isAny) (.seq (literal openSource) (.many isAny))))
    (.seq (.group 2 (.seq (literal oldImage) (.many isAny)))
      (.group 3 (literal closeSource)))

def uuidDigits (n : Nat) : Expression := times n (.char isLowerHex)

def dash : Expression := .char fun c => c == '-'

def uuidRegex : Expression :=
  .seq (uuidDigits 8) (.seq dash (.seq (uuidDigits 4) (.seq dash (.seq (uuidDigits 4)
    (.seq dash (.seq (uuidDigits 4) (.seq dash (uuidDigits 12))))))))

def macRegex : Expression :=
  .seq (times 5 (.group 1 (.seq (times 2 (.char isHex)) (.char isSeparator))))
    (.group 2 (times 2 (.char isHex)))

/-- The replacements of `generate_start_task` in a slot file. -/
def slotXml (freeVm : PoolElem) (uuid slotFile : String) : String :=
  let slotXml := replace nameRegex ('$' :: '1' :: (freeVm.name.toList ++ ['$', '3']))
    slotFile.toList
  let slotXml := replace diskRegex ('$' :: '1' :: (freeVm.name.toList ++ ['$', '3'])) slotXml
  let slotXml := replace uuidRegex uuid.toList slotXml
  String.ofList (replace macRegex freeVm.macAddr.toList slotXml)

/-- The task of `generate_start_task` for a description. -/
def startTask (slotXml : String) : Messages.Start :=
  { concurrentExecution := some true
    timeMeasurement := some false
    driver := none
    vmName := none
    vcpus := none
    memory := none
    memnodeMap := none
    pciIds := [⟨0x15b3, 0x1004⟩]
    xml := some slotXml
    ivshmem := none
    transient := some true
    vcpuMap := none }

/-- `generate_start_task`, given what the slot file holds and what `uuid_generate` gives. -/
def generateStartTask (slotFile uuid : String) (freeVm : PoolElem) : Messages.Start :=
  startTask (slotXml freeVm uuid slotFile)

/-- A value in an element that stands on a line of its own. -/
def element (before tag : List Char) (first : Char) (value : List Char) (last : Char)
    (after : List Char) : List Char :=
  before ++ '<' :: (tag ++ first :: (value ++ last :: after))

/-- A line of a slot file: the four that the replacements are for, and the others. -/
inductive SlotLine where
  | name (before value : List Char)
  | disk (before directory value : List Char)
  | uuid (before value : List Char)
  | mac (before value : List Char)
  | other (text : List Char)

namespace SlotLine

def text : SlotLine → List Char
  | .name before value => element before ['n', 'a', 'm', 'e'] '>' value '<' ['/', 'n', 'a', 'm', 'e', '>']
  | .disk before directory value =>
      element before (['s', 'o', 'u', 'r', 'c', 'e', ' ', 'f', 'i', 'l', 'e', '=', '"'] ++ directory) '/' value '.' ['q', 'c', 'o', 'w', '2', '"', '/', '>']
  | .uuid before value => element before ['u', 'u', 'i', 'd'] '>' value '<' ['/', 'u', 'u', 'i', 'd', '>']
  | .mac before value => element before ['m', 'a', 'c', ' ', 'a', 'd', 'd', 'r', 'e', 's', 's', '='] '"' value '"' ['/', '>']
  | .other text => text

/-- The line for a machine of the pool. -/
def fill (freeVm : PoolElem) (uuid : String) : SlotLine → SlotLine
  | .name before _ => .name before freeVm.name.toList
  | .disk before directory _ => .disk before directory freeVm.name.toList
  | .uuid before _ => .uuid before uuid.toList
  | .mac before _ => .mac before freeVm.macAddr.toList
  | .other text => .other text

end SlotLine

/-- A word begins at one place of a text only. -/
def Once (word text place : List Char) : Prop :=
  ∀ suffix ∈ text.tails, word <+: suffix → suffix = place

instance (word text place : List Char) : Decidable (Once word text place) :=
  inferInstanceAs (Decidable (∀ _ ∈ _, _))

/-- An expression takes a text as a whole. -/
def Whole (r : Expression) (text : List Char) : Prop :=
  (r.run text).head?.map Match.taken = some text

instance (r : Expression) (text : List Char) : Decidable (Whole r text) :=
  inferInstanceAs (Decidable (_ = _))

/-- Neither a uuid nor an address is found. -/
def Clean (text : List Char) : Prop :=
  untouched uuidRegex text = true ∧ untouched macRegex text = true

instance (text : List Char) : Decidable (Clean text) := inferInstanceAs (Decidable (_ ∧ _))

namespace SlotLine

/-- Every expression finds in a line what it is for, at one place, and nothing else. -/
def WellFormed : SlotLine → Prop
  | .name before value =>
      '<' ∉ before ∧ '<' ∉ value ∧ value ≠ [] ∧ value.all isAny = true ∧ Clean before
  | .disk before directory value =>
      untouched nameRegex (text (.disk before directory value)) = true ∧
        (text (.disk before directory value)).all isAny = true ∧
        oldImage <+: value ∧
        Once openSource (text (.disk before directory value))
          ((text (.disk before directory value)).drop before.length) ∧
        Once oldImage (directory ++ '/' :: (value ++ closeSource))
          (value ++ closeSource) ∧
        Once closeSource (value.drop 12 ++ closeSource) closeSource ∧
        Clean before ∧ Clean (['s', 'o', 'u', 'r', 'c', 'e', ' ', 'f', 'i', 'l', 'e', '=', '"'] ++ directory)
  | .uuid before value =>
      untouched nameRegex (text (.uuid before value)) = true ∧
        untouched diskRegex (text (.uuid before value)) = true ∧
        Whole uuidRegex value ∧ Clean before
  | .mac before value =>
      untouched nameRegex (text (.mac before value)) = true ∧
        untouched diskRegex (text (.mac before value)) = true ∧
        untouched uuidRegex value = true ∧ Whole macRegex value ∧ Clean before
  | .other text =>
      untouched nameRegex text = true ∧ untouched diskRegex text = true ∧ Clean text

instance : DecidablePred WellFormed
  | .name _ _ => inferInstanceAs (Decidable (_ ∧ _))
  | .disk _ _ _ => inferInstanceAs (Decidable (_ ∧ _))
  | .uuid _ _ => inferInstanceAs (Decidable (_ ∧ _))
  | .mac _ _ => inferInstanceAs (Decidable (_ ∧ _))
  | .other _ => inferInstanceAs (Decidable (_ ∧ _))

end SlotLine

/-- The lines of a slot file. -/
abbrev SlotFile := List SlotLine

def SlotFile.text (file : SlotFile) : String :=
  String.ofList (['\n'].intercalate (file.map SlotLine.text))

/-- The file for a machine of the pool. -/
def SlotFile.fill (freeVm : PoolElem) (uuid : String) (file : SlotFile) : SlotFile :=
  file.map (SlotLine.fill freeVm uuid)

/-- Names and addresses that the replacements put in as they are, and leave alone. -/
structure PoolElem.Plain (freeVm : PoolElem) : Prop where
  tag : '<' ∉ freeVm.name.toList
  dollar : '$' ∉ freeVm.name.toList
  digit : ∀ c ∈ freeVm.name.toList.head?, c.isDigit = false
  clean : Clean freeVm.name.toList
  address : '$' ∉ freeVm.macAddr.toList

/-- What `uuid_unparse` writes. -/
structure IsUuid (uuid : List Char) : Prop where
  length : uuid.length = 36
  digits : ∀ (i : Nat) (c : Char), uuid[i]? = some c →
    if i = 8 ∨ i = 13 ∨ i = 18 ∨ i = 23 then c = '-' else isHex c = true

section Lines

variable {r : Expression} {format text front back word : List Char} {c d : Char}

theorem untouched_of (h : ∀ suffix, suffix <:+ text → r.run suffix = []) :
    untouched r text = true := by
  induction text with
  | nil => rfl
  | cons c text ih =>
      rw [untouched, h (c :: text) List.suffix_rfl,
        ih fun suffix hsuffix => h suffix (hsuffix.trans (List.suffix_cons c text))]
      rfl

/-- A text that begins with `c`, behind one without it. -/
theorem suffix_cases {suffix : List Char} (h : c ∉ front)
    (hsuffix : c :: suffix <:+ front ++ c :: back) : suffix = back ∨ c :: suffix <:+ back := by
  induction front with
  | nil =>
      rcases List.suffix_cons_iff.mp hsuffix with heq | hsuffix
      · exact .inl (List.cons_eq_cons.mp heq).2
      · exact .inr hsuffix
  | cons d front ih =>
      rw [List.mem_cons, not_or] at h
      rcases List.suffix_cons_iff.mp hsuffix with heq | hsuffix
      · exact absurd (List.cons_eq_cons.mp heq).1 h.1
      · exact ih h.2 hsuffix

/-- An expression that takes none of the characters around a value reads it on its own. -/
theorem replace_element {before tag value after : List Char} (htag : r.takes '<' = false)
    (hfirst : r.takes c = false) (hlast : r.takes d = false) (hbefore : untouched r before = true)
    (hname : untouched r tag = true) (hafter : untouched r after = true) :
    replace r format (element before tag c value d after) =
      element before tag c (replace r format value) d after := by
  rw [element, replace_barrier htag, replace_barrier hfirst, replace_barrier hlast,
    replace_of_untouched hbefore, replace_of_untouched hname, replace_of_untouched hafter]
  rfl

theorem replace_of_whole {value : List Char} (h : Whole r value) (hempty : r.run [] = [])
    (hplain : '$' ∉ format) : replace r format value = format := by
  obtain ⟨m, hm, htaken⟩ := Option.map_eq_some_iff.mp h
  rw [replace_whole hm htaken, expand_plain hplain]
  rintro rfl
  rw [hempty] at hm
  cases hm

end Lines

section NameLine

variable {before value : List Char} {format : List Char}

theorem run_nameRegex_ne {c : Char} {text : List Char} (h : c ≠ '<') :
    nameRegex.run (c :: text) = [] := by
  have hnot : ¬ openName <+: c :: text := by
    intro hprefix
    exact h (List.cons_prefix_cons.mp hprefix).1.symm
  rw [nameRegex, Expression.run, Expression.run, run_literal_of_not hnot]
  rfl

theorem run_nameRegex (hne : value ≠ []) (htag : '<' ∉ value)
    (hany : ∀ c ∈ value, isAny c = true) :
    nameRegex.run (openName ++ (value ++ closeName)) =
      [⟨openName ++ (value ++ closeName),
        [(3, closeName), (2, value), (1, openName)], []⟩] := by
  obtain ⟨c, value, rfl⟩ := List.exists_cons_of_ne_nil hne
  rw [List.forall_mem_cons] at hany
  rw [List.mem_cons, not_or] at htag
  have hclose := run_literal closeName []
  rw [List.append_nil] at hclose
  simp only [nameRegex, Expression.run, run_literal, List.map_cons, List.map_nil,
    List.flatMap_singleton, Match.mark, List.cons_append, hany.1, if_true, Match.append,
    List.flatMap_map]
  rw [longest_flatMap hany.2, hclose]
  · simp [Match.append, Match.mark]
  · intro m hm hback
    have hnot : ¬ closeName <+: m.rest := by
      intro hprefix
      obtain ⟨later, hlater⟩ := hprefix
      rw [← hlater] at hm hback
      rcases suffix_cases htag.2 hm with heq | hsuffix
      · exact hback (congrArg ('<' :: ·) heq)
      · exact absurd (hsuffix.subset List.mem_cons_self) (by decide)
    simp only [run_literal_of_not hnot, List.map_nil]

theorem element_name : element before ['n', 'a', 'm', 'e'] '>' value '<' ['/', 'n', 'a', 'm', 'e', '>'] =
    before ++ (openName ++ (value ++ closeName)) := by
  simp [element, openName, closeName]

/-- The name is put in. -/
theorem replace_name {name : List Char} (h : SlotLine.WellFormed (.name before value))
    (hplain : '$' ∉ name) (hdigit : ∀ c ∈ name.head?, c.isDigit = false) :
    replace nameRegex ('$' :: '1' :: (name ++ ['$', '3'])) (SlotLine.text (.name before value)) =
      SlotLine.text (.name before name) := by
  obtain ⟨hbefore, htag, hne, hany, _⟩ := h
  rw [SlotLine.text, SlotLine.text, element_name, element_name, replace_append]
  · have hhead := congrArg List.head? (run_nameRegex hne htag (List.all_eq_true.mp hany))
    rw [replace_whole hhead rfl (by simp [openName]), expand_between hplain hdigit,
      List.append_assoc]
    rfl
  · intro suffix hsuffix hsome
    obtain ⟨c, suffix, rfl⟩ := List.exists_cons_of_ne_nil hsome
    refine run_nameRegex_ne ?_
    rintro rfl
    exact hbefore (hsuffix.subset List.mem_cons_self)

theorem run_diskRegex_nil {text : List Char}
    (h : ∀ suffix, suffix <:+ text → ¬ openSource <+: suffix) :
    diskRegex.run text = [] := by
  simp only [diskRegex, Expression.run, List.flatMap_map, List.map_flatMap, List.flatMap_assoc,
    List.flatMap_eq_nil_iff]
  intro m hm
  have hnot := h m.rest ⟨m.taken, taken_append_longest hm⟩
  simp [run_literal_of_not hnot]

/-- There is no image in the line of the name. -/
theorem untouched_disk (hbefore : '<' ∉ before) (htag : '<' ∉ value) :
    untouched diskRegex (SlotLine.text (.name before value)) = true := by
  refine untouched_of fun suffix hsuffix => run_diskRegex_nil fun place hplace hprefix => ?_
  obtain ⟨later, rfl⟩ := hprefix
  have hall := hplace.trans hsuffix
  rw [SlotLine.text, element] at hall
  have hfront : '<' ∉ ['n', 'a', 'm', 'e'] ++ '>' :: value := by
    simp [htag]
  rcases suffix_cases hbefore hall with heq | hall
  · simp at heq
  · rw [← List.cons_append, ← List.append_assoc] at hall
    rcases suffix_cases hfront hall with heq | hall
    · simp at heq
    · exact absurd (hall.subset List.mem_cons_self) (by decide)

end NameLine

section DiskLine

variable {before middle old directory value name : List Char}

theorem not_prefix_of_once {word text place suffix : List Char} (h : Once word text place)
    (hsuffix : suffix <:+ text) (hne : suffix ≠ place) : ¬ word <+: suffix :=
  fun hprefix => hne (h suffix ((List.mem_tails suffix text).mpr hsuffix) hprefix)

theorem run_diskRegex (hbefore : ∀ c ∈ before, isAny c = true)
    (hmiddle : ∀ c ∈ middle, isAny c = true) (hold : ∀ c ∈ old, isAny c = true)
    (hsource : Once openSource
      (before ++ (openSource ++ (middle ++ (oldImage ++ (old ++ closeSource)))))
      (openSource ++ (middle ++ (oldImage ++ (old ++ closeSource)))))
    (himage : Once oldImage (middle ++ (oldImage ++ (old ++ closeSource)))
      (oldImage ++ (old ++ closeSource)))
    (hclose : Once closeSource (old ++ closeSource) closeSource) :
    diskRegex.run (before ++ (openSource ++ (middle ++ (oldImage ++ (old ++ closeSource))))) =
      [⟨before ++ (openSource ++ (middle ++ (oldImage ++ (old ++ closeSource)))),
        [(3, closeSource), (2, oldImage ++ old), (1, before ++ (openSource ++ middle))], []⟩] := by
  have hlast := run_literal closeSource []
  rw [List.append_nil] at hlast
  simp only [diskRegex, Expression.run, List.flatMap_map, List.map_flatMap, List.flatMap_assoc]
  rw [longest_flatMap hbefore]
  · simp only [run_literal, List.flatMap_singleton]
    rw [longest_flatMap hmiddle]
    · simp only [run_literal, List.flatMap_singleton, Match.append, Match.mark]
      rw [longest_flatMap hold]
      · simp [hlast, Match.append, Match.mark]
      · intro m hm hne
        simp [run_literal_of_not (not_prefix_of_once hclose hm hne)]
    · intro m hm hne
      simp [Match.append, Match.mark, run_literal_of_not (not_prefix_of_once himage hm hne)]
  · intro m hm hne
    simp [run_literal_of_not (not_prefix_of_once hsource hm hne)]

theorem element_disk : SlotLine.text (.disk before directory value) =
    before ++ (openSource ++ (directory ++ '/' :: (value ++ closeSource))) := by
  simp [SlotLine.text, element, openSource, closeSource]

/-- The image of the machine is put in. -/
theorem replace_disk (h : SlotLine.WellFormed (.disk before directory value))
    (hplain : '$' ∉ name) (hdigit : ∀ c ∈ name.head?, c.isDigit = false) :
    replace diskRegex ('$' :: '1' :: (name ++ ['$', '3']))
      (SlotLine.text (.disk before directory value)) =
      SlotLine.text (.disk before directory name) := by
  obtain ⟨_, hany, ⟨old, rfl⟩, hsource, himage, hclose, _⟩ := h
  have htext : directory ++ '/' :: (oldImage ++ old ++ closeSource) =
      (directory ++ ['/']) ++ (oldImage ++ (old ++ closeSource)) := by
    simp
  have himageText : oldImage ++ old ++ closeSource = oldImage ++ (old ++ closeSource) :=
    List.append_assoc ..
  rw [element_disk, htext] at hany hsource
  rw [List.all_eq_true] at hany
  rw [List.drop_left] at hsource
  rw [htext, himageText] at himage
  have hold : (oldImage ++ old).drop 12 = old := rfl
  rw [hold] at hclose
  have hall : ∀ c, c ∈ before ∨ c ∈ directory ++ ['/'] ∨ c ∈ old → isAny c = true := by
    intro c hc
    refine hany c ?_
    simp only [List.mem_append] at hc ⊢
    tauto
  have hhead := congrArg List.head? (run_diskRegex (fun c hc => hall c (.inl hc))
    (fun c hc => hall c (.inr (.inl hc))) (fun c hc => hall c (.inr (.inr hc)))
    hsource himage hclose)
  rw [element_disk, element_disk, htext, replace_whole hhead rfl (by simp [openSource]),
    expand_between hplain hdigit]
  change (before ++ (openSource ++ (directory ++ ['/']))) ++ name ++ closeSource = _
  simp

end DiskLine

section Uuid

variable {uuid : List Char}

theorem IsUuid.separator (h : IsUuid uuid) {i : Nat} {c : Char} (hc : uuid[i]? = some c)
    (hseparator : isSeparator c = true) : i = 8 ∨ i = 13 ∨ i = 18 ∨ i = 23 := by
  have hdigit := h.digits i c hc
  split at hdigit
  · assumption
  · exfalso
    rw [isSeparator, Bool.or_eq_true, beq_iff_eq, beq_iff_eq] at hseparator
    rcases hseparator with rfl | rfl
    · exact absurd hdigit (by decide)
    · exact absurd hdigit (by decide)

theorem IsUuid.dollar (h : IsUuid uuid) : '$' ∉ uuid := by
  intro hmem
  obtain ⟨i, hi⟩ := List.getElem?_of_mem hmem
  have hdigit := h.digits i '$' hi
  split at hdigit
  · exact absurd hdigit (by decide)
  · exact absurd hdigit (by decide)

/-- Two digits and a separator of an address. -/
theorem run_macPair {text : List Char} {n : Nat} {m : Match}
    (h : m ∈ (Expression.group n (.seq (times 2 (.char isHex)) (.char isSeparator))).run text) :
    ∃ a b s, text = a :: b :: s :: m.rest ∧ isSeparator s = true := by
  rw [mem_run_group] at h
  obtain ⟨inner, hinner, rfl⟩ := h
  obtain ⟨digits, hdigits, last, hlast, rfl⟩ := mem_run_seq.mp hinner
  obtain ⟨a, ha, others, hothers, rfl⟩ := mem_run_seq.mp hdigits
  obtain ⟨b, hb, nothing, hnothing, rfl⟩ := mem_run_seq.mp hothers
  obtain rfl := List.mem_singleton.mp hnothing
  obtain ⟨a, rest, rfl, _, rfl⟩ := mem_run_char.mp ha
  obtain ⟨b, rest, rfl, _, rfl⟩ := mem_run_char.mp hb
  obtain ⟨s, rest, rfl, hs, rfl⟩ := mem_run_char.mp hlast
  exact ⟨a, b, s, rfl, hs⟩

/-- An address has separators three characters apart. -/
theorem run_macRegex_separators {text : List Char} (h : macRegex.run text ≠ []) :
    ∃ a b s c d s' rest, text = a :: b :: s :: c :: d :: s' :: rest ∧
      isSeparator s = true ∧ isSeparator s' = true := by
  obtain ⟨m, hm⟩ := List.exists_mem_of_ne_nil _ h
  obtain ⟨pairs, hpairs, _⟩ := mem_run_seq.mp hm
  obtain ⟨first, hfirst, more, hmore, _⟩ := mem_run_seq.mp hpairs
  obtain ⟨second, hsecond, _⟩ := mem_run_seq.mp hmore
  obtain ⟨a, b, s, rfl, hs⟩ := run_macPair hfirst
  obtain ⟨c, d, s', hrest, hs'⟩ := run_macPair hsecond
  exact ⟨a, b, s, c, d, s', second.rest, by rw [hrest], hs, hs'⟩

theorem IsUuid.untouched (h : IsUuid uuid) : untouched macRegex uuid = true := by
  refine untouched_of fun suffix hsuffix => ?_
  by_contra hmatch
  obtain ⟨a, b, s, c, d, s', rest, rfl, hs, hs'⟩ := run_macRegex_separators hmatch
  obtain ⟨front, rfl⟩ := hsuffix
  have hfirst := h.separator (i := front.length + 2) (c := s) (by simp) hs
  have hsecond := h.separator (i := front.length + 5) (c := s') (by simp) hs'
  omega

end Uuid

section Fill

variable {freeVm : PoolElem} {uuid : String}

/-- Every line holds what belongs to the machine of the pool. -/
theorem SlotLine.replaced {line : SlotLine} (h : line.WellFormed) (hvm : freeVm.Plain)
    (huuid : IsUuid uuid.toList) :
    replace macRegex freeVm.macAddr.toList (replace uuidRegex uuid.toList
      (replace diskRegex ('$' :: '1' :: (freeVm.name.toList ++ ['$', '3']))
        (replace nameRegex ('$' :: '1' :: (freeVm.name.toList ++ ['$', '3'])) line.text))) =
      (line.fill freeVm uuid).text := by
  cases line with
  | name before value =>
      obtain ⟨hbefore, _, _, _, hclean⟩ := id h
      rw [replace_name h hvm.dollar hvm.digit,
        replace_of_untouched (untouched_disk hbefore hvm.tag), fill, text,
        replace_element rfl rfl rfl hclean.1 rfl rfl, replace_of_untouched hvm.clean.1,
        replace_element rfl rfl rfl hclean.2 rfl rfl, replace_of_untouched hvm.clean.2]
  | disk before directory value =>
      obtain ⟨hname, _, _, _, _, _, hclean, htag⟩ := id h
      rw [replace_of_untouched hname, replace_disk h hvm.dollar hvm.digit, fill, text,
        replace_element rfl rfl rfl hclean.1 htag.1 rfl, replace_of_untouched hvm.clean.1,
        replace_element rfl rfl rfl hclean.2 htag.2 rfl, replace_of_untouched hvm.clean.2]
  | uuid before value =>
      obtain ⟨hname, hdisk, hwhole, hclean⟩ := h
      rw [replace_of_untouched hname, replace_of_untouched hdisk, fill, text, text,
        replace_element rfl rfl rfl hclean.1 rfl rfl, replace_of_whole hwhole rfl huuid.dollar,
        replace_element rfl rfl rfl hclean.2 rfl rfl, replace_of_untouched huuid.untouched]
  | mac before value =>
      obtain ⟨hname, hdisk, huuids, hwhole, hclean⟩ := h
      rw [replace_of_untouched hname, replace_of_untouched hdisk, fill, text, text,
        replace_element rfl rfl rfl hclean.1 rfl rfl, replace_of_untouched huuids,
        replace_element rfl rfl rfl hclean.2 rfl rfl, replace_of_whole hwhole rfl hvm.address]
  | other line =>
      obtain ⟨hname, hdisk, hclean⟩ := h
      rw [text, replace_of_untouched hname, replace_of_untouched hdisk,
        replace_of_untouched hclean.1, replace_of_untouched hclean.2]
      rfl

/-- The description is the slot file with name, image, uuid and address of the machine in
their places, and without any other change. -/
theorem slotXml_text {file : SlotFile} (h : ∀ line ∈ file, line.WellFormed)
    (hvm : freeVm.Plain) (huuid : IsUuid uuid.toList) :
    slotXml freeVm uuid file.text = (file.fill freeVm uuid).text := by
  rw [slotXml, SlotFile.text, String.toList_ofList, replace_lines rfl, replace_lines rfl,
    replace_lines rfl, replace_lines rfl, SlotFile.text, SlotFile.fill]
  simp only [List.map_map]
  refine congrArg (fun lines => String.ofList (['\n'].intercalate lines)) ?_
  exact List.map_congr_left fun line hline =>
    SlotLine.replaced (h line hline) hvm huuid

end Fill

end Poncos.Vm
