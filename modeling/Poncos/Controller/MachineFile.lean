import Mathlib.Data.List.TakeWhile
import Poncos.Library.Execution

/-!
The machine file.  `read_file` takes it line by line and checks the state of the stream
after each line, so that a last line without a newline stops the program; a blank line
becomes a host without a name.
-/

namespace Poncos.MachineFile

open Poncos.Library.Execution

/-- An open file: what is left to be read, and the two flags of the stream. -/
structure Ifstream where
  rest : List Char
  eof : Bool
  fail : Bool
  deriving DecidableEq, Repr

def Ifstream.good (file : Ifstream) : Bool := !file.eof && !file.fail

/-- A line, and what follows its newline, if there is one. -/
def readLine : List Char → List Char × Option (List Char)
  | [] => ([], none)
  | c :: rest =>
      if c = '\n' then ([], some rest) else (c :: (readLine rest).1, (readLine rest).2)

/-- `std::getline`: at the end of the file it sets one flag, and the other one too if
there was nothing left. -/
def getline (file : Ifstream) : List Char × Ifstream :=
  if file.good then
    match readLine file.rest with
    | (command, some rest) => (command, { file with rest })
    | (command, none) => (command, ⟨[], true, command.isEmpty⟩)
  else ([], { file with fail := true })

/-- `std::isspace` of the default locale. -/
def isspace (c : Char) : Bool := c = ' ' || (9 ≤ c.toNat && c.toNat ≤ 13)

def ltrim (s : List Char) : List Char := s.dropWhile isspace

def rtrim (s : List Char) : List Char := (s.reverse.dropWhile isspace).reverse

def trim (s : List Char) : List Char := ltrim (rtrim s)

theorem readLine_line {line : List Char} (hline : '\n' ∉ line) (after : List Char) :
    readLine (line ++ '\n' :: after) = (line, some after) := by
  induction line with
  | nil => simp [readLine]
  | cons c line ih =>
      rw [List.mem_cons, not_or] at hline
      rw [List.cons_append, readLine, if_neg (Ne.symm hline.1), ih hline.2]

theorem readLine_last {content : List Char} (hlast : '\n' ∉ content) :
    readLine content = (content, none) := by
  induction content with
  | nil => rfl
  | cons c content ih =>
      rw [List.mem_cons, not_or] at hlast
      rw [readLine, if_neg (Ne.symm hlast.1), ih hlast.2]

theorem getline_line {line : List Char} (hline : '\n' ∉ line) (after : List Char) :
    getline ⟨line ++ '\n' :: after, false, false⟩ = (line, ⟨after, false, false⟩) := by
  simp [getline, Ifstream.good, readLine_line hline]

theorem getline_last {content : List Char} (hlast : '\n' ∉ content) :
    getline ⟨content, false, false⟩ = (content, ⟨[], true, content.isEmpty⟩) := by
  simp [getline, Ifstream.good, readLine_last hlast]

theorem lines_cases (content : List Char) : '\n' ∉ content ∨
    ∃ line after, '\n' ∉ line ∧ content = line ++ '\n' :: after := by
  rcases Classical.em ('\n' ∈ content) with hmem | hlast
  · obtain ⟨line, after, heq, hline⟩ := List.eq_append_cons_of_mem hmem
    exact .inr ⟨line, after, hline, heq⟩
  · exact .inl hlast

/-- Induction over the lines of a file. -/
theorem lines_induction {P : List Char → Prop} (last : ∀ content, '\n' ∉ content → P content)
    (line : ∀ line after, '\n' ∉ line → P after → P (line ++ '\n' :: after))
    (content : List Char) : P content := by
  induction hlen : content.length using Nat.strongRecOn generalizing content with
  | ind k ih =>
      rcases lines_cases content with hlast | ⟨first, after, hfirst, rfl⟩
      · exact last content hlast
      · refine line first after hfirst (ih after.length ?_ after rfl)
        rw [← hlen, List.length_append, List.length_cons]
        omega

/-- A successful call has read something. -/
theorem length_getline_lt {file : Ifstream} (h : (getline file).2.fail = false) :
    (getline file).2.rest.length < file.rest.length := by
  rcases file with ⟨rest, eof, fail⟩
  cases eof with
  | true => cases h
  | false =>
      cases fail with
      | true => cases h
      | false =>
          rcases lines_cases rest with hlast | ⟨line, after, hline, rfl⟩
          · rw [getline_last hlast] at h ⊢
            exact List.length_pos_iff.mpr (List.isEmpty_eq_false_iff.mp h)
          · rw [getline_line hline]
            change after.length < _
            rw [List.length_append, List.length_cons]
            omega

/-- The loop of `read_file`. -/
def readLoop (file : Ifstream) (commandQueue : List String) : Exec (List String) :=
  if (getline file).2.fail = true then .ok commandQueue
  else do
    ensure ((getline file).2.good = true)
    let command := trim (getline file).1
    -- the first character of an empty string is a null character
    readLoop (getline file).2
      (if command.head? ≠ some '#' then commandQueue ++ [String.ofList command]
        else commandQueue)
termination_by file.rest.length
decreasing_by exact length_getline_lt (Bool.eq_false_iff.mpr (by assumption))

def readFile (content : List Char) (commandQueue : List String) : Exec (List String) :=
  readLoop ⟨content, false, false⟩ commandQueue

/-- The host names of a file: its lines without the space around them, but for the empty
ones and those that begin with a number sign. -/
def hostNames (content : List Char) : List String :=
  (((content.splitOn '\n').map trim).filter fun line =>
    line ≠ [] ∧ line.head? ≠ some '#').map String.ofList

/-- A text without space at either end, inside a longer one. -/
structure Stripped (line text : List Char) : Prop where
  around : ∃ before after, line = before ++ text ++ after ∧
    (∀ c ∈ before, isspace c = true) ∧ ∀ c ∈ after, isspace c = true
  first : ∀ c ∈ text.head?, isspace c = false
  last : ∀ c ∈ text.getLast?, isspace c = false

theorem isspace_head?_dropWhile (s : List Char) :
    ∀ c ∈ (s.dropWhile isspace).head?, isspace c = false := by
  intro c hc
  have h := List.head?_dropWhile_not isspace s
  rw [Option.mem_def.mp hc] at h
  exact h

theorem trim_stripped (line : List Char) : Stripped line (trim line) := by
  have hleft := List.takeWhile_append_dropWhile (p := isspace) (l := rtrim line)
  have hright := congrArg List.reverse
    (List.takeWhile_append_dropWhile (p := isspace) (l := line.reverse))
  rw [List.reverse_append, List.reverse_reverse] at hright
  refine ⟨⟨(rtrim line).takeWhile isspace, (line.reverse.takeWhile isspace).reverse, ?_, ?_, ?_⟩,
    isspace_head?_dropWhile _, ?_⟩
  · rw [trim, ltrim, hleft, rtrim, hright]
  · exact fun c hc => List.mem_takeWhile_imp hc
  · exact fun c hc => List.mem_takeWhile_imp (List.mem_reverse.mp hc)
  · intro c hc
    refine isspace_head?_dropWhile line.reverse c ?_
    have hlast : c ∈ (rtrim line).getLast? := by
      rw [← hleft]
      exact List.mem_getLast?_append_of_mem_getLast? hc
    rwa [rtrim, List.getLast?_reverse] at hlast

/-- What the loop appends for lines that all end in a newline. -/
def entries (lines : List (List Char)) : List String :=
  ((lines.map trim).filter fun line => line.head? ≠ some '#').map String.ofList

theorem entries_cons (line : List Char) (lines : List (List Char)) :
    entries (line :: lines) =
      (if (trim line).head? ≠ some '#' then [String.ofList (trim line)] else []) ++
        entries lines := by
  rw [entries, List.map_cons, List.filter_cons]
  split
  · rename_i h
    rw [if_pos (by simpa using h)]
    rfl
  · rename_i h
    rw [if_neg (by simpa using h)]
    rfl

theorem splitOn_line {line : List Char} (hline : '\n' ∉ line) (after : List Char) :
    (line ++ '\n' :: after).splitOn '\n' = line :: after.splitOn '\n' := by
  rw [List.splitOn_eq_splitOnP, List.splitOn_eq_splitOnP]
  refine List.splitOnP_append_cons_of_forall_mem (fun c hc => ?_) '\n' (by simp) _
  simpa using ne_of_mem_of_not_mem hc hline

theorem splitOn_last {content : List Char} (hlast : '\n' ∉ content) :
    content.splitOn '\n' = [content] := by
  rw [List.splitOn_eq_splitOnP]
  refine List.splitOnP_eq_singleton fun c hc => ?_
  simpa using ne_of_mem_of_not_mem hc hlast

/-- The loop ends exactly on files that have nothing after their last newline. -/
theorem readLoop_eq (content : List Char) (commandQueue : List String) :
    readLoop ⟨content, false, false⟩ commandQueue =
      if (content.splitOn '\n').getLast? = some [] then
        .ok (commandQueue ++ entries (content.splitOn '\n').dropLast)
      else .error .assertion := by
  induction content using lines_induction generalizing commandQueue with
  | last content hlast =>
      rw [readLoop, getline_last hlast, splitOn_last hlast]
      cases content with
      | nil => simp [entries]
      | cons c rest =>
          simp [Ifstream.good, ensure]
          rfl
  | line line after hline ih =>
      have hne := List.splitOn_ne_nil '\n' after
      have hgood : (⟨after, false, false⟩ : Ifstream).good = true := rfl
      rw [readLoop, getline_line hline, splitOn_line hline, List.getLast?_cons_of_ne_nil hne,
        List.dropLast_cons_of_ne_nil hne, entries_cons, if_neg (by simp), ensure_of hgood,
        bind_of_ok rfl, ih]
      split
      · split
        · simp
        · rfl
      · rfl

theorem trim_eq_nil_iff {line : List Char} :
    trim line = [] ↔ ∀ c ∈ line, isspace c = true := by
  constructor
  · intro h
    obtain ⟨before, after, hline, hbefore, hafter⟩ := (trim_stripped line).around
    rw [h, List.append_nil] at hline
    rw [hline]
    intro c hc
    rcases List.mem_append.mp hc with hc | hc
    · exact hbefore c hc
    · exact hafter c hc
  · intro h
    have hrtrim : rtrim line = [] := by
      rw [rtrim, List.reverse_eq_nil_iff, List.dropWhile_eq_nil_iff]
      exact fun c hc => h c (List.mem_reverse.mp hc)
    rw [trim, hrtrim]
    rfl

/-- The part after the last newline. -/
theorem getLast?_splitOn_eq_nil_iff (content : List Char) :
    (content.splitOn '\n').getLast? = some [] ↔
      content = [] ∨ content.getLast? = some '\n' := by
  induction content using lines_induction with
  | last content hlast =>
      rw [splitOn_last hlast, List.getLast?_singleton, Option.some_inj]
      constructor
      · exact .inl
      · rintro (rfl | hend)
        · rfl
        · exact absurd (List.mem_of_mem_getLast? hend) hlast
  | line line after hline ih =>
      rw [splitOn_line hline, List.getLast?_cons_of_ne_nil (List.splitOn_ne_nil '\n' after), ih,
        List.getLast?_append]
      cases after with
      | nil => simp
      | cons c rest => simp [List.getLast?_cons_cons]

/-- The lines of a file that ends in a newline. -/
def linesOf (content : List Char) : List (List Char) := (content.splitOn '\n').dropLast

theorem hostNames_eq {content : List Char}
    (hend : (content.splitOn '\n').getLast? = some []) :
    hostNames content = (((linesOf content).map trim).filter fun line =>
      line ≠ [] ∧ line.head? ≠ some '#').map String.ofList := by
  obtain ⟨lines, hlines⟩ := List.getLast?_eq_some_iff.mp hend
  rw [hostNames, linesOf, hlines, List.dropLast_concat, List.map_append, List.filter_append]
  simp [trim, rtrim, ltrim]

theorem not_mem_hostNames (content : List Char) : "" ∉ hostNames content := by
  simp [hostNames, String.ofList_eq_empty_iff]

/-- The file is read, and its host names are appended. -/
def ReadsHosts (content : List Char) : Prop :=
  ∀ commandQueue, readFile content commandQueue = .ok (commandQueue ++ hostNames content)

theorem entries_eq_hostNames_iff {content : List Char}
    (hend : (content.splitOn '\n').getLast? = some []) :
    entries (linesOf content) = hostNames content ↔
      ∀ line ∈ linesOf content, ∃ c ∈ line, isspace c = false := by
  have hblank : ∀ line, trim line ≠ [] ↔ ∃ c ∈ line, isspace c = false := by
    intro line
    rw [ne_eq, trim_eq_nil_iff]
    simp
  constructor
  · intro heq line hline
    rw [← hblank]
    intro hnil
    apply not_mem_hostNames content
    rw [← heq, entries, List.mem_map]
    refine ⟨[], List.mem_filter.mpr ⟨?_, by simp⟩, rfl⟩
    rw [← hnil]
    exact List.mem_map_of_mem hline
  · intro h
    rw [hostNames_eq hend, entries]
    refine congrArg _ (List.filter_congr fun text htext => ?_)
    obtain ⟨line, hline, rfl⟩ := List.mem_map.mp htext
    simp [(hblank line).mpr (h line hline)]

/-- A machine file is read as it is meant to be exactly if it ends in a newline, or is
empty, and has no blank line. -/
theorem readsHosts_iff (content : List Char) :
    ReadsHosts content ↔ (content = [] ∨ content.getLast? = some '\n') ∧
      ∀ line ∈ linesOf content, ∃ c ∈ line, isspace c = false := by
  rw [← getLast?_splitOn_eq_nil_iff]
  rcases Classical.em ((content.splitOn '\n').getLast? = some []) with hend | hend
  · rw [← entries_eq_hostNames_iff hend, and_iff_right hend]
    constructor
    · intro h
      have hread := h []
      rw [readFile, readLoop_eq, if_pos hend] at hread
      exact Except.ok.inj hread
    · intro heq commandQueue
      rw [readFile, readLoop_eq, if_pos hend, ← heq]
      rfl
  · constructor
    · intro h
      have hread := h []
      rw [readFile, readLoop_eq, if_neg hend] at hread
      cases hread
    · exact fun h => absurd h.1 hend

theorem readsHosts_iff_comment : ReadsHosts "a\n# b\n c \n".toList := by
  have hlines : linesOf "a\n# b\n c \n".toList = [['a'], ['#', ' ', 'b'], [' ', 'c', ' ']] := by
    decide +kernel
  refine (readsHosts_iff _).mpr ⟨.inr (by decide), ?_⟩
  rw [hlines, List.forall_mem_cons, List.forall_mem_cons, List.forall_mem_singleton]
  exact ⟨⟨'a', by simp, by decide⟩, ⟨'#', by simp, by decide⟩, ⟨'c', by simp, by decide⟩⟩

/-- A last line without a newline stops the program, a blank line becomes a host. -/
theorem not_readsHosts_lastLine_blankLine :
    readFile "a\nb".toList [] = .error .assertion ∧ ¬ ReadsHosts "a\nb".toList ∧
      readFile "a\n\nb\n".toList [] = .ok ["a", "", "b"] ∧
      ¬ ReadsHosts "a\n\nb\n".toList := by
  have hlast : readFile "a\nb".toList [] = .error .assertion := by
    rw [readFile, readLoop_eq]
    decide +kernel
  have hblank : readFile "a\n\nb\n".toList [] = .ok ["a", "", "b"] := by
    rw [readFile, readLoop_eq]
    decide +kernel
  refine ⟨hlast, fun h => ?_, hblank, fun h => ?_⟩
  · cases hlast.symm.trans (h [])
  · have hhosts := Except.ok.inj (hblank.symm.trans (h []))
    have hmem : "" ∈ hostNames "a\n\nb\n".toList := by
      rw [← List.nil_append (hostNames _), ← hhosts]
      decide
    exact not_mem_hostNames _ hmem

end Poncos.MachineFile
