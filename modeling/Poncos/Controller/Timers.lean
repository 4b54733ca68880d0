import Mathlib.Data.List.Induction
import Poncos.Controller.TableRuns

/-!
The timers of the controller.  A timer is known by its name, which is put together from
host names and the id of a job; a second start under one name and a stop under an unknown
one throw.  The thread of a job starts its timer some time after the job was executed.
-/

namespace Poncos

open Poncos.Library
open Poncos.Library.Execution
open Poncos.Library.Transition

/-- `Time_measurement`: the timers by name, and whether they were stopped. -/
abbrev TimeMeasurement := List (String × Bool)

inductive TimerCall where
  | tick (name : String)
  | tock (name : String)
  deriving DecidableEq, Repr

def TimerCall.perform (timers : TimeMeasurement) : TimerCall → Exec TimeMeasurement
  | .tick name => do
      ensure (name ∉ timers.map Prod.fst)
      .ok (timers ++ [(name, false)])
  | .tock name => do
      ensure (name ∈ timers.map Prod.fst)
      .ok (timers.map fun timer => if timer.1 = name then (name, true) else timer)

def performAll : List TimerCall → TimeMeasurement → Exec TimeMeasurement
  | [], timers => .ok timers
  | call :: rest, timers => do
      let timers ← call.perform timers
      performAll rest timers

/-- No call of a log throws. -/
def NoThrow (log : List TimerCall) : Prop := ∃ timers, performAll log [] = .ok timers

/-- The names that were ticked. -/
def ticks (log : List TimerCall) : List String :=
  log.filterMap fun call =>
    match call with
    | .tick name => some name
    | .tock _ => none

/-- Every name is ticked once, and tocked only after it was ticked. -/
structure NoClash (log : List TimerCall) : Prop where
  noThrow : NoThrow log
  ticked_once : (ticks log).Nodup
  ticked_before : ∀ before after name, log = before ++ .tock name :: after →
    name ∈ ticks before

def TimerCall.Allowed (names : List String) : TimerCall → Prop
  | .tick name => name ∉ names
  | .tock name => name ∈ names

section Logs

variable {log log' : List TimerCall} {call : TimerCall} {name : String}

@[simp] theorem ticks_nil : ticks [] = [] := rfl

@[simp] theorem ticks_append : ticks (log ++ log') = ticks log ++ ticks log' :=
  List.filterMap_append

@[simp] theorem ticks_tick : ticks (.tick name :: log) = name :: ticks log := rfl

@[simp] theorem ticks_tock : ticks (.tock name :: log) = ticks log := rfl

theorem performAll_append {timers : TimeMeasurement} :
    performAll (log ++ log') timers = performAll log timers >>= performAll log' := by
  induction log generalizing timers with
  | nil => rfl
  | cons call rest ih =>
      rw [List.cons_append, performAll, performAll]
      cases call.perform timers with
      | error fault => rfl
      | ok timers => exact ih

theorem perform_eq_ok {timers timers' : TimeMeasurement} (h : call.perform timers = .ok timers') :
    call.Allowed (timers.map Prod.fst) ∧
      timers'.map Prod.fst = timers.map Prod.fst ++ ticks [call] := by
  cases call with
  | tick name =>
      simp only [TimerCall.perform, bind_eq_ok, ensure_eq_ok] at h
      obtain ⟨_, hnew, h⟩ := h
      cases h
      exact ⟨hnew, by simp⟩
  | tock name =>
      simp only [TimerCall.perform, bind_eq_ok, ensure_eq_ok] at h
      obtain ⟨_, hknown, h⟩ := h
      cases h
      refine ⟨hknown, ?_⟩
      rw [ticks_tock, ticks_nil, List.append_nil, List.map_map]
      refine List.map_congr_left fun timer _ => ?_
      simp only [Function.comp_apply]
      split
      · rename_i hname
        exact hname.symm
      · rfl

theorem performAll_names {timers timers' : TimeMeasurement}
    (h : performAll log timers = .ok timers') :
    timers'.map Prod.fst = timers.map Prod.fst ++ ticks log := by
  induction log generalizing timers with
  | nil =>
      cases h
      simp
  | cons call rest ih =>
      simp only [performAll, bind_eq_ok] at h
      obtain ⟨timers₁, hcall, h⟩ := h
      rw [ih h, (perform_eq_ok hcall).2, List.append_assoc, ← ticks_append,
        List.singleton_append]

theorem exists_perform {timers : TimeMeasurement}
    (h : call.Allowed (timers.map Prod.fst)) : ∃ timers', call.perform timers = .ok timers' := by
  cases call with
  | tick name => exact ⟨_, bind_of_ok (ensure_of h)⟩
  | tock name => exact ⟨_, bind_of_ok (ensure_of h)⟩

/-- A call throws or not by the names ticked so far. -/
theorem noThrow_concat : NoThrow (log ++ [call]) ↔ NoThrow log ∧ call.Allowed (ticks log) := by
  constructor
  · rintro ⟨timers, h⟩
    simp only [performAll_append, performAll, bind_eq_ok] at h
    obtain ⟨timers₁, hlog, timers₂, hcall, _⟩ := h
    have hnames := performAll_names hlog
    rw [List.map_nil, List.nil_append] at hnames
    exact ⟨⟨timers₁, hlog⟩, hnames ▸ (perform_eq_ok hcall).1⟩
  · rintro ⟨⟨timers₁, hlog⟩, hallowed⟩
    have hnames := performAll_names hlog
    rw [List.map_nil, List.nil_append] at hnames
    obtain ⟨timers₂, hcall⟩ := exists_perform (hnames ▸ hallowed)
    refine ⟨timers₂, ?_⟩
    rw [performAll_append, bind_of_ok hlog, performAll, bind_of_ok hcall, performAll]

theorem noThrow_nil : NoThrow [] := ⟨[], rfl⟩

theorem NoThrow.tick (h : NoThrow log) (hname : name ∉ ticks log) :
    NoThrow (log ++ [.tick name]) :=
  noThrow_concat.mpr ⟨h, hname⟩

theorem NoThrow.tock (h : NoThrow log) (hname : name ∈ ticks log) :
    NoThrow (log ++ [.tock name]) :=
  noThrow_concat.mpr ⟨h, hname⟩

theorem NoThrow.tick_all {names : List String} (h : NoThrow log) (hnodup : names.Nodup)
    (hnew : ∀ name ∈ names, name ∉ ticks log) : NoThrow (log ++ names.map .tick) := by
  induction names generalizing log with
  | nil => simpa using h
  | cons name rest ih =>
      obtain ⟨hname, hrest⟩ := List.nodup_cons.mp hnodup
      have h := ih (h.tick (hnew name List.mem_cons_self)) hrest fun other hother => by
        rw [ticks_append, ticks_tick, ticks_nil, List.mem_append, List.mem_singleton, not_or]
        exact ⟨hnew other (List.mem_cons_of_mem _ hother), fun heq => hname (heq ▸ hother)⟩
      rwa [List.append_assoc] at h

theorem NoThrow.tock_all {names : List String} (h : NoThrow log)
    (hknown : ∀ name ∈ names, name ∈ ticks log) : NoThrow (log ++ names.map .tock) := by
  induction names generalizing log with
  | nil => simpa using h
  | cons name rest ih =>
      have h := ih (h.tock (hknown name List.mem_cons_self)) fun other hother => by
        rw [ticks_append]
        exact List.mem_append_left _ (hknown other (List.mem_cons_of_mem _ hother))
      rwa [List.append_assoc] at h

theorem ticks_map_tick (names : List String) : ticks (names.map .tick) = names := by
  induction names with
  | nil => rfl
  | cons name rest ih => rw [List.map_cons, ticks_tick, ih]

theorem ticks_map_tock (names : List String) : ticks (names.map .tock) = [] := by
  induction names with
  | nil => rfl
  | cons name rest ih => rw [List.map_cons, ticks_tock, ih]

theorem NoThrow.earlier (h : NoThrow (log ++ log')) : NoThrow log := by
  obtain ⟨timers, h⟩ := h
  rw [performAll_append, bind_eq_ok] at h
  obtain ⟨timers₁, hlog, _⟩ := h
  exact ⟨timers₁, hlog⟩

theorem NoThrow.nodup (h : NoThrow log) : (ticks log).Nodup := by
  induction log using List.reverseRecOn with
  | nil => exact List.nodup_nil
  | append_singleton log call ih =>
      obtain ⟨hlog, hallowed⟩ := noThrow_concat.mp h
      cases call with
      | tick name =>
          rw [ticks_append, ticks_tick, ticks_nil, ← List.concat_eq_append]
          exact (ih hlog).concat hallowed
      | tock name => simpa using ih hlog

theorem NoThrow.ticked_before {before after : List TimerCall}
    (h : NoThrow (before ++ .tock name :: after)) : name ∈ ticks before := by
  rw [← List.singleton_append, ← List.append_assoc] at h
  exact (noThrow_concat.mp h.earlier).2

theorem NoThrow.noClash (h : NoThrow log) : NoClash log := by
  refine ⟨h, h.nodup, ?_⟩
  rintro before after name rfl
  exact h.ticked_before

end Logs

/-- The timers of the jobs. -/
inductive Timer where
  | job (id : Nat)
  | freeze (id : Nat)
  | updateConfig (id : Nat)
  | swap (srcHost destHost : String) (id : Nat)
  deriving DecidableEq, Repr

namespace Timer

def stem : Timer → String
  | .job _ => "job-#"
  | .freeze _ => "freeze-job-#"
  | .updateConfig _ => "update-config-job-#"
  | .swap srcHost destHost _ => "swap-" ++ srcHost ++ "-" ++ destHost ++ "-job-#"

def id : Timer → Nat
  | .job id | .freeze id | .updateConfig id | .swap _ _ id => id

def name (timer : Timer) : String := timer.stem ++ toString timer.id

end Timer

/-- Where two lists are equal and `c` comes first in neither of the parts before it,
the parts are equal. -/
theorem append_cons_inj {α : Type} {c : α} {xs ys us vs : List α} (hx : c ∉ xs) (hy : c ∉ ys)
    (h : xs ++ c :: us = ys ++ c :: vs) : xs = ys ∧ us = vs := by
  induction xs generalizing ys with
  | nil =>
      cases ys with
      | nil => exact ⟨rfl, (List.cons.inj h).2⟩
      | cons y ys => exact absurd ((List.cons.inj h).1 ▸ List.mem_cons_self) hy
  | cons x xs ih =>
      cases ys with
      | nil => exact absurd ((List.cons.inj h).1 ▸ List.mem_cons_self) hx
      | cons y ys =>
          obtain ⟨rfl, htail⟩ := List.cons.inj h
          obtain ⟨rfl, rfl⟩ := ih (fun hc => hx (List.mem_cons_of_mem _ hc))
            (fun hc => hy (List.mem_cons_of_mem _ hc)) htail
          exact ⟨rfl, rfl⟩

theorem toString_toList (n : Nat) : (toString n).toList = Nat.toDigits 10 n := by
  rw [Nat.toString_eq_repr, Nat.toList_repr]

theorem hash_not_mem_toString (n : Nat) : '#' ∉ (toString n).toList := by
  rw [toString_toList]
  intro h
  exact absurd (Nat.isDigit_of_mem_toDigits (by decide) (by decide) h) (by decide)

theorem toString_inj {i j : Nat} (h : (toString i).toList = (toString j).toList) : i = j := by
  rw [toString_toList, toString_toList] at h
  have h := congrArg (fun digits => Nat.ofDigitChars 10 digits 0) h
  simpa using h

namespace Timer

variable {t t' : Timer}

theorem stem_ends (t : Timer) : ∃ cs, t.stem.toList = cs ++ ['#'] := by
  cases t with
  | job id => exact ⟨"job-".toList, (by decide : "job-#".toList = _)⟩
  | freeze id => exact ⟨"freeze-job-".toList, (by decide : "freeze-job-#".toList = _)⟩
  | updateConfig id =>
      exact ⟨"update-config-job-".toList, (by decide : "update-config-job-#".toList = _)⟩
  | swap srcHost destHost id =>
      refine ⟨("swap-" ++ srcHost ++ "-" ++ destHost ++ "-job-").toList, ?_⟩
      simp [stem, String.toList_append]

/-- The id of the job is what follows the last hash sign. -/
theorem stem_id_of_name (h : t.name = t'.name) : t.stem = t'.stem ∧ t.id = t'.id := by
  have h := congrArg (fun name : String => name.toList.reverse) h
  obtain ⟨cs, hcs⟩ := t.stem_ends
  obtain ⟨cs', hcs'⟩ := t'.stem_ends
  simp only [name, String.toList_append, hcs, hcs', List.reverse_append, List.reverse_singleton,
    List.singleton_append] at h
  obtain ⟨hid, hstem⟩ := append_cons_inj (by simpa using hash_not_mem_toString t.id)
    (by simpa using hash_not_mem_toString t'.id) h
  refine ⟨?_, toString_inj (List.reverse_injective hid)⟩
  apply String.toList_injective
  rw [hcs, hcs', List.reverse_injective hstem]

def initial : Timer → Char
  | .job _ => 'j'
  | .freeze _ => 'f'
  | .updateConfig _ => 'u'
  | .swap _ _ _ => 's'

theorem stem_initial (t : Timer) : t.stem.toList.head? = some t.initial := by
  cases t with
  | job id => exact (by decide : "job-#".toList.head? = some 'j')
  | freeze id => exact (by decide : "freeze-job-#".toList.head? = some 'f')
  | updateConfig id => exact (by decide : "update-config-job-#".toList.head? = some 'u')
  | swap srcHost destHost id => simp [stem, initial, String.toList_append]

theorem initial_id_of_name (h : t.name = t'.name) : t.initial = t'.initial ∧ t.id = t'.id := by
  obtain ⟨hstem, hid⟩ := stem_id_of_name h
  have hinitial := t.stem_initial
  rw [hstem, stem_initial] at hinitial
  exact ⟨(Option.some_inj.mp hinitial).symm, hid⟩

theorem eq_job_of_name {id : Nat} (h : t.name = (job id).name) : t = job id := by
  obtain ⟨hinitial, hid⟩ := initial_id_of_name h
  cases t with
  | job i => exact congrArg job hid
  | freeze i | updateConfig i | swap srcHost destHost i => cases hinitial

theorem eq_freeze_of_name {id : Nat} (h : t.name = (freeze id).name) : t = freeze id := by
  obtain ⟨hinitial, hid⟩ := initial_id_of_name h
  cases t with
  | freeze i => exact congrArg freeze hid
  | job i | updateConfig i | swap srcHost destHost i => cases hinitial

theorem eq_updateConfig_of_name {id : Nat} (h : t.name = (updateConfig id).name) :
    t = updateConfig id := by
  obtain ⟨hinitial, hid⟩ := initial_id_of_name h
  cases t with
  | updateConfig i => exact congrArg updateConfig hid
  | job i | freeze i | swap srcHost destHost i => cases hinitial

/-- The timers of two swaps have one name only if the pairs of hosts read the same. -/
theorem eq_swap_of_name {src dest : String} {id : Nat} (h : t.name = (swap src dest id).name) :
    ∃ src' dest', t = swap src' dest' id ∧ src' ++ "-" ++ dest' = src ++ "-" ++ dest := by
  obtain ⟨hinitial, hid⟩ := initial_id_of_name h
  cases t with
  | swap src' dest' i =>
      obtain rfl : i = id := hid
      refine ⟨src', dest', rfl, ?_⟩
      have hstem := (stem_id_of_name h).1
      rw [stem, stem, String.append_left_inj] at hstem
      simpa only [String.append_assoc, String.append_right_inj] using hstem
  | job i | freeze i | updateConfig i => cases hinitial

end Timer

end Poncos
