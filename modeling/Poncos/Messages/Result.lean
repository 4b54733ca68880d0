import Poncos.Messages.Conversion

/-!
The replies of the agents.  One container is read into again and again; the results of an
earlier reply must not be taken for those of a later one.
-/

namespace Poncos.Messages

open Poncos.Library.Document

/-- A result; the timers are written as texts by their names, and never loaded. -/
structure Result where
  vmName : String
  status : String
  details : String
  timeMeasurement : List (String × String)
  deriving DecidableEq, Repr

namespace Result

/-- A result that nothing was loaded into. -/
def empty : Result := ⟨"", "", "", []⟩

def emitTimers : List (String × String) → Entries → Entries
  | [], node => node
  | (name, text) :: rest, node => emitTimers rest (node.set name (Codec.string.encode text))

def emit (result : Result) : Entries :=
  let node := Entries.set [] "vm-name" (Codec.string.encode result.vmName)
  let node := node.set "status" (Codec.string.encode result.status)
  let node := if result.details ≠ "" then
      node.set "details" (Codec.string.encode result.details)
    else node
  if result.timeMeasurement.isEmpty then node
  else node.set "time-measurement" (emitTimers result.timeMeasurement []).node

def load (node : Node) : Load Result := do
  let vmName ← loadField .string node "vm-name"
  let status ← loadField .string node "status"
  let details ← loadFieldOr .string "" node "details"
  .ok ⟨vmName, status, details, []⟩

/-- The keys that are loaded, as they stand in a node that may have others too. -/
structure Written (result : Result) (entries : Entries) : Prop where
  vmName : entries.get? "vm-name" = some (Codec.string.encode result.vmName)
  status : entries.get? "status" = some (Codec.string.encode result.status)
  details : entries.get? "details" =
    if result.details = "" then none else some (Codec.string.encode result.details)

theorem written_emit (result : Result) : result.Written result.emit := by
  constructor <;> simp [emit]

/-- What is loaded of a result: all but the timers. -/
def untimed (result : Result) : Result := { result with timeMeasurement := [] }

theorem load_written {result : Result} {entries : Entries} (h : result.Written entries) :
    load entries.node = .ok result.untimed := by
  have hdetails : loadFieldOr .string "" entries.node "details" = .ok result.details := by
    rcases Classical.em (result.details = "") with hempty | hset
    · rw [hempty]
      exact loadFieldOr_none (by rw [h.details, if_pos hempty])
    · exact loadFieldOr_of _ (by rw [h.details, if_neg hset]) trivial
  rw [load, load_bind_of (loadField_of _ h.vmName trivial),
    load_bind_of (loadField_of _ h.status trivial), load_bind_of hdetails]
  rfl

theorem timeMeasurement_of_load {node : Node} {result : Result} (h : load node = .ok result) :
    result.timeMeasurement = [] := by
  simp only [load, load_bind_ok] at h
  obtain ⟨_, _, _, _, _, _, h⟩ := h
  cases h
  rfl

def codec : Codec Result :=
  .record emit load (fun result => result.timeMeasurement = [])
    (fun result h => by rw [load_written (written_emit result), untimed, ← h])
    fun _ _ => timeMeasurement_of_load

theorem as_written {result : Result} {entries : Entries} (h : result.Written entries) :
    codec.as entries.node = .ok result.untimed :=
  as_record.mpr (load_written h)

end Result

structure ResultContainer where
  title : String
  results : List Result
  id : String
  deriving DecidableEq, Repr

namespace ResultContainer

def empty : ResultContainer := ⟨"", [], ""⟩

def emitResults (container : ResultContainer) (node : Entries) : Load Entries :=
  if container.title = "vm migrated" then
    match container.results with
    | [] => .error (.runtime "vector::_M_range_check")
    | first :: _ => .ok (node.merge first.emit)
  else .ok (node.set "list" (.sequence (container.results.map fun result => result.emit.node)))

def emit (container : ResultContainer) : Load Entries := do
  let node ← emitResults container
    (Entries.set [] "result" (Codec.string.encode container.title))
  .ok (if container.id ≠ "" then node.set "id" (Codec.string.encode container.id) else node)

/-- The results after a reply: the result of a migration replaces the first element of a
vector that grows, a list replaces them all. -/
def loadResults (title : String) (results : List Result) (node : Node) : Load (List Result) :=
  if title = "vm migrated" then do
    let result ← Result.codec.as node
    .ok ((results ++ [Result.empty]).set 0 result)
  else loadField (.vector Result.codec) node "list"

/-- `load` into a container that was used before. -/
def load (container : ResultContainer) (node : Node) : Load ResultContainer := do
  let title ← loadField .string node "result"
  let results ← loadResults title container.results node
  let id ← loadFieldOr .string "" node "id"
  .ok ⟨title, results, id⟩

/-- The results that a reply brings. -/
def own (container : ResultContainer) : List Result :=
  if container.title = "vm migrated" then container.results.take 1 else container.results

/-- What a reply is loaded as. -/
def carried (reply : ResultContainer) : ResultContainer :=
  ⟨reply.title, reply.own.map Result.untimed, reply.id⟩

/-- What the result of a migration leaves of earlier results: all but the first one, and
the element that the vector grew by. -/
def stale : List Result → List Result
  | [] => []
  | _ :: rest => rest ++ [Result.empty]

/-- The container after a reply was read into it. -/
def readOver (reply container : ResultContainer) : ResultContainer :=
  { reply with
    results := if reply.title = "vm migrated" then reply.results ++ stale container.results
      else reply.results }

def overAll (container : ResultContainer) : List ResultContainer → List ResultContainer
  | [] => []
  | reply :: rest => reply.readOver container :: overAll (reply.readOver container) rest

/-- One container read into from every document in turn, and what it holds each time. -/
def readAll (container : ResultContainer) : List Node → Load (List ResultContainer)
  | [] => .ok []
  | document :: rest => do
      let container ← container.load document
      let later ← readAll container rest
      .ok (container :: later)

end ResultContainer

/-- A container holds a reply: title, id and the results in front are those of the reply.
Earlier results may stay behind the one of a migration. -/
structure ResultContainer.Holds (container reply : ResultContainer) : Prop where
  title : container.title = reply.title
  id : container.id = reply.id
  front : reply.results <+: container.results
  all : reply.title ≠ "vm migrated" → container.results = reply.results
  first : reply.title = "vm migrated" → ∃ result, reply.results = [result]

namespace ResultContainer

variable {container reply : ResultContainer} {document : Entries}

theorem emit_eq_ok (h : reply.emit = .ok document) : ∃ node,
    emitResults reply (Entries.set [] "result" (Codec.string.encode reply.title)) = .ok node ∧
    document =
      if reply.id ≠ "" then node.set "id" (Codec.string.encode reply.id) else node := by
  simp only [emit, load_bind_ok] at h
  obtain ⟨node, hnode, h⟩ := h
  exact ⟨node, hnode, (Except.ok.inj h).symm⟩

/-- The keys of the container itself. -/
theorem keys_emit (h : reply.emit = .ok document) :
    document.get? "result" = some (Codec.string.encode reply.title) ∧
      document.get? "id" =
        if reply.id = "" then none else some (Codec.string.encode reply.id) := by
  obtain ⟨node, hnode, rfl⟩ := emit_eq_ok h
  rw [emitResults] at hnode
  split at hnode
  · split at hnode <;> cases hnode
    simp [Result.emit]
  · cases hnode
    simp

theorem loadResults_emit (h : reply.emit = .ok document) :
    loadResults reply.title [] document.node = .ok (reply.own.map Result.untimed) := by
  obtain ⟨node, hnode, rfl⟩ := emit_eq_ok h
  rw [emitResults] at hnode
  rw [loadResults, own]
  split at hnode
  · rename_i htitle
    rw [if_pos htitle, if_pos htitle]
    split at hnode
    · cases hnode
    · rename_i first rest hresults
      cases hnode
      have hwritten : first.Written (if reply.id ≠ "" then ((Entries.set [] "result"
          (Codec.string.encode reply.title)).merge first.emit).set "id"
          (Codec.string.encode reply.id) else (Entries.set [] "result"
          (Codec.string.encode reply.title)).merge first.emit) := by
        constructor <;> simp [Result.emit]
      rw [load_bind_of (Result.as_written hwritten), hresults]
      rfl
  · rename_i htitle
    cases hnode
    rw [if_neg htitle, if_neg htitle, loadField_eq_ok]
    refine ⟨.sequence (reply.results.map fun result => result.emit.node), by simp, ?_⟩
    refine vector_as.mpr ⟨_, rfl, ?_⟩
    rw [List.forall₂_map_left_iff, List.forall₂_map_right_iff, List.forall₂_same]
    exact fun result _ => Result.as_written (Result.written_emit result)

theorem load_emit (h : reply.emit = .ok document) :
    empty.load document.node = .ok reply.carried := by
  obtain ⟨htitle, hid⟩ := keys_emit h
  have hloadId : loadFieldOr .string "" document.node "id" = .ok reply.id := by
    rcases Classical.em (reply.id = "") with hempty | hset
    · rw [hempty]
      exact loadFieldOr_none (by rw [hid, if_pos hempty])
    · exact loadFieldOr_of _ (by rw [hid, if_neg hset]) trivial
  have hresults : loadResults reply.title empty.results document.node =
      .ok (reply.own.map Result.untimed) := loadResults_emit h
  rw [load, load_bind_of (loadField_of reply.title htitle trivial), load_bind_of hresults,
    load_bind_of hloadId]
  rfl

/-- A list takes the place of all earlier results, a migration that of the first one. -/
theorem loadResults_of_empty {title : String} {node : Node} {results : List Result}
    (h : loadResults title [] node = .ok results) (earlier : List Result) :
    loadResults title earlier node =
        .ok (if title = "vm migrated" then results ++ stale earlier else results) ∧
      (title = "vm migrated" → ∃ result, results = [result]) := by
  rw [loadResults] at h ⊢
  rcases Classical.em (title = "vm migrated") with htitle | htitle
  · rw [if_pos htitle, load_bind_ok] at h
    obtain ⟨result, hresult, h⟩ := h
    obtain rfl : [result] = results := Except.ok.inj h
    rw [if_pos htitle, if_pos htitle, load_bind_of hresult]
    refine ⟨?_, fun _ => ⟨result, rfl⟩⟩
    cases earlier with
    | nil => rfl
    | cons _ _ => rfl
  · rw [if_neg htitle] at h
    rw [if_neg htitle, if_neg htitle]
    exact ⟨h, fun hmigrated => absurd hmigrated htitle⟩

/-- What is loaded into a used container is what is loaded into a new one, over what is
left. -/
theorem load_of_empty {node : Node} (h : empty.load node = .ok reply)
    (container : ResultContainer) :
    container.load node = .ok (reply.readOver container) ∧ (reply.readOver container).Holds reply := by
  simp only [load, load_bind_ok] at h
  obtain ⟨title, htitle, results, hresults, id, hid, h⟩ := h
  obtain rfl := Except.ok.inj h
  obtain ⟨hload, hfirst⟩ := loadResults_of_empty hresults container.results
  refine ⟨?_, rfl, rfl, ?_, fun hother => if_neg hother, hfirst⟩
  · rw [load, load_bind_of htitle, load_bind_of hload, load_bind_of hid]
    rfl
  · rw [readOver]
    split
    · exact List.prefix_append results _
    · exact List.prefix_refl results

end ResultContainer

/-- One container read into from document after document: each time title, id and the
results in front are what a new container would be loaded with, and only the result of a
migration leaves earlier ones behind it.  The document of a reply is loaded as that reply
without its timers. -/
theorem replies_current {documents : List Node} {replies : List ResultContainer}
    (h : List.Forall₂ (fun document reply => ResultContainer.empty.load document = .ok reply)
      documents replies) (container : ResultContainer) :
    container.readAll documents = .ok (container.overAll replies) ∧
      List.Forall₂ ResultContainer.Holds (container.overAll replies) replies ∧
      ∀ (reply : ResultContainer) (document : Entries), reply.emit = .ok document →
        ResultContainer.empty.load document.node = .ok reply.carried := by
  refine ⟨?_, ?_, fun _ _ => ResultContainer.load_emit⟩
  · induction h generalizing container with
    | nil => rfl
    | cons hreply _ ih =>
        rw [ResultContainer.readAll,
          load_bind_of (ResultContainer.load_of_empty hreply container).1, load_bind_of (ih _)]
        rfl
  · induction h generalizing container with
    | nil => exact .nil
    | cons hreply _ ih =>
        exact .cons (ResultContainer.load_of_empty hreply container).2 (ih _)

/-- A failed migration after a successful one: its result is in front of an empty one. -/
theorem replies_current_failed : ResultContainer.empty.readAll
      [.map [("result", .scalar "vm migrated"), ("vm-name", .scalar "vm0"),
        ("status", .scalar "success")],
       .map [("result", .scalar "vm migrated"), ("vm-name", .scalar "vm1"),
        ("status", .scalar "error"), ("details", .scalar "no route to host")]] =
    .ok [⟨"vm migrated", [⟨"vm0", "success", "", []⟩], ""⟩,
      ⟨"vm migrated", [⟨"vm1", "error", "no route to host", []⟩, ⟨"", "", "", []⟩], ""⟩] := by
  have hsuccess : ResultContainer.empty.load (.map [("result", .scalar "vm migrated"),
      ("vm-name", .scalar "vm0"), ("status", .scalar "success")]) =
      .ok ⟨"vm migrated", [⟨"vm0", "success", "", []⟩], ""⟩ := by
    rfl
  have herror : ResultContainer.empty.load (.map [("result", .scalar "vm migrated"),
      ("vm-name", .scalar "vm1"), ("status", .scalar "error"),
      ("details", .scalar "no route to host")]) =
      .ok ⟨"vm migrated", [⟨"vm1", "error", "no route to host", []⟩], ""⟩ := by
    rfl
  have hover : ResultContainer.empty.overAll
      [⟨"vm migrated", [⟨"vm0", "success", "", []⟩], ""⟩,
        ⟨"vm migrated", [⟨"vm1", "error", "no route to host", []⟩], ""⟩] =
      [⟨"vm migrated", [⟨"vm0", "success", "", []⟩], ""⟩,
        ⟨"vm migrated", [⟨"vm1", "error", "no route to host", []⟩, ⟨"", "", "", []⟩], ""⟩] := by
    decide +kernel
  rw [(replies_current (.cons hsuccess (.cons herror .nil)) .empty).1, hover]

end Poncos.Messages
