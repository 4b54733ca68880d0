import Poncos.Controller.State
import Poncos.Messages.Conversion

/-!
The files that a run starts from: the job queue and the slots of the machines.
-/

namespace Poncos

open Poncos.Library.Document
open Poncos.Messages

namespace Job

def emit (job : Job) : Entries :=
  let node := Entries.set [] "nprocs" ((unsigned 64).encode job.nprocs)
  let node := node.set "threads-per-proc" ((unsigned 64).encode job.threadsPerProc)
  let node := node.set "cmd" (Codec.string.encode job.command)
  node.set "uses-sr-protocol" (bool.encode job.usesSrProtocol)

def load (node : Node) : Load Job := do
  let nprocs ← loadField (unsigned 64) node "nprocs"
  let threadsPerProc ← loadField (unsigned 64) node "threads-per-proc"
  let command ← loadField .string node "cmd"
  let usesSrProtocol ← loadField bool node "uses-sr-protocol"
  .ok ⟨nprocs, threadsPerProc, command, usesSrProtocol⟩

/-- The numbers are in the range of their types. -/
def InRange (job : Job) : Prop := job.nprocs < 2 ^ 64 ∧ job.threadsPerProc < 2 ^ 64

theorem load_emit {job : Job} (h : job.InRange) : load job.emit.node = .ok job := by
  rw [load, load_bind_of (loadField_of job.nprocs (by simp [emit]) h.1),
    load_bind_of (loadField_of job.threadsPerProc (by simp [emit]) h.2),
    load_bind_of (loadField_of job.command (by simp [emit]) trivial),
    load_bind_of (loadField_of job.usesSrProtocol (by simp [emit]) trivial)]

theorem inRange_of_load {node : Node} {job : Job} (h : load node = .ok job) : job.InRange := by
  simp only [load, load_bind_ok] at h
  obtain ⟨_, hnprocs, _, hthreads, _, _, _, _, h⟩ := h
  cases h
  exact ⟨valid_of_loadField hnprocs, valid_of_loadField hthreads⟩

def codec : Codec Job := .record emit load InRange (fun _ => load_emit) fun _ _ => inRange_of_load

end Job

namespace Slot

def emit (slot : Slot) : Entries :=
  let node := Entries.set [] "cpus" ((Codec.vector (unsigned 32)).encode slot.cpus)
  node.set "mems" ((Codec.vector (unsigned 32)).encode slot.mems)

def load (node : Node) : Load Slot := do
  let cpus ← loadField (.vector (unsigned 32)) node "cpus"
  let mems ← loadField (.vector (unsigned 32)) node "mems"
  .ok ⟨cpus, mems⟩

def InRange (slot : Slot) : Prop :=
  (∀ cpu ∈ slot.cpus, cpu < 2 ^ 32) ∧ ∀ mem ∈ slot.mems, mem < 2 ^ 32

theorem load_emit {slot : Slot} (h : slot.InRange) : load slot.emit.node = .ok slot := by
  rw [load, load_bind_of (loadField_of slot.cpus (by simp [emit]) h.1),
    load_bind_of (loadField_of slot.mems (by simp [emit]) h.2)]

theorem inRange_of_load {node : Node} {slot : Slot} (h : load node = .ok slot) :
    slot.InRange := by
  simp only [load, load_bind_ok] at h
  obtain ⟨_, hcpus, _, hmems, h⟩ := h
  cases h
  exact ⟨valid_of_loadField hcpus, valid_of_loadField hmems⟩

def codec : Codec Slot :=
  .record emit load InRange (fun _ => load_emit) fun _ _ => inRange_of_load

end Slot

namespace Messages

section List

variable {α : Type} (codec : Codec α) (key : String)

/-- A class with one list. -/
def emitList (xs : List α) : Entries := Entries.set [] key ((Codec.vector codec).encode xs)

def loadList (node : Node) : Load (List α) := loadField (.vector codec) node key

variable {codec key}

theorem loadList_emitList {xs : List α} (h : ∀ x ∈ xs, codec.Valid x) :
    loadList codec key (emitList codec key xs).node = .ok xs :=
  loadField_of xs (by simp [emitList]) h

theorem loadList_eq_ok {node : Node} {xs : List α} : loadList codec key node = .ok xs ↔
    ∃ items, node.get key = .ok (some (.sequence items)) ∧
      List.Forall₂ (fun item x => codec.as item = .ok x) items xs := by
  simp only [loadList, loadField_eq_ok, vector_as]
  constructor
  · rintro ⟨_, hget, items, rfl, hitems⟩
    exact ⟨items, hget, hitems⟩
  · rintro ⟨items, hget, hitems⟩
    exact ⟨_, hget, items, rfl, hitems⟩

end List

end Messages

namespace JobQueue

def emit (jobs : List Job) : Entries := emitList Job.codec "job-list" jobs

def load (node : Node) : Load (List Job) := loadList Job.codec "job-list" node

end JobQueue

namespace SystemConfig

def emit (config : SystemConfig) : Entries := emitList Slot.codec "slot-list" config.slots

def load (node : Node) : Load SystemConfig := do
  let slots ← loadList Slot.codec "slot-list" node
  .ok ⟨slots⟩

theorem load_eq_ok {node : Node} {config : SystemConfig} :
    load node = .ok config ↔ loadList Slot.codec "slot-list" node = .ok config.slots := by
  simp only [load, load_bind_ok]
  constructor
  · rintro ⟨slots, hslots, h⟩
    cases h
    exact hslots
  · exact fun h => ⟨config.slots, h, rfl⟩

end SystemConfig

/-- A job queue and a system configuration are accepted as a whole, entry for entry and in
order; every number of them is in the range of its type, and what was accepted can be
written and is then accepted as the same. -/
theorem configurations_reload (node : Node) :
    (∀ jobs, JobQueue.load node = .ok jobs →
      (∃ items, node.get "job-list" = .ok (some (.sequence items)) ∧
        List.Forall₂ (fun item job => Job.load item = .ok job) items jobs) ∧
      (∀ job ∈ jobs, job.InRange) ∧ JobQueue.load (JobQueue.emit jobs).node = .ok jobs) ∧
    ∀ config, SystemConfig.load node = .ok config →
      (∃ items, node.get "slot-list" = .ok (some (.sequence items)) ∧
        List.Forall₂ (fun item slot => Slot.load item = .ok slot) items config.slots) ∧
      (∀ slot ∈ config.slots, slot.InRange) ∧
      SystemConfig.load config.emit.node = .ok config := by
  constructor
  · intro jobs h
    have hvalid : ∀ job ∈ jobs, Job.codec.Valid job := valid_of_loadField h
    obtain ⟨items, hget, hitems⟩ := loadList_eq_ok.mp h
    exact ⟨⟨items, hget, hitems.imp fun _ _ => as_record.mp⟩, hvalid, loadList_emitList hvalid⟩
  · intro config h
    have h := SystemConfig.load_eq_ok.mp h
    have hvalid : ∀ slot ∈ config.slots, Slot.codec.Valid slot := valid_of_loadField h
    obtain ⟨items, hget, hitems⟩ := loadList_eq_ok.mp h
    exact ⟨⟨items, hget, hitems.imp fun _ _ => as_record.mp⟩, hvalid,
      SystemConfig.load_eq_ok.mpr (loadList_emitList hvalid)⟩

/-- A queue of one job with its threads in octal. -/
theorem configurations_reload_octal :
    JobQueue.load (JobQueue.emit [⟨4, 8, "ep.C.4", false⟩]).node =
      .ok [⟨4, 8, "ep.C.4", false⟩] := by
  have hload : JobQueue.load (.map [("job-list", .sequence [.map [("nprocs", .scalar "4"),
      ("threads-per-proc", .scalar "010"), ("cmd", .scalar "ep.C.4"),
      ("uses-sr-protocol", .scalar "no")]])]) = .ok [⟨4, 8, "ep.C.4", false⟩] := by
    rfl
  exact ((configurations_reload _).1 _ hload).2.2

end Poncos
