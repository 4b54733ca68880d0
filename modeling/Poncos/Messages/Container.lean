import Poncos.Messages.Task

/-!
The container of the tasks.  The kind of the first task decides where the tasks are
written: a migration or a repinning goes among the keys of the container itself, which
keeps them apart from its own only by their names; the other kinds go into a list.
-/

namespace Poncos.Messages

open Poncos.Library.Document

/-- A task of any class; `plain` is an object of the base class itself. -/
inductive Subtask where
  | start (task : Start)
  | stop (task : Stop)
  | migrate (task : Migrate)
  | repin (task : Repin)
  | suspend (task : Suspend)
  | resume (task : Resume)
  | quit (task : Quit)
  | plain (task : Task)
  deriving DecidableEq, Repr

namespace Subtask

inductive Kind where
  | start
  | stop
  | migrate
  | repin
  | suspend
  | resume
  | quit
  | plain
  deriving DecidableEq, Repr

def kind : Subtask → Kind
  | .start _ => .start
  | .stop _ => .stop
  | .migrate _ => .migrate
  | .repin _ => .repin
  | .suspend _ => .suspend
  | .resume _ => .resume
  | .quit _ => .quit
  | .plain _ => .plain

def emit : Subtask → Entries
  | .start task => task.emit
  | .stop task => task.emit
  | .migrate task => task.emit
  | .repin task => task.emit
  | .suspend task => task.emit
  | .resume task => task.emit
  | .quit task => task.emit
  | .plain task => task.emit

/-- The numbers of the task are in the range of their types. -/
def Valid : Subtask → Prop
  | .start task => task.Valid
  | .migrate task => task.Valid
  | .repin task => task.Valid
  | _ => True

end Subtask

structure TaskContainer where
  tasks : List Subtask
  concurrentExecution : Option Bool
  id : Option String
  deriving DecidableEq, Repr

namespace TaskContainer

/-- The container before anything is loaded. -/
def empty : TaskContainer := ⟨[], none, none⟩

def type (container : TaskContainer) (enableResultFormat : Bool) : Load String :=
  match container.tasks with
  | [] => .error (.runtime "No subtasks available to get type.")
  | .start _ :: _ => .ok (if enableResultFormat then "vm started" else "start vm")
  | .stop _ :: _ => .ok (if enableResultFormat then "vm stopped" else "stop vm")
  | .migrate _ :: _ => .ok (if enableResultFormat then "vm migrated" else "migrate vm")
  | .repin _ :: _ => .ok (if enableResultFormat then "vm repinned" else "repin vm")
  | .suspend _ :: _ => .ok (if enableResultFormat then "vm suspended" else "suspend vm")
  | .resume _ :: _ => .ok (if enableResultFormat then "vm resumed" else "resume vm")
  | .quit _ :: _ => .ok "quit"
  | .plain _ :: _ => .error (.runtime "Unknown type of Task.")

def emitTasks (typeStr : String) (tasks : List Subtask) (node : Entries) : Entries :=
  let list := Node.sequence (tasks.map fun task => task.emit.node)
  if typeStr = "migrate vm" then node.merge ((tasks.head?.map Subtask.emit).getD [])
  else if typeStr = "repin vm" then node.merge ((tasks.head?.map Subtask.emit).getD [])
  else if typeStr = "start vm" then node.set "vm-configurations" list
  else node.set "list" list

def emit (container : TaskContainer) : Load Entries := do
  let typeStr ← container.type false
  let node := Entries.set [] "task" (Codec.string.encode typeStr)
  let node := emitTasks typeStr container.tasks node
  let node := node.merge (emitOptional bool "concurrent-execution" container.concurrentExecution)
  .ok (node.merge (emitOptional .string "id" container.id))

/-- The tasks of a list, all of one class. -/
def loadList {α : Type} (codec : Codec α) (subtask : α → Subtask) (node : Node) (key : String) :
    Load (List Subtask) := do
  let tasks ← loadField (.vector codec) node key
  .ok (tasks.map subtask)

/-- A task whose keys are those of the container. -/
def loadSingle {α : Type} (codec : Codec α) (subtask : α → Subtask) (node : Node) :
    Load (List Subtask) := do
  let task ← codec.as node
  .ok [subtask task]

def loadTasks (type : String) (node : Node) : Load (List Subtask) :=
  if type = "start vm" then loadList Start.codec .start node "vm-configurations"
  else if type = "stop vm" then loadList Stop.codec .stop node "list"
  else if type = "migrate vm" then loadSingle Migrate.codec .migrate node
  else if type = "repin vm" then loadSingle Repin.codec .repin node
  else if type = "suspend vm" then loadList DomainTask.codec .suspend node "list"
  else if type = "resume vm" then loadList DomainTask.codec .resume node "list"
  else if type = "quit" then loadSingle Task.codec .quit node
  else .error (.runtime "Unknown type of Task while loading.")

def loadType (node : Node) : Load String :=
  match loadField .string node "task" with
  | .ok type => .ok type
  | .error _ => .error (.runtime "Cannot find key \"task\" to load Task from YAML.")

/-- `load` on a container that was used before: what the document does not mention stays. -/
def load (container : TaskContainer) (node : Node) : Load TaskContainer := do
  let type ← loadType node
  let tasks ← loadTasks type node
  let concurrentExecution ←
    loadOptional bool container.concurrentExecution node "concurrent-execution"
  let id ← loadOptional .string container.id node "id"
  .ok ⟨tasks, concurrentExecution, id⟩

/-- All tasks are of the kind of the first one, and there is one. -/
def Uniform (container : TaskContainer) : Prop :=
  ∃ kind ≠ Subtask.Kind.plain, container.tasks ≠ [] ∧ ∀ task ∈ container.tasks, task.kind = kind

def Valid (container : TaskContainer) : Prop := ∀ task ∈ container.tasks, task.Valid

/-- What a container is loaded as, once it was written. -/
def arrived (container : TaskContainer) : TaskContainer :=
  match container.tasks with
  | .migrate task :: _ =>
      let concurrentExecution := task.concurrentExecution.or container.concurrentExecution
      { container with tasks := [.migrate { task with concurrentExecution }], concurrentExecution }
  | .repin task :: _ =>
      let concurrentExecution := task.concurrentExecution.or container.concurrentExecution
      { container with tasks := [.repin { task with concurrentExecution }], concurrentExecution }
  | .quit _ :: _ =>
      { container with tasks := [.quit ⟨container.concurrentExecution, none, none⟩] }
  | _ => container

section Arrival

variable {container : TaskContainer} {entries : Entries} {tasks : List Subtask}

/-- The keys of the container itself are read from where they were written. -/
theorem load_of {type : String} {concurrentExecution : Option Bool}
    (htype : entries.get? "task" = some (Codec.string.encode type))
    (htasks : loadTasks type entries.node = .ok tasks)
    (hconcurrent : entries.get? "concurrent-execution" = concurrentExecution.map bool.encode)
    (hid : entries.get? "id" = container.id.map Codec.string.encode) :
    load empty entries.node = .ok { container with tasks, concurrentExecution } := by
  have hloadType : loadType entries.node = .ok type := by
    rw [loadType, loadField_of type htype trivial]
  rw [load, load_bind_of hloadType, load_bind_of htasks]
  simp only [empty]
  rw [load_bind_of (loadOptional_of _ hconcurrent fun _ _ => trivial),
    load_bind_of (loadOptional_of _ hid fun _ _ => trivial)]

theorem loadList_of {α : Type} {codec : Codec α} (subtask : α → Subtask) {key : String}
    (xs : List α) (hkey : entries.get? key = some ((Codec.vector codec).encode xs))
    (hvalid : ∀ x ∈ xs, codec.Valid x) :
    loadList codec subtask entries.node key = .ok (xs.map subtask) := by
  rw [loadList, load_bind_of (loadField_of xs hkey hvalid)]

theorem exists_map {α : Type} {subtask : α → Subtask}
    (h : ∀ task ∈ tasks, ∃ x, subtask x = task) : ∃ xs : List α, tasks = xs.map subtask := by
  induction tasks with
  | nil => exact ⟨[], rfl⟩
  | cons task tasks ih =>
      obtain ⟨x, rfl⟩ := h task List.mem_cons_self
      obtain ⟨xs, rfl⟩ := ih fun t ht => h t (List.mem_cons_of_mem _ ht)
      exact ⟨x :: xs, rfl⟩

/-- The kinds whose tasks go into a list. -/
theorem list_arrives {α : Type} (codec : Codec α) (subtask : α → Subtask) (type key : String)
    (htype : container.type false = .ok type)
    (hemit : ∀ tasks node, emitTasks type tasks node =
      node.set key (.sequence (tasks.map fun task => task.emit.node)))
    (hload : ∀ node, loadTasks type node = loadList codec subtask node key)
    (hkey : "task" ≠ key ∧ "concurrent-execution" ≠ key ∧ "id" ≠ key)
    (hencode : ∀ x, (subtask x).emit.node = codec.encode x)
    (hvalid : ∀ x, subtask x ∈ container.tasks → codec.Valid x)
    (hclass : ∀ task ∈ container.tasks, ∃ x, subtask x = task) :
    ∃ node, container.emit = .ok node ∧ load empty node.node = .ok container := by
  obtain ⟨hkeyTask, hkeyConcurrent, hkeyId⟩ := hkey
  obtain ⟨xs, hxs⟩ := exists_map hclass
  have hlist : (container.tasks.map fun task => task.emit.node) = xs.map codec.encode := by
    rw [hxs, List.map_map]
    exact List.map_congr_left fun x _ => hencode x
  refine ⟨_, by rw [emit, load_bind_of htype], ?_⟩
  rw [hemit, hlist]
  refine @load_of container _ container.tasks type container.concurrentExecution
    (by simp [hkeyTask]) ?_ (by simp [hkeyConcurrent]) (by simp [hkeyId])
  rw [hload, hxs]
  refine loadList_of subtask xs (by simp [Codec.vector]) fun x hx => hvalid x ?_
  rw [hxs]
  exact List.mem_map_of_mem hx

/-- The kinds whose task is written among the keys of the container. -/
theorem single_arrives {α : Type} (codec : Codec α) (subtask : α → Subtask) (type : String)
    {written loaded : α} {rest : List Subtask}
    (htasks : container.tasks = subtask written :: rest)
    (htype : container.type false = .ok type)
    (hemit : ∀ tasks node, emitTasks type tasks node =
      node.merge ((tasks.head?.map Subtask.emit).getD []))
    (hload : ∀ node, loadTasks type node = loadSingle codec subtask node)
    (hfree : (subtask written).emit.get? "task" = none ∧ (subtask written).emit.get? "id" = none)
    {concurrentExecution : Option Bool}
    (hconcurrent : ((subtask written).emit.get? "concurrent-execution").or
      (container.concurrentExecution.map bool.encode) = concurrentExecution.map bool.encode)
    (hloaded : ∀ entries : Entries,
      (∀ key, key ≠ "task" → key ≠ "id" → entries.get? key =
        ((subtask written).emit.get? key).or ((emitOptional bool "concurrent-execution"
          container.concurrentExecution).get? key)) → codec.as entries.node = .ok loaded) :
    ∃ node, container.emit = .ok node ∧ load empty node.node =
      .ok { container with tasks := [subtask loaded], concurrentExecution } := by
  refine ⟨_, by rw [emit, load_bind_of htype], ?_⟩
  rw [hemit, htasks]
  refine @load_of container _ [subtask loaded] type concurrentExecution
    (by simp) ?_ (by simpa using hconcurrent) (by simp [hfree.2])
  rw [hload, loadSingle, load_bind_of (hloaded _ fun key htask hid => ?_)]
  simp [htask, hid]

theorem migrate_arrives {task : Migrate} {rest : List Subtask} (hvalid : task.Valid)
    (htasks : container.tasks = .migrate task :: rest) :
    ∃ node, container.emit = .ok node ∧ load empty node.node = .ok container.arrived := by
  rw [arrived, htasks]
  refine single_arrives Migrate.codec .migrate "migrate vm" htasks (by simp [type, htasks])
    ?_ ?_ ?_ ?_ ?_
  · simp [emitTasks]
  · simp [loadTasks]
  · simp [Subtask.emit, Migrate.emit, Task.emit]
  · cases htask : task.concurrentExecution <;>
      simp [Subtask.emit, Migrate.emit, Task.emit, htask]
  · intro entries hentries
    refine as_record.mpr (@Migrate.load_written { task with
      concurrentExecution := task.concurrentExecution.or container.concurrentExecution }
      ⟨hvalid.swapWith, hvalid.vcpuMap⟩ entries ?_)
    constructor
    · constructor <;>
        cases htask : task.concurrentExecution <;>
        simp [hentries, Subtask.emit, Migrate.emit, Task.emit, htask]
    all_goals simp [hentries, Subtask.emit, Migrate.emit, Task.emit]
    rfl

theorem repin_arrives {task : Repin} {rest : List Subtask} (hvalid : task.Valid)
    (htasks : container.tasks = .repin task :: rest) :
    ∃ node, container.emit = .ok node ∧ load empty node.node = .ok container.arrived := by
  rw [arrived, htasks]
  refine single_arrives Repin.codec .repin "repin vm" htasks (by simp [type, htasks])
    ?_ ?_ ?_ ?_ ?_
  · simp [emitTasks]
  · simp [loadTasks]
  · simp [Subtask.emit, Repin.emit, Task.emit]
  · cases htask : task.concurrentExecution <;>
      simp [Subtask.emit, Repin.emit, Task.emit, htask]
  · intro entries hentries
    refine as_record.mpr (@Repin.load_written { task with
      concurrentExecution := task.concurrentExecution.or container.concurrentExecution }
      hvalid entries ?_)
    constructor
    · constructor <;>
        cases htask : task.concurrentExecution <;>
        simp [hentries, Subtask.emit, Repin.emit, Task.emit, htask]
    all_goals simp [hentries, Subtask.emit, Repin.emit, Task.emit]

/-- The keys of a `Quit` are looked for in the container, but were written in the list. -/
theorem quit_arrives {task : Quit} {rest : List Subtask}
    (htasks : container.tasks = .quit task :: rest) :
    ∃ node, container.emit = .ok node ∧ load empty node.node = .ok container.arrived := by
  have htype : container.type false = .ok "quit" := by simp [type, htasks]
  have hload : ∀ {entries : Entries}, Task.Written ⟨container.concurrentExecution, none, none⟩
      entries → loadTasks "quit" entries.node =
        .ok [.quit ⟨container.concurrentExecution, none, none⟩] := by
    intro entries hwritten
    have htask : Task.codec.as entries.node = .ok ⟨container.concurrentExecution, none, none⟩ :=
      as_record.mpr (Task.load_written hwritten)
    simp [loadTasks, loadSingle, load_bind_of htask]
  refine ⟨_, by rw [emit, load_bind_of htype], ?_⟩
  rw [arrived, htasks]
  refine @load_of container _ _ "quit" _ (by simp [emitTasks]) (hload ?_) (by simp [emitTasks])
    (by simp [emitTasks])
  constructor <;> simp [emitTasks]

/-- What an agent makes out of a container that was sent to it. -/
theorem arrives (hvalid : container.Valid) (huniform : container.Uniform) :
    ∃ node, container.emit = .ok node ∧ load empty node.node = .ok container.arrived := by
  obtain ⟨kind, hplain, hne, hkind⟩ := huniform
  obtain ⟨first, rest, htasks⟩ := List.exists_cons_of_ne_nil hne
  have hfirst : first.kind = kind := hkind first (by simp [htasks])
  have hclass : ∀ task ∈ container.tasks, task.kind = first.kind :=
    fun task htask => (hkind task htask).trans hfirst.symm
  cases first with
  | start task =>
      have harrived : container.arrived = container := by simp [arrived, htasks]
      rw [harrived]
      refine list_arrives Start.codec .start "start vm" "vm-configurations"
        (by simp [type, htasks]) (fun _ _ => by simp [emitTasks]) (fun _ => by simp [loadTasks])
        (by decide) (fun _ => rfl) (fun x hx => hvalid _ hx) fun t ht => ?_
      have := hclass t ht
      cases t <;> first | exact ⟨_, rfl⟩ | cases this
  | stop task =>
      have harrived : container.arrived = container := by simp [arrived, htasks]
      rw [harrived]
      refine list_arrives Stop.codec .stop "stop vm" "list"
        (by simp [type, htasks]) (fun _ _ => by simp [emitTasks]) (fun _ => by simp [loadTasks])
        (by decide) (fun _ => rfl) (fun x hx => hvalid _ hx) fun t ht => ?_
      have := hclass t ht
      cases t <;> first | exact ⟨_, rfl⟩ | cases this
  | migrate task => exact migrate_arrives (hvalid (.migrate task) (by simp [htasks])) htasks
  | repin task => exact repin_arrives (hvalid (.repin task) (by simp [htasks])) htasks
  | suspend task =>
      have harrived : container.arrived = container := by simp [arrived, htasks]
      rw [harrived]
      refine list_arrives DomainTask.codec .suspend "suspend vm" "list"
        (by simp [type, htasks]) (fun _ _ => by simp [emitTasks]) (fun _ => by simp [loadTasks])
        (by decide) (fun _ => rfl) (fun x hx => hvalid _ hx) fun t ht => ?_
      have := hclass t ht
      cases t <;> first | exact ⟨_, rfl⟩ | cases this
  | resume task =>
      have harrived : container.arrived = container := by simp [arrived, htasks]
      rw [harrived]
      refine list_arrives DomainTask.codec .resume "resume vm" "list"
        (by simp [type, htasks]) (fun _ _ => by simp [emitTasks]) (fun _ => by simp [loadTasks])
        (by decide) (fun _ => rfl) (fun x hx => hvalid _ hx) fun t ht => ?_
      have := hclass t ht
      cases t <;> first | exact ⟨_, rfl⟩ | cases this
  | quit task => exact quit_arrives htasks
  | plain task => exact absurd hfirst.symm hplain

/-- Nothing is lost on the way: what is written among the keys of the container is one
task only, and it does not disagree with the container. -/
def Kept (container : TaskContainer) : Prop :=
  match container.tasks with
  | .migrate task :: rest =>
      rest = [] ∧ task.concurrentExecution = container.concurrentExecution
  | .repin task :: rest =>
      rest = [] ∧ task.concurrentExecution = container.concurrentExecution
  | .quit task :: rest => rest = [] ∧ task = ⟨container.concurrentExecution, none, none⟩
  | _ => True

theorem or_eq_iff {a b : Option Bool} : a.or b = a ∧ a.or b = b ↔ a = b := by
  cases a <;> cases b <;> simp

theorem arrived_eq_iff (container : TaskContainer) :
    container.arrived = container ↔ container.Kept := by
  rcases container with ⟨tasks, concurrentExecution, id⟩
  rw [arrived, Kept]
  rcases tasks with _ | ⟨first, rest⟩
  · simp
  cases first with
  | migrate task =>
      simp only [TaskContainer.mk.injEq, List.cons.injEq, Subtask.migrate.injEq]
      constructor
      · rintro ⟨⟨htask, hrest⟩, hconcurrent, _⟩
        exact ⟨hrest.symm, or_eq_iff.mp
          ⟨congrArg (fun t : Migrate => t.concurrentExecution) htask, hconcurrent⟩⟩
      · rintro ⟨rfl, hsame⟩
        obtain ⟨hleft, hright⟩ := or_eq_iff.mpr hsame
        refine ⟨⟨?_, rfl⟩, hright, trivial⟩
        rw [hleft]
  | repin task =>
      simp only [TaskContainer.mk.injEq, List.cons.injEq, Subtask.repin.injEq]
      constructor
      · rintro ⟨⟨htask, hrest⟩, hconcurrent, _⟩
        exact ⟨hrest.symm, or_eq_iff.mp
          ⟨congrArg (fun t : Repin => t.concurrentExecution) htask, hconcurrent⟩⟩
      · rintro ⟨rfl, hsame⟩
        obtain ⟨hleft, hright⟩ := or_eq_iff.mpr hsame
        refine ⟨⟨?_, rfl⟩, hright, trivial⟩
        rw [hleft]
  | quit task =>
      simp only [TaskContainer.mk.injEq, List.cons.injEq, Subtask.quit.injEq, and_true]
      exact ⟨fun h => ⟨h.2.symm, h.1.symm⟩, fun h => ⟨h.2.symm, h.1.symm⟩⟩
  | _ => simp

end Arrival

section Reload

variable {container : TaskContainer} {node : Node}

theorem concurrentExecution_of_load {task : Task} (h : Task.load node = .ok task) :
    loadOptional bool none node "concurrent-execution" = .ok task.concurrentExecution := by
  simp only [Task.load, load_bind_ok] at h
  obtain ⟨concurrentExecution, hconcurrent, _, _, _, _, h⟩ := h
  cases h
  exact hconcurrent

theorem uniform_singleton {task : Subtask} {concurrentExecution : Option Bool}
    {id : Option String} (h : task.kind ≠ .plain) :
    Uniform ⟨[task], concurrentExecution, id⟩ := by
  refine ⟨task.kind, h, by simp, fun t ht => ?_⟩
  rw [List.mem_singleton.mp ht]

theorem loadSingle_eq_ok {α : Type} {codec : Codec α} {subtask : α → Subtask}
    {tasks : List Subtask} (h : loadSingle codec subtask node = .ok tasks) :
    ∃ task, codec.as node = .ok task ∧ tasks = [subtask task] := by
  simp only [loadSingle, load_bind_ok] at h
  obtain ⟨task, htask, h⟩ := h
  cases h
  exact ⟨task, htask, rfl⟩

/-- What a document is accepted as: tasks of one kind with numbers in range, and a task
that is read from the keys of the container agrees with it. -/
structure Accepted (container : TaskContainer) : Prop where
  valid : container.Valid
  uniform : container.tasks ≠ [] → container.Uniform
  kept : container.Kept ∨ ∃ task, container.tasks = [.quit task] ∧
    task.concurrentExecution = container.concurrentExecution

theorem list_accepted {α : Type} {codec : Codec α} {subtask : α → Subtask} {key : String}
    (kind : Subtask.Kind) {tasks : List Subtask} {concurrentExecution : Option Bool}
    {id : Option String} (h : loadList codec subtask node key = .ok tasks)
    (hplain : kind ≠ .plain) (hkind : ∀ x, (subtask x).kind = kind)
    (hvalid : ∀ x, codec.Valid x → (subtask x).Valid)
    (hkept : ∀ x rest, Kept ⟨subtask x :: rest, concurrentExecution, id⟩) :
    Accepted ⟨tasks, concurrentExecution, id⟩ := by
  simp only [loadList, load_bind_ok] at h
  obtain ⟨xs, hxs, h⟩ := h
  cases h
  refine ⟨fun task htask => ?_, fun hne => ⟨kind, hplain, hne, fun task htask => ?_⟩, .inl ?_⟩
  · obtain ⟨x, hx, rfl⟩ := List.mem_map.mp htask
    exact hvalid x (valid_of_loadField hxs x hx)
  · obtain ⟨x, _, rfl⟩ := List.mem_map.mp htask
    exact hkind x
  · cases xs with
    | nil => trivial
    | cons x xs => exact hkept x (xs.map subtask)

theorem accepted (h : load empty node = .ok container) : container.Accepted := by
  simp only [load, load_bind_ok] at h
  obtain ⟨type, _, tasks, htasks, concurrentExecution, hconcurrent, id, _, h⟩ := h
  cases h
  rw [loadTasks] at htasks
  split at htasks
  · exact list_accepted .start htasks (by decide) (fun _ => rfl) (fun _ h => h)
      fun _ _ => trivial
  split at htasks
  · exact list_accepted .stop htasks (by decide) (fun _ => rfl)
      (fun _ _ => trivial) fun _ _ => trivial
  split at htasks
  · obtain ⟨task, htask, rfl⟩ := loadSingle_eq_ok htasks
    have htask := as_record.mp htask
    have hsame := Except.ok.inj
      ((concurrentExecution_of_load (Migrate.task_of_load htask)).symm.trans hconcurrent)
    refine ⟨fun t ht => ?_, fun _ => uniform_singleton (by simp [Subtask.kind]),
      .inl ⟨rfl, hsame⟩⟩
    rw [List.mem_singleton.mp ht]
    exact Migrate.valid_of_load htask
  split at htasks
  · obtain ⟨task, htask, rfl⟩ := loadSingle_eq_ok htasks
    have htask := as_record.mp htask
    have hsame := Except.ok.inj
      ((concurrentExecution_of_load (Repin.task_of_load htask)).symm.trans hconcurrent)
    refine ⟨fun t ht => ?_, fun _ => uniform_singleton (by simp [Subtask.kind]),
      .inl ⟨rfl, hsame⟩⟩
    rw [List.mem_singleton.mp ht]
    exact Repin.valid_of_load htask
  split at htasks
  · exact list_accepted .suspend htasks (by decide) (fun _ => rfl)
      (fun _ _ => trivial) fun _ _ => trivial
  split at htasks
  · exact list_accepted .resume htasks (by decide) (fun _ => rfl)
      (fun _ _ => trivial) fun _ _ => trivial
  split at htasks
  · obtain ⟨task, htask, rfl⟩ := loadSingle_eq_ok htasks
    have hsame := Except.ok.inj
      ((concurrentExecution_of_load (as_record.mp htask)).symm.trans hconcurrent)
    refine ⟨fun t ht => ?_, fun _ => uniform_singleton (by simp [Subtask.kind]),
      .inr ⟨task, rfl, hsame⟩⟩
    rw [List.mem_singleton.mp ht]
    trivial
  · cases htasks

end Reload

end TaskContainer

/-- Containers whose tasks are of one kind are written, and loaded as what they are but
for what is written among the keys of the container: a second task is dropped, a flag
that only the task or only the container has is given to both, and a `Quit` keeps
nothing of its own. -/
theorem containers_arrive {container : TaskContainer} (hvalid : container.Valid)
    (huniform : container.Uniform) :
    (∃ node, container.emit = .ok node ∧
      TaskContainer.load .empty node.node = .ok container.arrived) ∧
    (container.arrived = container ↔ container.Kept) :=
  ⟨TaskContainer.arrives hvalid huniform, TaskContainer.arrived_eq_iff container⟩

/-- A migration as `update_config` sends it: the flag of the task is taken for one of the
container, too. -/
theorem containers_arrive_migrate :
    ∃ node, TaskContainer.emit ⟨[.migrate
      { concurrentExecution := some true, timeMeasurement := some false, driver := none
        vmName := "vm0", destHostname := "b", migrationType := some "warm"
        rdmaMigration := some true, pscomHookProcs := some "0", transport := none
        swapWith := some ⟨"vm1", none, some [[0], [1]]⟩, vcpuMap := some [[2], [3]] }],
      none, none⟩ = .ok node ∧
    TaskContainer.load .empty node.node = .ok ⟨[.migrate
      { concurrentExecution := some true, timeMeasurement := some false, driver := none
        vmName := "vm0", destHostname := "b", migrationType := some "warm"
        rdmaMigration := some true, pscomHookProcs := some "0", transport := none
        swapWith := some ⟨"vm1", none, some [[0], [1]]⟩, vcpuMap := some [[2], [3]] }],
      some true, none⟩ := by
  refine (containers_arrive (fun task htask => ?_) (TaskContainer.uniform_singleton ?_)).1
  · rw [List.mem_singleton.mp htask]
    refine ⟨?_, ?_⟩
    · rintro _ ⟨⟩ m ⟨⟩
      simp [cpuMap, Codec.vector, unsigned]
    · rintro m ⟨⟩
      simp [cpuMap, Codec.vector, unsigned]
  · decide

/-- What a document was loaded as can be written and loaded again without a change, but
for the empty list, which has no kind, and a `Quit` with keys of its own. -/
theorem containers_reload {node : Node} {container : TaskContainer}
    (h : TaskContainer.load .empty node = .ok container) :
    (∃ written, container.emit = .ok written ∧
      TaskContainer.load .empty written.node = .ok container) ↔
    container.tasks ≠ [] ∧ ∀ task, .quit task ∈ container.tasks →
      task.timeMeasurement = none ∧ task.driver = none := by
  have haccepted := TaskContainer.accepted h
  constructor
  · rintro ⟨written, hwritten, hload⟩
    have hne : container.tasks ≠ [] := by
      intro hnil
      simp [TaskContainer.emit, TaskContainer.type, hnil, bind, Except.bind] at hwritten
    obtain ⟨written', hwritten', harrived⟩ :=
      TaskContainer.arrives haccepted.valid (haccepted.uniform hne)
    obtain rfl := Except.ok.inj (hwritten.symm.trans hwritten')
    have hkept := (TaskContainer.arrived_eq_iff container).mp
      (Except.ok.inj (harrived.symm.trans hload))
    refine ⟨hne, fun task htask => ?_⟩
    obtain ⟨kind, _, _, hkind⟩ := haccepted.uniform hne
    obtain ⟨first, rest, htasks⟩ := List.exists_cons_of_ne_nil hne
    rw [htasks] at htask hkind
    have hfirst := (hkind first List.mem_cons_self).trans (hkind _ htask).symm
    cases first with
    | quit first =>
        rw [TaskContainer.Kept, htasks] at hkept
        obtain ⟨rfl, rfl⟩ := hkept
        rw [List.mem_singleton, Subtask.quit.injEq] at htask
        rw [htask]
        exact ⟨rfl, rfl⟩
    | _ => cases hfirst
  · rintro ⟨hne, hquit⟩
    have hkept : container.Kept := by
      rcases haccepted.kept with hkept | ⟨task, htasks, hsame⟩
      · exact hkept
      · obtain ⟨htime, hdriver⟩ := hquit task (by simp [htasks])
        rcases task with ⟨concurrentExecution, timeMeasurement, driver⟩
        simp only at hsame htime hdriver
        subst htime hdriver
        rw [TaskContainer.Kept, htasks, hsame]
        exact ⟨rfl, rfl⟩
    obtain ⟨written, hwritten, harrived⟩ :=
      TaskContainer.arrives haccepted.valid (haccepted.uniform hne)
    rw [(TaskContainer.arrived_eq_iff container).mpr hkept] at harrived
    exact ⟨written, hwritten, harrived⟩

/-- A request to stop all domains, with the flag in another spelling. -/
theorem containers_reload_stop : ∃ written,
    TaskContainer.emit ⟨[.stop ⟨⟨none, none, none⟩, none, some ".*", some true, none⟩],
      some false, none⟩ = .ok written ∧
    TaskContainer.load .empty written.node =
      .ok ⟨[.stop ⟨⟨none, none, none⟩, none, some ".*", some true, none⟩], some false, none⟩ := by
  have hload : TaskContainer.load .empty (.map [("task", .scalar "stop vm"),
      ("list", .sequence [.map [("regex", .scalar ".*"), ("force", .scalar "Yes")]]),
      ("concurrent-execution", .scalar "off")]) =
      .ok ⟨[.stop ⟨⟨none, none, none⟩, none, some ".*", some true, none⟩], some false, none⟩ := by
    rfl
  exact (containers_reload hload).mpr ⟨by simp, by simp⟩

end Poncos.Messages
