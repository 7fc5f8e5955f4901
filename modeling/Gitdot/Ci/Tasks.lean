/-
# Tasks

The rows of `ci.tasks`, the statuses a runner may report, and `update_task`:
it writes the status of one task, and when that is a success it releases the
blocked tasks of the same build whose dependencies have all succeeded.

A runner may report only `running`, `success` and `failure`
(`UpdateTaskRequest.new_ok`). `updateTask_ok` says which runs of the service
succeed and what table they leave, `updated`. In it the task has the status
that was reported, and any other status that changed is one that a success
released (`statusOf_updated_self`, `statusOf_updated_of_ne`).

Key definitions: `Task`, `TaskStatus`, `UpdateTaskRequest.new`,
`TaskTable.updateTask`, `TaskTable.unblockTasks`, `updateTask`, `Moves`.
Key theorems: `UpdateTaskRequest.new_ok`, `updateTask_ok`,
`statusOf_updated_of_ne`, `moves_iff`.
-/
import Gitdot.Server.Comments

namespace Gitdot
namespace Ci

open Lib

/-- `TaskStatus`. -/
inductive TaskStatus where
  | blocked
  | pending
  | assigned
  | running
  | success
  | failure
  deriving DecidableEq

/-- A row of `ci.tasks`. -/
structure Task where
  id : Uuid
  repositoryId : Uuid
  buildId : Uuid
  s2Uri : String
  waitsFor : List Uuid
  status : TaskStatus
  name : String
  command : String
  runnerId : Option Uuid
  deriving DecidableEq

instance : Keyed Task Uuid := ⟨Task.id⟩

@[simp] theorem key_task (t : Task) : Keyed.key t = t.id := rfl

/-- `TaskError`, of the services for tasks. -/
inductive TaskError where
  | input (field reason : String)
  | notFound (entity id : String)
  | databaseError (e : DatabaseError)
  deriving DecidableEq

/-! ### Statuses -/

/-- `Into<String>`. -/
def TaskStatus.text : TaskStatus → String
  | .blocked => "blocked"
  | .pending => "pending"
  | .assigned => "assigned"
  | .running => "running"
  | .success => "success"
  | .failure => "failure"

/-- `TryFrom<&str>`. -/
def TaskStatus.tryFrom (status : String) : Except TaskError TaskStatus :=
  match status with
  | "blocked" => .ok .blocked
  | "pending" => .ok .pending
  | "assigned" => .ok .assigned
  | "running" => .ok .running
  | "success" => .ok .success
  | "failure" => .ok .failure
  | _ => .error (.input "task status" status)

theorem TaskStatus.tryFrom_ok {text : String} {status : TaskStatus} :
    TaskStatus.tryFrom text = .ok status ↔ text = status.text := by
  constructor
  · intro h
    unfold TaskStatus.tryFrom at h
    split at h <;> cases h <;> rfl
  · rintro rfl
    cases status <;> rfl

theorem TaskStatus.text_injective : Function.Injective TaskStatus.text := by
  intro a b h
  have hread := TaskStatus.tryFrom_ok.mpr h
  rw [TaskStatus.tryFrom_ok.mpr rfl] at hread
  exact Except.ok.inj hread

structure UpdateTaskRequest where
  id : Uuid
  status : TaskStatus
  deriving DecidableEq

/-- `UpdateTaskRequest::new`: a runner reports that a task runs, or how it
ended. -/
def UpdateTaskRequest.new (id : Uuid) (status : String) : Except TaskError UpdateTaskRequest := do
  let status ← TaskStatus.tryFrom status
  match status with
  | .running | .success | .failure => return ⟨id, status⟩
  | _ => throw (.input "task status" status.text)

/-- The statuses a runner may report. -/
def TaskStatus.Reported : TaskStatus → Prop
  | .running | .success | .failure => True
  | _ => False

theorem UpdateTaskRequest.new_ok {id : Uuid} {text : String} {request : UpdateTaskRequest} :
    UpdateTaskRequest.new id text = .ok request ↔
      request.id = id ∧ request.status.Reported ∧ text = request.status.text := by
  unfold UpdateTaskRequest.new
  simp only [bind_eq_ok, TaskStatus.tryFrom_ok]
  obtain ⟨rid, rstatus⟩ := request
  constructor
  · rintro ⟨status, rfl, h⟩
    cases status <;> cases h <;> exact ⟨rfl, trivial, rfl⟩
  · rintro ⟨rfl, hreported, rfl⟩
    refine ⟨rstatus, rfl, ?_⟩
    cases rstatus <;> first | rfl | exact hreported.elim

/-! ### The table -/

/-- What `unblock_tasks` asks of a row of its build: it is blocked, and no
task it waits for is known that has not succeeded. -/
def Task.Ready (tasks : Table Task) (build : Uuid) (task : Task) : Prop :=
  task.buildId = build ∧ task.status = .blocked ∧
    ∀ dep ∈ task.waitsFor, ∀ other ∈ tasks.get? dep, other.status = .success

instance (tasks : Table Task) (build : Uuid) : DecidablePred (Task.Ready tasks build) := fun task =>
  letI (dep : Uuid) : Decidable (∀ other ∈ tasks.get? dep, other.status = .success) :=
    Option.decidableForallMem _
  -- the list, not the type of ids, is what there is to go through
  letI : Decidable (∀ dep ∈ task.waitsFor, ∀ other ∈ tasks.get? dep, other.status = .success) :=
    List.decidableBAll _ _
  inferInstanceAs (Decidable (task.buildId = build ∧ task.status = .blocked ∧
    ∀ dep ∈ task.waitsFor, ∀ other ∈ tasks.get? dep, other.status = .success))

namespace TaskTable

/-- `create`: the primary key refuses an id that is taken. -/
def create (tasks : Table Task) (task : Task) : Except DatabaseError Task × Table Task :=
  match tasks.insert? task with
  | none => (.error .uniqueViolation, tasks)
  | some tasks => (.ok task, tasks)

/-- What `claim_task` asks of a row. -/
def Claimable (tasks : Table Task) (repositoryIds : List Uuid) (id : Uuid) : Prop :=
  ∃ task ∈ tasks.get? id, task.status = .pending ∧ task.repositoryId ∈ repositoryIds

instance (tasks : Table Task) (repositoryIds : List Uuid) (id : Uuid) :
    Decidable (Claimable tasks repositoryIds id) :=
  match h : tasks.get? id with
  | none => .isFalse (by rintro ⟨_, htask, -⟩; simp [h] at htask)
  | some task => decidable_of_iff (task.status = .pending ∧ task.repositoryId ∈ repositoryIds)
      (by simp [Claimable, h])

/-- `claim_task`: the first of the rows in their order of creation, less those
that are locked, that can be claimed. -/
def claimTask (tasks : Table Task) (runner : Uuid) (repositoryIds order : List Uuid) :
    Option Task × Table Task :=
  match order.find? fun id => Claimable tasks repositoryIds id with
  | none => (none, tasks)
  | some id =>
    let tasks := tasks.modify id (fun t => { t with status := .assigned, runnerId := some runner })
      fun _ => rfl
    (tasks.get? id, tasks)

/-- `update_task`: its `fetch_one` fails if there is no such task. -/
def updateTask (tasks : Table Task) (id : Uuid) (status : TaskStatus) :
    Except DatabaseError Task × Table Task :=
  match tasks.get? id with
  | none => (.error .rowNotFound, tasks)
  | some task => (.ok { task with status := status },
      tasks.modify id (fun t => { t with status := status }) fun _ => rfl)

/-- What `unblock_tasks` makes of a row. -/
def release (tasks : Table Task) (build : Uuid) (task : Task) : Task :=
  if task.Ready tasks build then { task with status := .pending } else task

theorem id_release (tasks : Table Task) (build : Uuid) (task : Task) :
    (release tasks build task).id = task.id := by
  unfold release
  split_ifs <;> rfl

/-- `unblock_tasks`. -/
def unblockTasks (tasks : Table Task) (build : Uuid) : List Task × Table Task :=
  ((tasks.rows.filter (Task.Ready tasks build)).map (release tasks build),
    tasks.mapRows (release tasks build) (id_release tasks build))

end TaskTable

/-! ### The service -/

/-- The calls to the repository of tasks. The `order` of a claim is that of
the rows' creation, without the rows that others hold locked. -/
inductive TaskCall where
  | create (task : Task)
  | updateTask (id : Uuid) (status : TaskStatus)
  | claimTask (runner : Uuid) (repositoryIds order : List Uuid)
  | unblockTasks (build : Uuid)
  deriving DecidableEq

/-- What a call answers. -/
@[reducible] def TaskCall.Resp : TaskCall → Type
  | .create _ => Task
  | .updateTask _ _ => Task
  | .claimTask _ _ _ => Option Task
  | .unblockTasks _ => List Task

def execTask : (call : TaskCall) → Table Task → Except DatabaseError call.Resp × Table Task
  | .create task, tasks => TaskTable.create tasks task
  | .updateTask id status, tasks => TaskTable.updateTask tasks id status
  | .claimTask runner repositoryIds order, tasks =>
    (.ok (TaskTable.claimTask tasks runner repositoryIds order).1,
      (TaskTable.claimTask tasks runner repositoryIds order).2)
  | .unblockTasks build, tasks =>
    (.ok (TaskTable.unblockTasks tasks build).1, (TaskTable.unblockTasks tasks build).2)

/-- What answers the calls. One that fails from outside lost its connection. -/
def taskCalls : Prog.Handler TaskCall TaskCall.Resp DatabaseError (Table Task) where
  exec := execTask
  fault := fun _ => .connection

/-- Programs over the calls on tasks. -/
abbrev TaskProg := Prog TaskCall TaskCall.Resp DatabaseError TaskError

/-- One call under `?`, or under `or_not_found`. -/
def askTask (conv : DatabaseError → TaskError) (call : TaskCall) : TaskProg call.Resp :=
  Prog.perform conv call

/-- `or_not_found`, of a call's error. -/
def orNotFoundError (entity id : String) : DatabaseError → TaskError
  | .rowNotFound => .notFound entity id
  | e => .databaseError e

def updateTask (request : UpdateTaskRequest) : TaskProg Task := do
  let task ← askTask (orNotFoundError "task" (Uuid.text request.id))
    (.updateTask request.id request.status)
  if task.status = .success then do
    let _ ← askTask .databaseError (.unblockTasks task.buildId)
    pure task
  else pure task

/-! ### What a run leaves -/

/-- The database answers the calls of `update_task` with this status. -/
def Answered (plan : List Bool) (status : TaskStatus) : Prop :=
  plan.headD false = false ∧ (status = .success → plan.tail.headD false = false)

/-- The table with the status of one task written. -/
def written (tasks : Table Task) (id : Uuid) (status : TaskStatus) : Table Task :=
  tasks.modify id (fun t => { t with status := status }) fun _ => rfl

/-- The table that `update_task` leaves. -/
def updated (tasks : Table Task) (build : Uuid) (request : UpdateTaskRequest) : Table Task :=
  if request.status = .success then
    (TaskTable.unblockTasks (written tasks request.id request.status) build).2
  else written tasks request.id request.status

theorem exec_updateTask_none {tasks : Table Task} {id : Uuid} {status : TaskStatus}
    (hold : tasks.get? id = none) :
    taskCalls.exec (.updateTask id status) tasks = (.error .rowNotFound, tasks) := by
  simp only [taskCalls, execTask, TaskTable.updateTask, hold]

theorem exec_updateTask_some {tasks : Table Task} {id : Uuid} {status : TaskStatus} {old : Task}
    (hold : tasks.get? id = some old) :
    taskCalls.exec (.updateTask id status) tasks =
      (.ok { old with status := status }, written tasks id status) := by
  simp only [taskCalls, execTask, TaskTable.updateTask, hold]
  rfl

/-- The runs that succeed: the task is there, and the database answers. -/
theorem updateTask_ok {plan : List Bool} {tasks : Table Task} {request : UpdateTaskRequest}
    {task : Task} {tasks' : Table Task} :
    (updateTask request).run taskCalls plan tasks = (.ok task, tasks') ↔
      Answered plan request.status ∧ ∃ old, tasks.get? request.id = some old ∧
        task = { old with status := request.status } ∧
        tasks' = updated tasks old.buildId request := by
  unfold updateTask askTask Answered updated
  cases hplan : plan.headD false with
  | true =>
    rw [Prog.run_perform_bind_fault hplan]
    simp
  | false =>
    cases hold : tasks.get? request.id with
    | none =>
      rw [Prog.run_perform_bind_error hplan (exec_updateTask_none hold)]
      simp
    | some old =>
      rw [Prog.run_perform_bind_ok hplan (exec_updateTask_some hold)]
      by_cases hstatus : request.status = .success
      · rw [if_pos hstatus]
        cases hplan' : plan.tail.headD false with
        | true =>
          rw [Prog.run_perform_bind_fault hplan']
          simp [hstatus]
        | false =>
          rw [Prog.run_perform_bind_ok hplan' rfl]
          constructor
          · intro h
            cases h
            exact ⟨⟨rfl, fun _ => rfl⟩, old, rfl, rfl, (if_pos hstatus).symm⟩
          · rintro ⟨-, _, hsome, rfl, rfl⟩
            cases hsome
            rw [if_pos hstatus]
            rfl
      · rw [if_neg hstatus]
        constructor
        · intro h
          cases h
          exact ⟨⟨rfl, fun h => absurd h hstatus⟩, old, rfl, rfl, (if_neg hstatus).symm⟩
        · rintro ⟨-, _, hsome, rfl, rfl⟩
          cases hsome
          rw [if_neg hstatus]
          rfl

/-! ### Statuses it changes -/

def statusOf (tasks : Table Task) (id : Uuid) : Option TaskStatus := (tasks.get? id).map Task.status

theorem get?_written (tasks : Table Task) (id : Uuid) (status : TaskStatus) (k : Uuid) :
    (written tasks id status).get? k =
      if k = id then (tasks.get? id).map fun t => { t with status := status } else tasks.get? k :=
  Table.get?_modify k

theorem statusOf_unblockTasks (tasks : Table Task) (build k : Uuid) :
    statusOf (TaskTable.unblockTasks tasks build).2 k =
      (tasks.get? k).map fun t => if t.Ready tasks build then .pending else t.status := by
  unfold statusOf TaskTable.unblockTasks
  rw [Table.get?_mapRows, Option.map_map]
  congr 1
  funext t
  unfold TaskTable.release
  dsimp only [Function.comp_apply]
  split_ifs <;> rfl

/-- A status that `unblock_tasks` changes was blocked and is pending. -/
theorem statusOf_unblockTasks_ne {tasks : Table Task} {build k : Uuid}
    (hne : statusOf (TaskTable.unblockTasks tasks build).2 k ≠ statusOf tasks k) :
    statusOf tasks k = some .blocked ∧
      statusOf (TaskTable.unblockTasks tasks build).2 k = some .pending := by
  rw [statusOf_unblockTasks] at hne ⊢
  unfold statusOf at hne ⊢
  cases hk : tasks.get? k with
  | none => simp [hk] at hne
  | some t =>
    simp only [hk, Option.map_some, ne_eq, Option.some.injEq] at hne ⊢
    split_ifs at hne ⊢ with hready
    · exact ⟨hready.2.1, rfl⟩
    · exact absurd rfl hne

/-- `unblock_tasks` changes a status if a row of the build is ready. -/
theorem exists_statusOf_unblockTasks_ne {tasks : Table Task} {build : Uuid} :
    (∃ k, statusOf (TaskTable.unblockTasks tasks build).2 k ≠ statusOf tasks k) ↔
      ∃ t ∈ tasks.rows, t.Ready tasks build := by
  constructor
  · rintro ⟨k, hne⟩
    rw [statusOf_unblockTasks, statusOf] at hne
    cases hk : tasks.get? k with
    | none => simp [hk] at hne
    | some t =>
      refine ⟨t, Table.mem_rows_of_get? hk, ?_⟩
      by_contra hready
      simp [hk, hready] at hne
  · rintro ⟨t, ht, hready⟩
    have hget : tasks.get? t.id = some t := Table.get?_key ht
    refine ⟨t.id, ?_⟩
    rw [statusOf_unblockTasks, statusOf, hget]
    simp [hready, hready.2.1]

section Updated

variable {tasks : Table Task} {request : UpdateTaskRequest} {old : Task}

/-- The task has the status that was reported. -/
theorem statusOf_updated_self (hold : tasks.get? request.id = some old) :
    statusOf (updated tasks old.buildId request) request.id = some request.status := by
  have hself : (written tasks request.id request.status).get? request.id =
      some { old with status := request.status } := by
    rw [get?_written, if_pos rfl, hold]
    rfl
  unfold updated
  split_ifs with hstatus
  · have hnot : ¬ Task.Ready (written tasks request.id request.status) old.buildId
        { old with status := request.status } := by
      rintro ⟨-, hblocked, -⟩
      rw [hstatus] at hblocked
      cases hblocked
    rw [statusOf_unblockTasks, hself, Option.map_some, if_neg hnot]
  · rw [statusOf, hself, Option.map_some]

/-- The other tasks whose status changes are released by a success. -/
theorem statusOf_updated_of_ne {build k : Uuid} (hk : k ≠ request.id)
    (hne : statusOf (updated tasks build request) k ≠ statusOf tasks k) :
    request.status = .success ∧ statusOf tasks k = some .blocked ∧
      statusOf (updated tasks build request) k = some .pending := by
  have hother : statusOf (written tasks request.id request.status) k = statusOf tasks k := by
    rw [statusOf, get?_written, if_neg hk, statusOf]
  unfold updated at hne ⊢
  split_ifs at hne ⊢ with hstatus
  · rw [← hother] at hne ⊢
    exact ⟨hstatus, statusOf_unblockTasks_ne hne⟩
  · exact absurd hother hne

/-- A report that changes a status: that of the task, or that of a blocked
task of its build that nothing holds up. -/
def Moves (tasks : Table Task) (request : UpdateTaskRequest) : Prop :=
  ∃ old, tasks.get? request.id = some old ∧
    (old.status ≠ request.status ∨
      request.status = .success ∧ ∃ t ∈ tasks.rows, t.Ready tasks old.buildId)

theorem moves_iff (hold : tasks.get? request.id = some old) :
    Moves tasks request ↔
      ∃ k, statusOf (updated tasks old.buildId request) k ≠ statusOf tasks k := by
  by_cases hsame : old.status = request.status
  · -- writing the status the task has leaves the table as it is
    have hwritten : written tasks request.id request.status = tasks := by
      refine Table.modify_eq_self fun t ht => ?_
      rw [hold] at ht
      cases ht
      rw [← hsame]
    have hold_eq : ∀ old', tasks.get? request.id = some old' → old' = old := fun old' h =>
      Option.some.inj (h.symm.trans hold)
    unfold updated
    rw [hwritten]
    constructor
    · rintro ⟨old', hold', hmoves⟩
      rw [hold_eq old' hold'] at hmoves
      obtain hne | ⟨hstatus, hready⟩ := hmoves
      · exact absurd hsame hne
      · rw [if_pos hstatus]
        exact exists_statusOf_unblockTasks_ne.mpr hready
    · rintro ⟨k, hne⟩
      split_ifs at hne with hstatus
      · exact ⟨old, hold, .inr ⟨hstatus, exists_statusOf_unblockTasks_ne.mp ⟨k, hne⟩⟩⟩
      · exact absurd rfl hne
  · refine ⟨fun _ => ⟨request.id, ?_⟩, fun _ => ⟨old, hold, .inl hsame⟩⟩
    rw [statusOf_updated_self hold, statusOf, hold, Option.map_some]
    exact fun h => hsame (Option.some.inj h).symm

end Updated

end Ci
end Gitdot
