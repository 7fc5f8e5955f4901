/-
# Builds

`create_build` resolves a commit, reads its CI config, picks the build of the
trigger and inserts a row for it; `createBuild` is that much of it, with the
tasks that it then creates. Each task gets a fresh id first, so that the rows
can refer to each other: a task's row waits for the ids of those names in its
`waits_for` that the build has a task for, and it starts out blocked if there
are any.

The rows themselves are inserted by one future for each task (`Future`, and
`createTask` for what it does), which run concurrently and outside of a
transaction; `create_build` succeeds if they all do.

Key definitions: `Creation`, `createBuild`, `nameToId`, `newTask`, `Future`,
`createTask`.
Key theorems: `nameToId_isSome`, `mem_newTasks`, `createBuild_ok`.
-/
import Gitdot.Ci.Config
import Gitdot.Ci.Tasks

namespace Gitdot
namespace Ci

open Lib

structure CreateBuildRequest where
  repoOwner : String
  repoName : String
  refName : String
  commitSha : String
  deriving DecidableEq

inductive BuildStatus where
  | running
  | success
  | failure
  deriving DecidableEq

structure BuildResponse where
  id : Uuid
  number : ℤ
  repositoryId : Uuid
  refName : String
  commitSha : String
  trigger : BuildTrigger
  status : BuildStatus
  totalTasks : ℕ
  completedTasks : ℕ
  deriving DecidableEq

/-- `BuildError`. -/
inductive BuildError where
  | notFound (entity id : String)
  | invalidConfig (message : String)
  | gitError (e : GitError)
  | databaseError (e : DatabaseError)
  | s2Error (message : String)
  deriving DecidableEq

/-- A row of `ci.tasks` before its log stream is known. -/
structure NewTask where
  id : Uuid
  repositoryId : Uuid
  name : String
  command : String
  buildId : Uuid
  status : TaskStatus
  waitsFor : List Uuid
  deriving DecidableEq

def NewTask.row (new : NewTask) (s2Uri : String) : Task where
  id := new.id
  repositoryId := new.repositoryId
  buildId := new.buildId
  s2Uri := s2Uri
  waitsFor := new.waitsFor
  status := new.status
  name := new.name
  command := new.command
  runnerId := none

/-! ### The tasks of a build -/

def defaultBranch : String := "main"

/-- `rsplit('/').next()`. -/
def lastSegment (refName : String) : List Char :=
  (refName.toList.reverse.takeWhile (· ≠ '/')).reverse

def ciTrigger (refName : String) : BuildTrigger :=
  if refName = defaultBranch ∨ lastSegment refName = defaultBranch.toList then .pushToMain
  else .pullRequest

/-- The `insert` of a task that draws an id. -/
def insertId (newV4 : ℕ → Uuid) (ids : String → Option Uuid) (x : TaskConfig × ℕ) :
    String → Option Uuid :=
  Function.update ids x.1.name (some (newV4 x.2))

/-- `name_to_id`, the tasks drawing their ids in order. -/
def nameToId (newV4 : ℕ → Uuid) (taskConfigs : List TaskConfig) : String → Option Uuid :=
  taskConfigs.zipIdx.foldl (insertId newV4) fun _ => none

def newTask (ids : String → Option Uuid) (repositoryId buildId : Uuid) (taskConfig : TaskConfig)
    (id : Uuid) : NewTask :=
  let waitsFor := taskConfig.deps.filterMap ids
  { id := id
    repositoryId := repositoryId
    name := taskConfig.name
    command := taskConfig.command
    buildId := buildId
    status := if waitsFor.isEmpty then .pending else .blocked
    waitsFor := waitsFor }

/-- The tasks to create; each has an id (`nameToId_isSome`). -/
def newTasks (ids : String → Option Uuid) (repositoryId buildId : Uuid)
    (taskConfigs : List TaskConfig) : List NewTask :=
  taskConfigs.filterMap fun t => (ids t.name).map (newTask ids repositoryId buildId t)

/-! ### Creating a build -/

/-- A call of `create_build`: what it is asked, what the calls before its
first task answer, and the ids it draws. -/
structure Creation where
  request : CreateBuildRequest
  repository : Except DatabaseError (Option Uuid)
  commit : Except GitError String
  blob : Except GitError String
  build : Except DatabaseError (Uuid × ℤ)
  newV4 : ℕ → Uuid

/-- `create_build`, but for the futures of its tasks: what it returns if they
succeed, and the tasks they create. -/
def createBuild (reader : Reader) (c : Creation) : Except BuildError (BuildResponse × List NewTask) := do
  let repository ← c.repository.mapError .databaseError
  let repositoryId ←
    okOr repository (.notFound "repository" s!"{c.request.repoOwner}/{c.request.repoName}")
  let resolvedSha ← c.commit.mapError .gitError
  let content ← c.blob.mapError fun
    | .notFound _ => .notFound "config" c.request.commitSha
    | e => .gitError e
  let ciConfig ← (CiConfig.new reader content).mapError fun e => .invalidConfig e.text
  let trigger := ciTrigger c.request.refName
  let buildConfig ← (ciConfig.getBuildConfig trigger).mapError fun e => .invalidConfig e.text
  let build ← c.build.mapError .databaseError
  let taskConfigs := ciConfig.getTaskConfigs buildConfig
  let ids := nameToId c.newV4 taskConfigs
  return (
    { id := build.1
      number := build.2
      repositoryId := repositoryId
      refName := c.request.refName
      commitSha := resolvedSha
      trigger := trigger
      status := .running
      totalTasks := taskConfigs.length
      completedTasks := 0 },
    newTasks ids repositoryId build.1 taskConfigs)

/-- The future of one task of a build that is being created. -/
structure Future (reader : Reader) where
  creation : Creation
  response : BuildResponse
  tasks : List NewTask
  created : createBuild reader creation = .ok (response, tasks)
  new : NewTask
  mem : new ∈ tasks

/-- `create_stream`, by what the log service answers. -/
def createStream (answer : Except String Unit) (owner repo : String) (task : Uuid) :
    Except String String :=
  answer.map fun _ => s!"s2://{owner.toLower}-{repo.toLower}/task/{Uuid.text task}"

/-- One call under `?`. -/
def askBuild (conv : DatabaseError → BuildError) (call : TaskCall) :
    Prog TaskCall TaskCall.Resp DatabaseError BuildError call.Resp :=
  Prog.perform conv call

/-- What a future does. -/
def createTask {reader : Reader} (f : Future reader) (streamed : Except String Unit) :
    Prog TaskCall TaskCall.Resp DatabaseError BuildError Task := do
  let request := f.creation.request
  let s2Uri ← Prog.liftExcept
    ((createStream streamed request.repoOwner request.repoName f.new.id).mapError .s2Error)
  let task ← askBuild .databaseError (.create (f.new.row s2Uri))
  pure task

/-! ### What the tasks of a build wait for -/

section NameToId

variable {newV4 : ℕ → Uuid} {taskConfigs : List TaskConfig} {name : String}

theorem foldl_insertId_isSome {l : List (TaskConfig × ℕ)} {ids : String → Option Uuid} :
    (l.foldl (insertId newV4) ids name).isSome ↔ (ids name).isSome ∨ ∃ x ∈ l, x.1.name = name := by
  induction l generalizing ids with
  | nil => simp
  | cons x l ih =>
    rw [List.foldl_cons, ih, insertId]
    by_cases hx : x.1.name = name
    · subst hx
      simp
    · rw [Function.update_of_ne (Ne.symm hx)]
      simp [hx]

/-- A name has an id if the build has a task of that name. -/
theorem nameToId_isSome :
    (nameToId newV4 taskConfigs name).isSome ↔ ∃ t ∈ taskConfigs, t.name = name := by
  unfold nameToId
  rw [foldl_insertId_isSome]
  constructor
  · rintro (h | ⟨x, hx, rfl⟩)
    · cases h
    · exact ⟨x.1, (List.mem_iff_getElem?.mpr ⟨x.2, List.mk_mem_zipIdx_iff_getElem?.mp hx⟩), rfl⟩
  · rintro ⟨t, ht, rfl⟩
    obtain ⟨i, hi⟩ := List.getElem?_of_mem ht
    exact .inr ⟨(t, i), List.mk_mem_zipIdx_iff_getElem?.mpr hi, rfl⟩

end NameToId

theorem mem_newTasks {ids : String → Option Uuid} {repositoryId buildId : Uuid}
    {taskConfigs : List TaskConfig} {new : NewTask} :
    new ∈ newTasks ids repositoryId buildId taskConfigs ↔
      ∃ t ∈ taskConfigs, ∃ id, ids t.name = some id ∧ new = newTask ids repositoryId buildId t id := by
  unfold newTasks
  simp only [List.mem_filterMap, Option.map_eq_some_iff]
  constructor
  · rintro ⟨t, ht, id, hid, rfl⟩
    exact ⟨t, ht, id, hid, rfl⟩
  · rintro ⟨t, ht, id, hid, rfl⟩
    exact ⟨t, ht, id, hid, rfl⟩

/-- The config that `create_build` reads, and the build of it that it picks. -/
structure Picks (reader : Reader) (c : Creation) (config : CiConfig) (build : BuildConfig) : Prop where
  reads : ∃ content, c.blob = .ok content ∧ CiConfig.new reader content = .ok config
  finds : config.getBuildConfig (ciTrigger c.request.refName) = .ok build

section Picks

variable {reader : Reader} {c : Creation} {config config' : CiConfig} {build build' : BuildConfig}

theorem Picks.accepted (h : Picks reader c config build) : Accepted config := by
  obtain ⟨content, -, hnew⟩ := h.reads
  exact accepted_of_validate (CiConfig.new_ok.mp hnew).2

theorem Picks.mem (h : Picks reader c config build) : build ∈ config.builds :=
  List.mem_of_find?_eq_some (okOr_eq_ok.mp h.finds)

theorem Picks.unique (h : Picks reader c config build) (h' : Picks reader c config' build') :
    config = config' ∧ build = build' := by
  obtain ⟨content, hblob, hnew⟩ := h.reads
  obtain ⟨content', hblob', hnew'⟩ := h'.reads
  obtain rfl := Except.ok.inj (hblob.symm.trans hblob')
  obtain rfl := Except.ok.inj (hnew.symm.trans hnew')
  exact ⟨rfl, Except.ok.inj (h.finds.symm.trans h'.finds)⟩

/-- The tasks of a build that is created are those that it lists. -/
theorem createBuild_ok {response : BuildResponse} {tasks : List NewTask}
    (h : createBuild reader c = .ok (response, tasks)) :
    ∃ config build, Picks reader c config build ∧
      tasks = newTasks (nameToId c.newV4 (config.getTaskConfigs build)) response.repositoryId
        response.id (config.getTaskConfigs build) := by
  unfold createBuild at h
  simp only [bind_eq_ok, mapError_eq_ok, okOr_eq_ok] at h
  obtain ⟨_, -, repositoryId, -, sha, -, content, hblob, config, hconfig, build, hbuild, row, -, h⟩ := h
  cases h
  exact ⟨config, build, ⟨⟨content, hblob, hconfig⟩, hbuild⟩, rfl⟩

theorem mem_getTaskConfigs {t : TaskConfig} :
    t ∈ config.getTaskConfigs build ↔ t ∈ config.tasks ∧ t.name ∈ build.tasks := by
  simp [CiConfig.getTaskConfigs]

end Picks

/-- The row of a new task, whatever has become of its status and its runner. -/
structure NewTask.Of (new : NewTask) (t : Task) : Prop where
  id : t.id = new.id
  repositoryId : t.repositoryId = new.repositoryId
  buildId : t.buildId = new.buildId
  name : t.name = new.name
  waitsFor : t.waitsFor = new.waitsFor

instance (new : NewTask) (t : Task) : Decidable (new.Of t) :=
  decidable_of_iff (t.id = new.id ∧ t.repositoryId = new.repositoryId ∧ t.buildId = new.buildId ∧
    t.name = new.name ∧ t.waitsFor = new.waitsFor)
    ⟨fun ⟨h₁, h₂, h₃, h₄, h₅⟩ => ⟨h₁, h₂, h₃, h₄, h₅⟩,
      fun h => ⟨h.id, h.repositoryId, h.buildId, h.name, h.waitsFor⟩⟩

theorem NewTask.of_row (new : NewTask) (s2Uri : String) : new.Of (new.row s2Uri) :=
  ⟨rfl, rfl, rfl, rfl, rfl⟩

/-- The tasks of a build belong to it. -/
theorem buildId_of_created {reader : Reader} {c : Creation} {response : BuildResponse}
    {tasks : List NewTask} (hc : createBuild reader c = .ok (response, tasks)) {new : NewTask}
    (hnew : new ∈ tasks) : new.buildId = response.id := by
  obtain ⟨config, build, -, rfl⟩ := createBuild_ok hc
  obtain ⟨t, -, id, -, rfl⟩ := mem_newTasks.mp hnew
  rfl

/-- What a task waits for are tasks of its build, which the config says it waits
for. -/
theorem mem_waitsFor {reader : Reader} {c : Creation} {config : CiConfig} {build : BuildConfig}
    {response : BuildResponse} {tasks : List NewTask} (hpicks : Picks reader c config build)
    (hc : createBuild reader c = .ok (response, tasks)) {new : NewTask} (hnew : new ∈ tasks) {dep : Uuid}
    (hdep : dep ∈ new.waitsFor) :
    ∃ other ∈ tasks, other.id = dep ∧
      ∃ t ∈ config.tasks, other.name ∈ t.deps ∧ t.name = new.name := by
  obtain ⟨config', build', hpicks', rfl⟩ := createBuild_ok hc
  obtain ⟨rfl, rfl⟩ := hpicks.unique hpicks'
  obtain ⟨t, ht, id, -, rfl⟩ := mem_newTasks.mp hnew
  obtain ⟨name, hname, hid⟩ := List.mem_filterMap.mp hdep
  obtain ⟨t', ht', rfl⟩ := nameToId_isSome.mp (Option.isSome_of_eq_some hid)
  exact ⟨_, mem_newTasks.mpr ⟨t', ht', dep, hid, rfl⟩, rfl, t, (mem_getTaskConfigs.mp ht).1, hname, rfl⟩

/-- A new task is blocked if it waits for something, and pending if not. -/
theorem Future.status_eq {reader : Reader} (f : Future reader) :
    f.new.status = if f.new.waitsFor.isEmpty then .pending else .blocked := by
  obtain ⟨config, build, -, htasks⟩ := createBuild_ok f.created
  have hmem := f.mem
  rw [htasks] at hmem
  obtain ⟨t, -, id, -, hnew⟩ := mem_newTasks.mp hmem
  rw [hnew]
  rfl

/-! ### Small builds -/

/-- A reader that takes every text for one config. -/
def plainReader (config : CiConfig) : Reader where
  fromStr _ := .ok config
  order config := ⟨config.names.dedup, .refl _⟩

/-- A push to a branch; the build gets the id 100 and its tasks 1, 2 and so on. -/
def plainCreation (refName : String) : Creation where
  request := ⟨"ann", "site", refName, "HEAD"⟩
  repository := .ok (some 7)
  commit := .ok "c0ffee"
  blob := .ok ""
  build := .ok (100, 1)
  newV4 n := Fin.ofNat _ (n + 1)

/-- A task that runs `make`. -/
def plainTask (name : String) (deps : List String) : TaskConfig := ⟨name, "make", some deps⟩

end Ci
end Gitdot
