/-
# Runners

The rows of `ci.runners`, the services and handlers that register, list and
remove runners and give out their tokens, and the poll by which a runner
claims a task. They work on the server's store next to the tables of runners,
of tokens and of tasks.

A runner's row holds the id of its owner and a copy of the name under which it
was registered. Runners are looked up and repositories are listed by that
name. Repositories themselves name their owner by its id, and an owner's name
can change.

The names in a request have been parsed, and what a call draws (an id, a
token, the time) is given with the request.

Key definitions: `Runner`, `RunnerStore`, `RunnerCall`, `createRunner`,
`refreshRunnerToken`, `deleteRunner`, `listRunners`, `pollTask`,
`handleRunner`, `RunnerReach`.
Key theorems: `mem_listRunners`, `mem_listByOwner`.
-/
import Gitdot.Auth.Model
import Gitdot.Ci.Build
import Gitdot.Lib.Paging
import Gitdot.Lib.Pool
import Gitdot.Server.Run
import Mathlib.Data.Prod.Lex

namespace Gitdot
namespace Ci

open Lib Auth

/-! ### Rows and pages -/

/-- `RunnerOwnerType`. -/
inductive RunnerOwnerType where
  | user
  | organization
  deriving DecidableEq

/-- A row of `ci.runners`. -/
structure Runner where
  id : Uuid
  name : String
  ownerId : Uuid
  ownerName : String
  ownerType : RunnerOwnerType
  lastActive : Option Time
  createdAt : Time
  deriving DecidableEq

instance : Keyed Runner Uuid := ⟨Runner.id⟩

@[simp] theorem key_runner (r : Runner) : Keyed.key r = r.id := rfl

/-- Where a page ends. The latest rows come first. -/
structure Cursor where
  createdAt : Time
  id : Uuid
  deriving DecidableEq

/-- The order of `(created_at, id)`. -/
def Cursor.place (c : Cursor) : Time ×ₗ Uuid := toLex (c.createdAt, c.id)

theorem Cursor.place_injective : Function.Injective Cursor.place := by
  intro a b h
  obtain ⟨hat, hid⟩ := Prod.mk.inj (toLex.injective h)
  cases a
  cases b
  cases hat
  cases hid
  rfl

instance : LinearOrder Cursor := LinearOrder.lift' Cursor.place Cursor.place_injective

/-- `Page`, its cursor not yet encoded. -/
structure Page (α : Type) where
  data : List α
  nextCursor : Option Cursor
  deriving DecidableEq

/-- `DEFAULT_PER_PAGE_LIMIT`. -/
def defaultPerPageLimit : ℕ := 10000

/-- `MAX_PER_PAGE_LIMIT`. -/
def maxPerPageLimit : ℕ := 10000

def Runner.cursor (r : Runner) : Cursor := ⟨r.createdAt, r.id⟩

/-! ### Errors and requests -/

/-- The errors of the calls; `valueTooLong` is that of a `VARCHAR` column. -/
inductive RunnerCallError where
  | database (e : DatabaseError)
  | valueTooLong
  deriving DecidableEq

/-- `RunnerError`, and what `TaskError` is in `poll_task`. -/
inductive RunnerError where
  | input (field reason : String)
  | notFound (entity id : String)
  | databaseError (e : RunnerCallError)
  deriving DecidableEq

/-- `TryFrom<&str>`. -/
def RunnerOwnerType.tryFrom (ownerType : String) : Except RunnerError RunnerOwnerType :=
  match ownerType with
  | "user" => .ok .user
  | "organization" => .ok .organization
  | _ => .error (.input "owner type" ownerType)

structure CreateRunnerRequest where
  name : String
  userId : Uuid
  ownerName : String
  ownerType : RunnerOwnerType
  deriving DecidableEq

def CreateRunnerRequest.new (name : String) (userId : Uuid) (ownerName ownerType : String) :
    Except RunnerError CreateRunnerRequest := do
  let ownerType ← RunnerOwnerType.tryFrom ownerType
  return ⟨name, userId, ownerName, ownerType⟩

theorem CreateRunnerRequest.new_ok {name : String} {userId : Uuid} {ownerName ownerType : String}
    {request : CreateRunnerRequest} :
    CreateRunnerRequest.new name userId ownerName ownerType = .ok request ↔
      ∃ type, RunnerOwnerType.tryFrom ownerType = .ok type ∧
        request = ⟨name, userId, ownerName, type⟩ := by
  unfold CreateRunnerRequest.new
  simp only [bind_eq_ok]
  refine exists_congr fun type => and_congr_right fun _ => ?_
  exact ⟨fun h => (Except.ok.inj h).symm, fun h => h ▸ rfl⟩

structure CreateRunnerTokenRequest where
  ownerName : String
  runnerName : String
  deriving DecidableEq

structure DeleteRunnerRequest where
  ownerName : String
  name : String
  deriving DecidableEq

structure ListRunnersRequest where
  ownerName : String
  cursor : Option Cursor
  limit : ℕ
  deriving DecidableEq

def ListRunnersRequest.new (ownerName : String) (cursor : Option Cursor) (limit : Option ℕ) :
    ListRunnersRequest :=
  ⟨ownerName, cursor, min (max (limit.getD defaultPerPageLimit) 1) maxPerPageLimit⟩

/-! ### The store -/

/-- The server's store with the tables of runners, of access tokens and of
tasks. -/
structure RunnerStore where
  core : World
  runners : Table Runner
  tokens : List AccessToken
  tasks : Table Task

/-- What the server is set up with: besides `Setup`, the hash of tokens, and
the `created_at` that a repository gets. -/
structure RunnerSetup where
  core : Setup
  hashString : String → String
  createdAt : Uuid → Time

/-- The repositories that a viewer is shown. -/
def visibleTo (w : World) (viewer : Option Uuid) (r : Repository) : Bool :=
  r.isPublic || (r.isOwnedByUser && decide (viewer = some r.ownerId)) ||
    (!r.isOwnedByUser && viewer.any fun v => w.isMember r.ownerId v)

/-- The rows that `list_by_owner` of the repositories matches. -/
def repositoriesOf (w : World) (ownerName : String) (viewer : Option Uuid) : List Repository :=
  w.repositories.rows.filter fun r =>
    decide (r.ownerId ∈ w.ownerIds ownerName) && visibleTo w viewer r

def repositoryCursor (c : RunnerSetup) (r : Repository) : Cursor := ⟨c.createdAt r.id, r.id⟩

/-- `list_by_owner` of the repositories. -/
def listByOwner (c : RunnerSetup) (w : World) (ownerName : String) (viewer : Option Uuid)
    (cursor : Option Cursor) (limit : ℕ) : List Repository × Option Cursor :=
  page (repositoryCursor c) cursor limit (repositoriesOf w ownerName viewer)

namespace RunnerStore

variable (s : RunnerStore)

/-- `create`: the id is unique, and so are owner and name. -/
def createRunner (id : Uuid) (now : Time) (name : String) (ownerId : Uuid) (ownerName : String)
    (ownerType : RunnerOwnerType) : Except RunnerCallError Runner × RunnerStore :=
  let row : Runner := ⟨id, name, ownerId, ownerName, ownerType, none, now⟩
  if s.runners.rows.any fun r => decide (r.ownerId = ownerId ∧ r.name = name) then
    (.error (.database .uniqueViolation), s)
  else
    match s.runners.insert? row with
    | none => (.error (.database .uniqueViolation), s)
    | some runners => (.ok row, { s with runners := runners })

/-- `get`: the first row that the query meets. -/
def getRunner (ownerName name : String) : Option Runner :=
  s.runners.rows.find? fun r => decide (r.name = name ∧ r.ownerName = ownerName)

/-- `delete`: refused while a task refers to the runner. -/
def deleteRunner (id : Uuid) : Except RunnerCallError Unit × RunnerStore :=
  match s.runners.get? id with
  | none => (.error (.database .rowNotFound), s)
  | some _ =>
    if s.tasks.rows.any fun t => decide (t.runnerId = some id) then
      (.error (.database .foreignKeyViolation), s)
    else (.ok (), { s with runners := s.runners.erase id })

/-- `touch`. -/
def touchRunner (id : Uuid) (now : Time) : Except RunnerCallError Unit × RunnerStore :=
  match s.runners.get? id with
  | none => (.error (.database .rowNotFound), s)
  | some _ => (.ok (), { s with
      runners := s.runners.modify id (fun r => { r with lastActive := some now }) fun _ => rfl })

/-- The rows that `list_by_owner` of the runners matches. -/
def runnersOf (ownerName : String) : List Runner :=
  s.runners.rows.filter fun r => decide (r.ownerName = ownerName)

/-- `list_by_owner` of the runners. -/
def listRunners (ownerName : String) (cursor : Option Cursor) (limit : ℕ) :
    List Runner × Option Cursor :=
  page Runner.cursor cursor limit (s.runnersOf ownerName)

/-- `delete_token_by_principal`. -/
def deleteTokens (principal : Uuid) : RunnerStore :=
  { s with tokens := s.tokens.filter fun t => decide (t.principalId ≠ principal) }

/-- `create_token`: `client_id` has room for 64 characters, and ids and hashes
are unique. -/
def createToken (id principal : Uuid) (clientId tokenHash : String) (tokenType : TokenType) :
    Except RunnerCallError AccessToken × RunnerStore :=
  if 64 < clientId.length then (.error .valueTooLong, s)
  else if s.tokens.any fun t => decide (t.id = id ∨ t.tokenHash = tokenHash) then
    (.error (.database .uniqueViolation), s)
  else
    (.ok ⟨id, principal, clientId, tokenHash, tokenType⟩,
      { s with tokens := ⟨id, principal, clientId, tokenHash, tokenType⟩ :: s.tokens })

/-- `claim_task`: a task is assigned to a runner that exists. -/
def claimTask (runner : Uuid) (repositoryIds order : List Uuid) :
    Except RunnerCallError (Option Task) × RunnerStore :=
  let out := TaskTable.claimTask s.tasks runner repositoryIds order
  if out.1.isSome ∧ (s.runners.get? runner).isNone then
    (.error (.database .foreignKeyViolation), s)
  else (.ok out.1, { s with tasks := out.2 })

end RunnerStore

/-! ### Calls -/

/-- The calls of the services, each with what it draws. -/
inductive RunnerCall where
  | getOrganization (name : String)
  | createRunner (id : Uuid) (now : Time) (name : String) (ownerId : Uuid) (ownerName : String)
      (ownerType : RunnerOwnerType)
  | getRunner (ownerName name : String)
  | getRunnerById (id : Uuid)
  | deleteRunner (id : Uuid)
  | touchRunner (id : Uuid) (now : Time)
  | listRunners (ownerName : String) (cursor : Option Cursor) (limit : ℕ)
  | deleteTokens (principal : Uuid)
  | createToken (id principal : Uuid) (clientId tokenHash : String) (tokenType : TokenType)
  | listRepositories (ownerName : String) (viewer : Option Uuid) (cursor : Option Cursor) (limit : ℕ)
  | claimTask (runner : Uuid) (repositoryIds order : List Uuid)
  deriving DecidableEq

/-- What a call answers. -/
@[reducible] def RunnerCall.Resp : RunnerCall → Type
  | .getOrganization _ => Option Organization
  | .createRunner .. => Runner
  | .getRunner _ _ => Option Runner
  | .getRunnerById _ => Option Runner
  | .deleteRunner _ => Unit
  | .touchRunner _ _ => Unit
  | .listRunners _ _ _ => List Runner × Option Cursor
  | .deleteTokens _ => Unit
  | .createToken .. => AccessToken
  | .listRepositories .. => List Repository × Option Cursor
  | .claimTask _ _ _ => Option Task

def execRunner (c : RunnerSetup) : (call : RunnerCall) → RunnerStore →
    Except RunnerCallError call.Resp × RunnerStore
  | .getOrganization name, s => (.ok (s.core.getOrganization name), s)
  | .createRunner id now name ownerId ownerName ownerType, s =>
    s.createRunner id now name ownerId ownerName ownerType
  | .getRunner ownerName name, s => (.ok (s.getRunner ownerName name), s)
  | .getRunnerById id, s => (.ok (s.runners.get? id), s)
  | .deleteRunner id, s => s.deleteRunner id
  | .touchRunner id now, s => s.touchRunner id now
  | .listRunners ownerName cursor limit, s => (.ok (s.listRunners ownerName cursor limit), s)
  | .deleteTokens principal, s => (.ok (), s.deleteTokens principal)
  | .createToken id principal clientId tokenHash tokenType, s =>
    s.createToken id principal clientId tokenHash tokenType
  | .listRepositories ownerName viewer cursor limit, s =>
    (.ok (listByOwner c s.core ownerName viewer cursor limit), s)
  | .claimTask runner repositoryIds order, s => s.claimTask runner repositoryIds order

/-- What answers the calls. One that fails from outside lost its connection. -/
def runnerCalls (c : RunnerSetup) :
    Prog.Handler RunnerCall RunnerCall.Resp RunnerCallError RunnerStore where
  exec := execRunner c
  fault := fun _ => .database .connection

/-- Programs over the calls. -/
abbrev RunnerProg := Prog RunnerCall RunnerCall.Resp RunnerCallError RunnerError

/-- One call under `?`. -/
def askRunner (call : RunnerCall) : RunnerProg call.Resp := Prog.perform .databaseError call

/-- One call under `or_not_found`. -/
def askRunnerOrNotFound (entity id : String) (call : RunnerCall) : RunnerProg call.Resp :=
  Prog.perform (fun
    | .database .rowNotFound => .notFound entity id
    | e => .databaseError e) call

/-! ### Services -/

/-- What a request draws: the id of a new row, a token, and the time. -/
structure RunnerDraws where
  id : Uuid
  rawToken : String
  now : Time
  deriving DecidableEq

/-- The id of the owner that a request names: of the organization, or of the
caller. -/
def runnerOwnerId (request : CreateRunnerRequest) : RunnerProg Uuid :=
  match request.ownerType with
  | .user => pure request.userId
  | .organization => do
    let org ← askRunner (.getOrganization request.ownerName)
    let org ← Prog.liftExcept (okOr org (.notFound "owner" request.ownerName))
    pure org.id

/-- `create_runner`. -/
def createRunner (d : RunnerDraws) (request : CreateRunnerRequest) : RunnerProg Runner := do
  let ownerId ← runnerOwnerId request
  askRunner (.createRunner d.id d.now request.name ownerId request.ownerName request.ownerType)

/-- `delete_runner`. -/
def deleteRunner (request : DeleteRunnerRequest) : RunnerProg Unit := do
  let runner ← askRunner (.getRunner request.ownerName request.name)
  let runner ← Prog.liftExcept (okOr runner (.notFound "runner" request.name))
  askRunnerOrNotFound "runner" request.name (.deleteRunner runner.id)

/-- `list_runners`. -/
def listRunners (request : ListRunnersRequest) : RunnerProg (Page Runner) := do
  let listed ← askRunner (.listRunners request.ownerName request.cursor request.limit)
  pure ⟨listed.1, listed.2⟩

/-- The `client_id` of a runner's token. -/
def runnerClientId (ownerName runnerName : String) : String :=
  s!"gitdot-runner/{ownerName}/{runnerName}"

/-- `refresh_runner_token`, which returns the token it drew. -/
def refreshRunnerToken (c : RunnerSetup) (d : RunnerDraws) (request : CreateRunnerTokenRequest) :
    RunnerProg String := do
  let runner ← askRunner (.getRunner request.ownerName request.runnerName)
  let runner ← Prog.liftExcept (okOr runner (.notFound "runner" request.runnerName))
  askRunner (.deleteTokens runner.id)
  let _ ← askRunner (.createToken d.id runner.id
    (runnerClientId request.ownerName request.runnerName) (c.hashString d.rawToken) .runner)
  pure d.rawToken

/-- The loop of `poll_task`: an attempt, and others until the deadline. Each
meets the tasks in an `order`, as `claim_task` does. -/
def claimUntil (runner : Uuid) (repositoryIds order : List Uuid) :
    List (List Uuid) → RunnerProg (Option Task)
  | [] => askRunner (.claimTask runner repositoryIds order)
  | next :: orders => do
    let task ← askRunner (.claimTask runner repositoryIds order)
    match task with
    | some task => pure (some task)
    | none => claimUntil runner repositoryIds next orders

/-- `poll_task`. -/
def pollTask (runner : Uuid) (now : Time) (order : List Uuid) (orders : List (List Uuid)) :
    RunnerProg (Option Task) := do
  askRunner (.touchRunner runner now)
  let row ← askRunner (.getRunnerById runner)
  let row ← Prog.liftExcept (okOr row (.notFound "runner" (Uuid.text runner)))
  let listed ← askRunner (.listRepositories row.ownerName none none maxPerPageLimit)
  claimUntil runner (listed.1.map Repository.id) order orders

/-! ### Handlers -/

/-- What the handlers of runners are asked; the owner is the one in the path. -/
inductive RunnerRequest where
  | createRunner (owner name ownerType : String)
  | refreshRunnerToken (owner name : String)
  | listRunners (owner : String) (cursor : Option Cursor) (limit : Option ℕ)
  | deleteRunner (owner name : String)
  deriving DecidableEq

/-- What they return. -/
inductive RunnerReply where
  | runner (runner : Runner)
  | token (token : String)
  | page (page : Page Runner)
  | deleted
  | task (task : Option Task)
  deriving DecidableEq

def createRunnerHandler (d : RunnerDraws) (caller : Uuid) (owner name ownerType : String) :
    RunnerProg RunnerReply := do
  let request ← Prog.liftExcept (CreateRunnerRequest.new name caller owner ownerType)
  let runner ← createRunner d request
  pure (.runner runner)

/-- The refresh handler, which asks who the caller is and does not use it. -/
def refreshRunnerTokenHandler (c : RunnerSetup) (d : RunnerDraws) (_caller : Uuid)
    (owner name : String) : RunnerProg RunnerReply := do
  let token ← refreshRunnerToken c d ⟨owner, name⟩
  pure (.token token)

/-- The list handler, which asks who the caller is and does not use it. -/
def listRunnersHandler (_caller : Uuid) (owner : String) (cursor : Option Cursor)
    (limit : Option ℕ) : RunnerProg RunnerReply := do
  let page ← listRunners (ListRunnersRequest.new owner cursor limit)
  pure (.page page)

/-- The delete handler, which does not ask who the caller is. -/
def deleteRunnerHandler (owner name : String) : RunnerProg RunnerReply := do
  deleteRunner ⟨owner, name⟩
  pure .deleted

def handleRunner (c : RunnerSetup) (d : RunnerDraws) (caller : Uuid) :
    RunnerRequest → RunnerProg RunnerReply
  | .createRunner owner name ownerType => createRunnerHandler d caller owner name ownerType
  | .refreshRunnerToken owner name => refreshRunnerTokenHandler c d caller owner name
  | .listRunners owner cursor limit => listRunnersHandler caller owner cursor limit
  | .deleteRunner owner name => deleteRunnerHandler owner name

/-! ### Runs -/

/-- Requests of a run: of users on runners, and of runners for a task. -/
inductive RunnerOp where
  | request (d : RunnerDraws) (caller : Uuid) (request : RunnerRequest)
  | pollTask (runner : Uuid) (now : Time) (order : List Uuid) (orders : List (List Uuid))
  deriving DecidableEq

def runnerProgram (c : RunnerSetup) : RunnerOp → RunnerProg RunnerReply
  | .request d caller request => handleRunner c d caller request
  | .pollTask runner now order orders => do
    let task ← pollTask runner now order orders
    pure (.task task)

/-- What happens besides: a request to the rest of the server, or a call on
the tasks by a build or by a runner that reports. -/
inductive CiEvent where
  | core (e : Request)
  | createTask (new : NewTask) (s2Uri : String)
  | updateTask (id : Uuid) (status : TaskStatus)
  | unblockTasks (build : Uuid)

/-- The tasks whose repository is there: those of a deleted one go with it. -/
def tasksOf (w : World) (tasks : Table Task) : Table Task :=
  ⟨tasks.rows.filter fun t => (w.repositories.get? t.repositoryId).isSome, tasks.sorted.filter _⟩

def afterEvent (c : RunnerSetup) : CiEvent → RunnerStore → RunnerStore
  | .core e, s =>
    { s with core := serve c.core e s.core, tasks := tasksOf (serve c.core e s.core) s.tasks }
  | .createTask new s2Uri, s =>
    if (s.core.repositories.get? new.repositoryId).isSome then
      { s with tasks := (TaskTable.create s.tasks (new.row s2Uri)).2 }
    else s
  | .updateTask id status, s => { s with tasks := (TaskTable.updateTask s.tasks id status).2 }
  | .unblockTasks build, s => { s with tasks := (TaskTable.unblockTasks s.tasks build).2 }

abbrev RunnerPool :=
  Pool RunnerOp RunnerCall RunnerCall.Resp RunnerCallError RunnerError RunnerReply RunnerStore

abbrev RunnerMove := Move RunnerOp CiEvent

/-- A move of a run. -/
def runnerNext (c : RunnerSetup) : RunnerMove → RunnerPool → RunnerPool :=
  Pool.next (runnerCalls c) (runnerProgram c) (afterEvent c)

/-- The store before anything is stored. -/
def emptyRunners : RunnerStore := ⟨emptyWorld, .empty, [], .empty⟩

/-- Where runs start: no request has come yet. -/
def noRunners : RunnerPool := ⟨⟨emptyRunners, []⟩, []⟩

/-- The states that runs reach whose moves meet the guard. -/
abbrev RunnerReach (c : RunnerSetup) (guard : RunnerPool → RunnerMove → Prop) :
    RunnerPool → Prop :=
  Reach (fun P => P = noRunners) (runnerNext c) guard

/-! ### Lists -/

theorem mem_repositoriesOf {w : World} {ownerName : String} {viewer : Option Uuid} {r : Repository} :
    r ∈ repositoriesOf w ownerName viewer ↔ r ∈ w.repositories.rows ∧
      r.ownerId ∈ w.ownerIds ownerName ∧ visibleTo w viewer r = true := by
  simp [repositoriesOf]

/-- Rows that differ in their ids differ in their cursors. -/
theorem nodup_cursors {α : Type} [Keyed α Uuid] {t : Table α} {cursor : α → Cursor}
    (hid : ∀ a, (cursor a).id = Keyed.key a) {rows : List α} (hrows : rows.Sublist t.rows) :
    (rows.map cursor).Nodup := by
  have hids : ((rows.map cursor).map Cursor.id).Nodup := by
    rw [List.map_map, show Cursor.id ∘ cursor = Keyed.key from funext hid]
    exact t.nodup_keys.sublist (hrows.map _)
  exact hids.of_map _

theorem mem_listRunners {s : RunnerStore} {ownerName : String} {cursor : Option Cursor} {limit : ℕ}
    {r : Runner} : r ∈ (s.listRunners ownerName cursor limit).1 ↔
      OnPage Runner.cursor cursor limit (s.runnersOf ownerName) r :=
  mem_page (nodup_cursors (fun _ => rfl) List.filter_sublist)

theorem mem_listByOwner {c : RunnerSetup} {w : World} {ownerName : String} {viewer : Option Uuid}
    {cursor : Option Cursor} {limit : ℕ} {r : Repository} :
    r ∈ (listByOwner c w ownerName viewer cursor limit).1 ↔
      OnPage (repositoryCursor c) cursor limit (repositoriesOf w ownerName viewer) r :=
  mem_page (nodup_cursors (fun _ => rfl) List.filter_sublist)

end Ci
end Gitdot
